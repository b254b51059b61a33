import ExactLinear.Binary64.Basic

/-!
# JSON values

A JSON value keeps integers apart from other numbers: an integer is exact and lies between `-2 ^ 63`
and `2 ^ 64`, every other number is a floating-point number. The members of an object are sorted by
name and each name occurs once.
-/

namespace ExactLinear

/-- A JSON value. -/
inductive Json where
  | null
  | bool (b : Bool)
  | integer (n : Int)
  | double (x : Binary64)
  | string (s : String)
  | array (items : List Json)
  | object (members : List (String × Json))
deriving Repr, Inhabited

namespace Json

/-- Puts a member in its place in the order of names. A member of that name is replaced. -/
def insertMember (name : String) (value : Json) : List (String × Json) → List (String × Json)
  | [] => [(name, value)]
  | (n, v) :: members =>
    if name < n then (name, value) :: (n, v) :: members
    else if name = n then (name, value) :: members
    else (n, v) :: insertMember name value members

/-- The object with the given members, of which the last one of a name counts. -/
def ofMembers (members : List (String × Json)) : Json :=
  .object (members.foldl (fun sorted (name, value) => insertMember name value sorted) [])

/-- The member of an object with a given name. -/
def member? (name : String) : Json → Option Json
  | .object members => members.lookup name
  | _ => none

/-- The items of an array. -/
def items? : Json → Option (List Json)
  | .array items => some items
  | _ => none

/-- The members of an object. -/
def members? : Json → Option (List (String × Json))
  | .object members => some members
  | _ => none

/-- The characters of a string. -/
def string? : Json → Option String
  | .string s => some s
  | _ => none

/-- The truth value of a Boolean. -/
def bool? : Json → Option Bool
  | .bool b => some b
  | _ => none

end Json

end ExactLinear
