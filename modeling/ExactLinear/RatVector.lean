import ExactLinear.Rational.Literal

/-!
# Vectors of rationals

A `RatVector` is a nonempty list of components. `ofList` refuses the empty list and every operation
keeps at least one component; `WellFormed` states it.
-/

namespace ExactLinear

/-- The sum of products of corresponding entries, as far as both lists reach. -/
def dotProduct (a b : List Rat) : Rat := (List.zipWith (· * ·) a b).foldr (· + ·) 0

/-- The position of the first entry that is not zero. -/
def leadingIndex? (row : List Rat) : Option Nat := row.findIdx? (· ≠ 0)

/-- A vector, as the list of its components. -/
structure RatVector where
  entries : List Rat
deriving DecidableEq, Repr

namespace RatVector

/-- A vector has at least one component. -/
def WellFormed (v : RatVector) : Prop := v.entries ≠ []

instance (v : RatVector) : Decidable v.WellFormed := inferInstanceAs (Decidable (v.entries ≠ []))

/-- The vector with the given components, of which there must be one. -/
def ofList (entries : List Rat) : Except LinearError RatVector :=
  if entries.isEmpty then .error .empty else .ok ⟨entries⟩

/-- The number of components. -/
def length (v : RatVector) : Nat := v.entries.length

/-- A vector counts as one column. -/
def shape (v : RatVector) : Shape := Shape.column v.length

/-- The component at index `i`, counted from zero. -/
def get (v : RatVector) (i : Nat) : Except LinearError Rat :=
  match v.entries[i]? with
  | some x => .ok x
  | none => .error (.indexOutOfRange i 0 v.shape)

/-- Combines two vectors of one length component by component. -/
def zipWith (f : Rat → Rat → Rat) (u v : RatVector) : Except LinearError RatVector :=
  if u.length = v.length then
    .ok ⟨List.zipWith f u.entries v.entries⟩
  else
    .error (.dimensionMismatch u.shape v.shape)

def add (u v : RatVector) : Except LinearError RatVector := zipWith (· + ·) u v

def sub (u v : RatVector) : Except LinearError RatVector := zipWith (· - ·) u v

/-- Multiplies every component by `k`. -/
def scale (k : Rat) (v : RatVector) : RatVector := ⟨v.entries.map (k * ·)⟩

/-- The scalar product of two vectors of one length. -/
def dot (u v : RatVector) : Except LinearError Rat :=
  if u.length = v.length then
    .ok (dotProduct u.entries v.entries)
  else
    .error (.dimensionMismatch u.shape v.shape)

/-- The sum of all components. -/
def sum (v : RatVector) : Rat := v.entries.foldr (· + ·) 0

/-- The exact square of the Euclidean length. -/
def normSquared (v : RatVector) : Rat := dotProduct v.entries v.entries

/-- The components in parentheses, with commas between them. -/
def text (v : RatVector) : String :=
  "(" ++ ", ".intercalate (v.entries.map Literal.write) ++ ")"

end RatVector

end ExactLinear
