import ExactLinear.Text.Quoted

/-!
# Names

A name is one ASCII letter, and its case says what it stands for: a matrix has an uppercase letter,
a vector a lowercase one. `checkName` turns a name into the place of its letter in the alphabet.
-/

namespace ExactLinear

/-- What a name can stand for. -/
inductive Kind where
  | matrix
  | vector
deriving DecidableEq, Repr

/-- Why a name cannot be used. -/
inductive NameError where
  /-- The name is not one letter. -/
  | invalidName (name : String)
  /-- The name is a letter of the other case. -/
  | kindMismatch (name : String) (expected : Kind)
deriving DecidableEq, Repr

/-- A kind with its article. -/
def Kind.phrase : Kind → String
  | .matrix => "a matrix"
  | .vector => "a vector"

/-- The message that a user reads. -/
def NameError.message : NameError → String
  | .invalidName name =>
    "Invalid name " ++ Text.quoted name
      ++ ": matrices use one uppercase letter, vectors one lowercase letter"
  | .kindMismatch name expected => name ++ " is not " ++ expected.phrase

/-- The kind of a letter and its place in the alphabet. -/
def Kind.ofLetter? (c : Char) : Option (Kind × Fin 26) :=
  if h : 'A'.toNat ≤ c.toNat ∧ c.toNat ≤ 'Z'.toNat then
    some (.matrix, ⟨c.toNat - 'A'.toNat, by simp only [Char.reduceToNat] at h ⊢; omega⟩)
  else if h : 'a'.toNat ≤ c.toNat ∧ c.toNat ≤ 'z'.toNat then
    some (.vector, ⟨c.toNat - 'a'.toNat, by simp only [Char.reduceToNat] at h ⊢; omega⟩)
  else
    none

/-- The kind of a name and the place of its letter in the alphabet. -/
def Kind.ofName? (name : String) : Option (Kind × Fin 26) :=
  match name.toList with
  | [c] => Kind.ofLetter? c
  | _ => none

/-- The name of a kind at a place in the alphabet. -/
def Kind.nameAt (kind : Kind) (i : Fin 26) : String :=
  let first := match kind with
    | .matrix => 'A'
    | .vector => 'a'
  String.singleton (Char.ofNat (first.toNat + i))

/-- The kind of a name, if it is a name. -/
def kindOf (name : String) : Except NameError Kind :=
  match Kind.ofName? name with
  | some (kind, _) => .ok kind
  | none => .error (.invalidName name)

/-- The place of a name in the alphabet, if it is a name of the expected kind. -/
def checkName (expected : Kind) (name : String) : Except NameError (Fin 26) :=
  match Kind.ofName? name with
  | some (kind, i) => if kind = expected then .ok i else .error (.kindMismatch name expected)
  | none => .error (.invalidName name)

end ExactLinear
