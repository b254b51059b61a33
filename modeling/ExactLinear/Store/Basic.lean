import ExactLinear.RatMatrix.Basic
import ExactLinear.Store.Name

/-!
# The store

A `Store` holds a matrix or nothing for each uppercase letter and a vector or nothing for each
lowercase one. A name of the wrong kind is refused before anything is changed.
-/

namespace ExactLinear

/-- A value that a name can stand for. -/
inductive Stored where
  | matrix (m : RatMatrix)
  | vector (v : RatVector)
deriving DecidableEq, Repr

/-- Named matrices and vectors. -/
structure Store where
  matrices : Vector (Option RatMatrix) 26
  vectors : Vector (Option RatVector) 26
deriving DecidableEq, Repr

namespace Store

/-- The store without names. -/
def empty : Store := ⟨Vector.replicate 26 none, Vector.replicate 26 none⟩

instance : Inhabited Store := ⟨empty⟩

/-- The matrix at a place in the alphabet. -/
def matrixAt (s : Store) (i : Fin 26) : Option RatMatrix := s.matrices[i]

/-- The vector at a place in the alphabet. -/
def vectorAt (s : Store) (i : Fin 26) : Option RatVector := s.vectors[i]

/-- Binds a name of the value's kind to a value. -/
def insert (s : Store) (name : String) : Stored → Except NameError Store
  | .matrix m => do
    let i ← checkName .matrix name
    return { s with matrices := s.matrices.set i (some m) }
  | .vector v => do
    let i ← checkName .vector name
    return { s with vectors := s.vectors.set i (some v) }

/-- The matrix of a name. -/
def matrix? (s : Store) (name : String) : Option RatMatrix :=
  match checkName .matrix name with
  | .ok i => s.matrixAt i
  | .error _ => none

/-- The vector of a name. -/
def vector? (s : Store) (name : String) : Option RatVector :=
  match checkName .vector name with
  | .ok i => s.vectorAt i
  | .error _ => none

/-- The value of a name. -/
def find? (s : Store) (name : String) : Option Stored :=
  match Kind.ofName? name with
  | some (.matrix, i) => (s.matrixAt i).map .matrix
  | some (.vector, i) => (s.vectorAt i).map .vector
  | none => none

/-- Removes what a name stands for. -/
def erase (s : Store) (name : String) : Store :=
  match Kind.ofName? name with
  | some (.matrix, i) => { s with matrices := s.matrices.set i none }
  | some (.vector, i) => { s with vectors := s.vectors.set i none }
  | none => s

/-- Removes what a name stands for, and tells whether it stood for anything. -/
def remove (s : Store) (name : String) : Bool × Store := ((s.find? name).isSome, s.erase name)

/-- The matrices with their names, in the order of the alphabet. -/
def namedMatrices (s : Store) : List (String × RatMatrix) :=
  (List.finRange 26).filterMap fun i => (s.matrixAt i).map (Kind.matrix.nameAt i, ·)

/-- The vectors with their names, in the order of the alphabet. -/
def namedVectors (s : Store) : List (String × RatVector) :=
  (List.finRange 26).filterMap fun i => (s.vectorAt i).map (Kind.vector.nameAt i, ·)

/-- All names that stand for something: the matrices, then the vectors. -/
def names (s : Store) : List String := s.namedMatrices.map (·.1) ++ s.namedVectors.map (·.1)

/-- Whether no name stands for anything. -/
def isEmpty (s : Store) : Bool := s.names.isEmpty

end Store

end ExactLinear
