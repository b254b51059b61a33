import ExactLinear.Session.Basic
import ExactLinear.Proofs.Computation
import ExactLinear.Proofs.Reduction
import ExactLinear.Proofs.Representation

/-!
# Results are well-formed

A matrix keeps its shape beside its rows, and an operation computes the two apart. Here it is shown
that they agree in every result, once they agree in the operands: for the operations on matrices and
vectors, for the worked operations and, as a store only holds such results and literals, for
whatever is evaluated against a store.
-/

namespace ExactLinear

/-! ## Matrices -/

namespace RatMatrix

variable {a b m : RatMatrix}

theorem yields_ofRows (rows : List (List ℚ)) (flag : Bool) :
    Yields WellFormed (ofRows rows flag) := by
  unfold ofRows
  split
  · exact .error _
  · exact .error _
  · rename_i first rest hempty
    cases hfind : (first :: rest).find? (·.length ≠ first.length) with
    | some bad => exact .error _
    | none =>
      refine .ok ⟨Nat.succ_pos _, List.length_pos_iff.mpr fun hnil => ?_, rfl, fun row hrow => ?_⟩
      · exact hempty hnil
      · simpa using List.find?_eq_none.mp hfind row hrow

theorem yields_withoutColumn (m : RatMatrix) (j : ℕ) : Yields WellFormed (m.withoutColumn j) := by
  unfold withoutColumn
  split_ifs
  · exact .error _
  · exact yields_ofRows _ _

theorem yields_minor (m : RatMatrix) (i j : ℕ) : Yields WellFormed (m.minor i j) := by
  unfold minor
  split_ifs
  · exact .error _
  · exact yields_ofRows _ _

theorem yields_coefficients (m : RatMatrix) : Yields WellFormed m.coefficients := by
  unfold coefficients
  split_ifs
  · exact yields_withoutColumn m _
  · exact .error _

theorem yields_withColumn (hm : m.WellFormed) (j : ℕ) (v : RatVector) :
    Yields WellFormed (m.withColumn j v) := by
  unfold withColumn
  split_ifs with hlen
  · exact .error _
  · exact .error _
  · rw [not_not] at hlen
    refine .ok ⟨hm.1, hm.2.1, ?_, fun row hrow => ?_⟩
    · rw [List.length_zipWith, hm.2.2.1, show v.entries.length = m.shape.rows from hlen, min_self]
    · obtain ⟨i, hi, rfl⟩ := List.mem_iff_getElem.mp hrow
      rw [List.getElem_zipWith, List.length_set]
      exact hm.2.2.2 _ (List.getElem_mem _)

theorem yields_zipWith (f : ℚ → ℚ → ℚ) (ha : a.WellFormed) (hb : b.WellFormed) :
    Yields WellFormed (zipWith f a b) := by
  unfold zipWith
  split_ifs with hshape
  · refine .ok ⟨ha.1, ha.2.1, ?_, fun row hrow => ?_⟩
    · rw [List.length_zipWith, ha.2.2.1, hb.2.2.1, hshape, min_self]
    · obtain ⟨i, hi, rfl⟩ := List.mem_iff_getElem.mp hrow
      rw [List.getElem_zipWith, List.length_zipWith, ha.2.2.2 _ (List.getElem_mem _),
        hb.2.2.2 _ (List.getElem_mem _), hshape, min_self]
  · exact .error _

theorem WellFormed.scale (hm : m.WellFormed) (k : ℚ) : (m.scale k).WellFormed :=
  (hm.represents.scale k).wellFormed hm.1 hm.2.1

theorem yields_mul (ha : a.WellFormed) (hb : b.WellFormed) : Yields WellFormed (mul a b) := by
  by_cases hfit : a.shape.cols = b.shape.rows
  · have hgrid : b.Represents (grid a.shape.cols b.shape.cols b.rows) := by
      rw [hfit]
      exact hb.represents
    obtain ⟨c, hc, hrepr, -⟩ := ha.represents.mul hgrid
    rw [hc]
    exact .ok (hrepr.wellFormed ha.1 hb.2.1)
  · rw [mul, if_neg hfit]
    exact .error _

theorem WellFormed.transpose (hm : m.WellFormed) : m.transpose.WellFormed := by
  refine ⟨hm.2.1, hm.1, by simp [RatMatrix.transpose], fun row hrow => ?_⟩
  obtain ⟨j, -, rfl⟩ := List.mem_map.mp hrow
  rw [column, List.length_map]
  exact hm.2.2.1

theorem yields_adjugate (m : RatMatrix) : Yields WellFormed m.adjugate := by
  unfold adjugate
  split_ifs
  · exact .error _
  · exact yields_ofRows _ _
  · exact (Yields.trivial _).bind fun rows _ => yields_ofRows rows _

theorem yields_inverse (m : RatMatrix) : Yields (fun r => r.inverse.WellFormed) m.inverse := by
  unfold inverse
  refine (Yields.trivial _).bind fun d _ => ?_
  dsimp only
  split_ifs
  · exact .error _
  · exact (yields_adjugate m).bind fun adj hadj => .ok (hadj.scale d⁻¹)

end RatMatrix

/-! ## Vectors -/

namespace RatVector

variable {u v : RatVector}

theorem wellFormed_iff : v.WellFormed ↔ 0 < v.length := List.length_pos_iff.symm

theorem yields_ofList (entries : List ℚ) : Yields WellFormed (ofList entries) := by
  unfold ofList
  split_ifs with hempty
  · exact .error _
  · exact .ok fun hnil => hempty (List.isEmpty_iff.mpr hnil)

theorem yields_zipWith (f : ℚ → ℚ → ℚ) (hu : u.WellFormed) : Yields WellFormed (zipWith f u v) := by
  unfold zipWith
  split_ifs with hlen
  · have hpos := wellFormed_iff.mp hu
    refine .ok (wellFormed_iff.mpr ?_)
    rw [length, List.length_zipWith]
    exact lt_min hpos (hpos.trans_eq hlen)
  · exact .error _

theorem WellFormed.scale (hv : v.WellFormed) (k : ℚ) : (v.scale k).WellFormed := by
  rw [wellFormed_iff, length, RatVector.scale, List.length_map]
  exact wellFormed_iff.mp hv

theorem yields_mulVector (a : RatMatrix) (v : RatVector) : Yields WellFormed (a.mulVector v) := by
  unfold RatMatrix.mulVector
  split_ifs
  · exact yields_ofList _
  · exact .error _

theorem yields_cross (v : RatVector) (others : List RatVector) :
    Yields WellFormed (v.cross others) := by
  unfold cross
  dsimp only
  -- the lengths of the operands are compared before the components are looked at
  cases others.find? (·.length ≠ v.length) with
  | some bad => exact .error _
  | none =>
    dsimp only
    split_ifs
    · exact .error _
    · split
      · exact yields_ofList _
      · exact (Yields.trivial _).bind fun operands _ =>
          (Yields.trivial _).bind fun components _ => yields_ofList components

end RatVector

/-! ## Worked operations -/

/-- A matrix or a vector is well-formed; of other values nothing is required. -/
def Value.WellFormed : Value → Prop
  | .matrix m => m.WellFormed
  | .vector v => v.WellFormed
  | _ => True

/-- The result of an outcome is well-formed. -/
def Outcome.WellFormed (o : Outcome) : Prop := o.result.WellFormed

namespace Worked

variable {a b : Named RatMatrix} {u v : Named RatVector}

theorem yields_combineMatrices (sign : String)
    {f : RatMatrix → RatMatrix → Except LinearError RatMatrix}
    (hf : Yields RatMatrix.WellFormed (f a.value b.value)) :
    Yields Outcome.WellFormed (combineMatrices sign f a b) :=
  hf.bind fun _ hresult => .ok hresult

theorem yields_combineVectors (sign : String)
    {f : RatVector → RatVector → Except LinearError RatVector}
    (hf : Yields RatVector.WellFormed (f u.value v.value)) :
    Yields Outcome.WellFormed (combineVectors sign f u v) :=
  hf.bind fun _ hresult => .ok hresult

theorem yields_multiplyMatrices (ha : a.value.WellFormed) (hb : b.value.WellFormed) :
    Yields Outcome.WellFormed (multiplyMatrices a b) :=
  (RatMatrix.yields_mul ha hb).bind fun _ hresult => .ok hresult

theorem yields_applyMatrix (a : Named RatMatrix) (v : Named RatVector) :
    Yields Outcome.WellFormed (applyMatrix a v) :=
  (RatVector.yields_mulVector a.value v.value).bind fun _ hresult => .ok hresult

theorem yields_determinant (a : Named RatMatrix) : Yields Outcome.WellFormed (determinant a) :=
  (Yields.trivial _).bind fun _ _ => (Yields.trivial _).bind fun _ _ => .ok trivial

theorem yields_adjugate (a : Named RatMatrix) : Yields Outcome.WellFormed (adjugate a) :=
  (RatMatrix.yields_adjugate a.value).bind fun _ hresult => .ok hresult

theorem yields_invert (a : Named RatMatrix) : Yields Outcome.WellFormed (invert a) :=
  (RatMatrix.yields_inverse a.value).bind fun _ hresult => .ok hresult

theorem yields_solve (a : Named RatMatrix) : Yields Outcome.WellFormed (solve a) :=
  (Yields.trivial _).bind fun _ _ => .ok trivial

theorem yields_cramer (a : Named RatMatrix) : Yields Outcome.WellFormed (cramer a) :=
  (Yields.trivial _).bind fun _ _ => .ok trivial

theorem yields_dot (u v : Named RatVector) : Yields Outcome.WellFormed (dot u v) :=
  (Yields.trivial _).bind fun _ _ => .ok trivial

theorem yields_cross (operands : List (Named RatVector)) :
    Yields Outcome.WellFormed (cross operands) := by
  unfold cross
  split
  · exact .error _
  · exact (RatVector.yields_cross _ _).bind fun _ hresult => .ok hresult

end Worked

/-! ## Stores -/

/-- The stored matrix or vector is well-formed. -/
def Stored.WellFormed : Stored → Prop
  | .matrix m => m.WellFormed
  | .vector v => v.WellFormed

/-- What is bound to a name is well-formed when the result is. -/
theorem Value.WellFormed.of_stored? {result : Value} (h : result.WellFormed) {value : Stored}
    (hvalue : result.stored? = some value) : value.WellFormed := by
  cases result with
  | matrix m => exact Option.some.inj hvalue ▸ h
  | vector v => exact Option.some.inj hvalue ▸ h
  | scalar r => cases hvalue
  | solution s => cases hvalue

/-- Of the values in a vector after one place was set, each was there before or is the new one. -/
theorem eq_or_getElem_eq_of_set {α : Type} {n : ℕ} {xs : Vector (Option α) n} {i k : Fin n}
    {a b : α} (h : (xs.set i (some a))[k] = some b) : b = a ∨ xs[k] = some b := by
  rw [Fin.getElem_fin, Vector.getElem_set] at h
  split_ifs at h
  · exact .inl (Option.some.inj h).symm
  · exact .inr h

/-- Of the values in a vector after one place was cleared, each was there before. -/
theorem getElem_eq_of_set_none {α : Type} {n : ℕ} {xs : Vector (Option α) n} {i k : Fin n} {b : α}
    (h : (xs.set i none)[k] = some b) : xs[k] = some b := by
  rw [Fin.getElem_fin, Vector.getElem_set] at h
  split_ifs at h
  exact h

namespace Store

/-- Whatever a name stands for is well-formed. -/
structure WellFormed (s : Store) : Prop where
  matrixAt : ∀ i m, s.matrixAt i = some m → m.WellFormed
  vectorAt : ∀ i v, s.vectorAt i = some v → v.WellFormed

theorem wellFormed_empty : empty.WellFormed where
  matrixAt i m h := by simp [Store.matrixAt, empty] at h
  vectorAt i v h := by simp [Store.vectorAt, empty] at h

variable {s : Store}

theorem WellFormed.insert (hs : s.WellFormed) (name : String) {value : Stored}
    (hvalue : value.WellFormed) : Yields WellFormed (s.insert name value) := by
  cases value with
  | matrix m =>
    refine (Yields.trivial _).bind fun i _ => .ok ⟨fun k m' hk => ?_, hs.vectorAt⟩
    obtain rfl | hk := eq_or_getElem_eq_of_set hk
    · exact hvalue
    · exact hs.matrixAt k m' hk
  | vector v =>
    refine (Yields.trivial _).bind fun i _ => .ok ⟨hs.matrixAt, fun k v' hk => ?_⟩
    obtain rfl | hk := eq_or_getElem_eq_of_set hk
    · exact hvalue
    · exact hs.vectorAt k v' hk

theorem WellFormed.namedMatrix (hs : s.WellFormed) (name : String) :
    Yields (fun a => a.value.WellFormed) (s.namedMatrix name) := by
  unfold Store.namedMatrix
  split
  · exact .error _
  · rename_i i hi
    cases hm : s.matrixAt i with
    | none => exact .error _
    | some m => exact .ok (hs.matrixAt i m hm)

theorem WellFormed.namedVector (hs : s.WellFormed) (name : String) :
    Yields (fun v => v.value.WellFormed) (s.namedVector name) := by
  unfold Store.namedVector
  split
  · exact .error _
  · rename_i i hi
    cases hv : s.vectorAt i with
    | none => exact .error _
    | some v => exact .ok (hs.vectorAt i v hv)

/-! ## Evaluation -/

theorem WellFormed.evaluateShow (hs : s.WellFormed) (name : String) :
    Yields Outcome.WellFormed (s.evaluateShow name) := by
  refine (Yields.trivial _).bind fun kind _ => ?_
  cases kind with
  | matrix => exact (hs.namedMatrix name).bind fun a ha => .ok ha
  | vector => exact (hs.namedVector name).bind fun v hv => .ok hv

theorem WellFormed.onMatrices (hs : s.WellFormed) (left right : String)
    {f : Named RatMatrix → Named RatMatrix → Except LinearError Outcome}
    (hf : ∀ a b, a.value.WellFormed → b.value.WellFormed → Yields Outcome.WellFormed (f a b)) :
    Yields Outcome.WellFormed (s.onMatrices left right f) :=
  (hs.namedMatrix left).bind fun a ha => (hs.namedMatrix right).bind fun b hb =>
    (hf a b ha hb).mapError

theorem WellFormed.onVectors (hs : s.WellFormed) (left right : String)
    {f : Named RatVector → Named RatVector → Except LinearError Outcome}
    (hf : ∀ u v, u.value.WellFormed → Yields Outcome.WellFormed (f u v)) :
    Yields Outcome.WellFormed (s.onVectors left right f) :=
  (hs.namedVector left).bind fun u hu => (Yields.trivial _).bind fun v _ => (hf u v hu).mapError

theorem yields_onMatrixAndVector (s : Store) (left right : String) :
    Yields Outcome.WellFormed (s.onMatrixAndVector left right) :=
  (Yields.trivial _).bind fun a _ => (Yields.trivial _).bind fun v _ =>
    (Worked.yields_applyMatrix a v).mapError

theorem WellFormed.evaluateBinary (hs : s.WellFormed) (op : BinaryOp) (left right : String) :
    Yields Outcome.WellFormed (s.evaluateBinary op left right) := by
  refine (Yields.trivial _).bind fun l _ => (Yields.trivial _).bind fun r _ => ?_
  split
  · exact hs.onMatrices left right fun a b ha hb =>
      Worked.yields_combineMatrices "+" (RatMatrix.yields_zipWith _ ha hb)
  · exact hs.onMatrices left right fun a b ha hb =>
      Worked.yields_combineMatrices "-" (RatMatrix.yields_zipWith _ ha hb)
  · exact hs.onMatrices left right fun a b => Worked.yields_multiplyMatrices
  · exact hs.onMatrices left right fun a b => Worked.yields_multiplyMatrices
  · exact s.yields_onMatrixAndVector left right
  · exact s.yields_onMatrixAndVector left right
  · exact hs.onVectors left right fun u v hu =>
      Worked.yields_combineVectors "+" (RatVector.yields_zipWith _ hu)
  · exact hs.onVectors left right fun u v hu =>
      Worked.yields_combineVectors "-" (RatVector.yields_zipWith _ hu)
  · exact hs.onVectors left right fun u v _ => Worked.yields_dot u v
  · exact .error _
  · exact .error _

theorem WellFormed.evaluateScaled (hs : s.WellFormed) (k : ℚ) (name : String) :
    Yields Outcome.WellFormed (s.evaluateScaled k name) := by
  refine (Yields.trivial _).bind fun kind _ => ?_
  cases kind with
  | matrix => exact (hs.namedMatrix name).bind fun a ha => .ok (ha.scale k)
  | vector => exact (hs.namedVector name).bind fun v hv => .ok (hv.scale k)

theorem WellFormed.onMatrix (hs : s.WellFormed) (function : Builtin) (args : List String)
    {f : Named RatMatrix → Except LinearError Outcome}
    (hf : ∀ a, a.value.WellFormed → Yields Outcome.WellFormed (f a)) :
    Yields Outcome.WellFormed (s.onMatrix function args f) :=
  (Yields.trivial _).bind fun name _ => (hs.namedMatrix name).bind fun a ha => (hf a ha).mapError

theorem yields_solveSystem (preferCramer : Bool) (a : Named RatMatrix) :
    Yields Outcome.WellFormed (solveSystem preferCramer a) := by
  unfold solveSystem
  dsimp only
  split_ifs
  · split
    · exact Worked.yields_solve a
    · exact Worked.yields_cramer a
  · exact Worked.yields_solve a

theorem WellFormed.evaluateCall (hs : s.WellFormed) (preferCramer : Bool) (function : Builtin)
    (args : List String) :
    Yields Outcome.WellFormed (s.evaluateCall preferCramer function args) := by
  cases function with
  | det => exact hs.onMatrix _ args fun a _ => Worked.yields_determinant a
  | inverse => exact hs.onMatrix _ args fun a _ => Worked.yields_invert a
  | transpose => exact hs.onMatrix _ args fun a ha => .ok ha.transpose
  | adjugate => exact hs.onMatrix _ args fun a _ => Worked.yields_adjugate a
  | rref => exact hs.onMatrix _ args fun a ha => .ok (RatMatrix.wellFormed_reduce ha).1
  | solve => exact hs.onMatrix _ args fun a _ => yields_solveSystem preferCramer a
  | cramer => exact hs.onMatrix _ args fun a _ => Worked.yields_cramer a
  | cross =>
    exact (Yields.trivial _).bind fun operands _ => (Worked.yields_cross operands).mapError
  | norm2 =>
    exact (Yields.trivial _).bind fun name _ => (Yields.trivial _).bind fun v _ => .ok trivial

/-- Whatever is evaluated against a well-formed store is well-formed. -/
theorem WellFormed.evaluate (hs : s.WellFormed) (preferCramer : Bool) (operation : Operation) :
    Yields Outcome.WellFormed (s.evaluate preferCramer operation) := by
  cases operation with
  | binary op left right => exact hs.evaluateBinary op left right
  | scaled factor name => exact hs.evaluateScaled factor name
  | call function args => exact hs.evaluateCall preferCramer function args
  | «show» name => exact hs.evaluateShow name

end Store

/-! ## Literals -/

/-- The value that a statement defines, if there is one, is well-formed. -/
def Statement.WellFormed : Statement → Prop
  | .define _ value => value.WellFormed
  | _ => True

namespace Command

theorem yields_readMatrix (rows : List WrittenRow) :
    Yields RatMatrix.WellFormed (readMatrix rows) := by
  refine (Yields.trivial _).bind fun values _ => ?_
  dsimp only
  split_ifs
  · exact .error _
  · exact (RatMatrix.yields_ofRows values _).mapError

theorem yields_readVector (numbers : List String) :
    Yields RatVector.WellFormed (readVector numbers) :=
  ((Yields.trivial _).bind fun entries _ => RatVector.yields_ofList entries).mapError

theorem yields_toStatement (phrase : Phrase) :
    Yields Statement.WellFormed phrase.toStatement := by
  cases phrase with
  | list => exact .ok trivial
  | matrix name rows => exact (yields_readMatrix rows).bind fun _ hm => .ok hm
  | vector name numbers => exact (yields_readVector numbers).bind fun _ hv => .ok hv
  | bind name clause => exact (Yields.trivial _).bind fun _ _ => .ok trivial
  | run clause => exact (Yields.trivial _).bind fun _ _ => .ok trivial

/-- The literals of a program are well-formed. -/
theorem yields_readProgram (text : String) :
    Yields (fun statements => ∀ t ∈ statements, t.WellFormed) (readProgram text) := by
  unfold readProgram
  split
  · exact .error _
  · exact Yields.mapM fun phrase _ => yields_toStatement phrase

end Command

end ExactLinear
