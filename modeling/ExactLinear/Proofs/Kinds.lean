import ExactLinear.Proofs.Computation
import ExactLinear.Proofs.Names
import ExactLinear.Session.Basic

/-!
# Kinds of operations

What kind of value an operation results in can be read off its syntax: the case of a letter gives
the kind of an operand, and `Operation.kind?` goes from there. The evaluator knows nothing of this.
It dispatches on the kinds of the operands, looks every name up under the kind that it expects, and
checks the kind of the result once more when it is bound. `Store.obeys_evaluate` says that all this
comes to the same: an operation with a kind results in a value of this kind unless a name stands for
nothing or the engine refuses the operands, and an operation without a kind has no result at all.
-/

namespace ExactLinear

/-! ## Kinds by syntax -/

/-- The kind of what a name stands for, by the case of its letter. -/
def Kind.ofCase? (name : String) : Option Kind :=
  match name.toList with
  | [c] => if c.isUpper then some .matrix else if c.isLower then some .vector else none
  | _ => none

/-- The kinds of results. -/
inductive ResultKind where
  | scalar
  | vector
  | matrix
  | solution
deriving DecidableEq, Repr

/-- What an operation results in that shows a value of this kind. -/
def Kind.shown : Kind → ResultKind
  | .matrix => .matrix
  | .vector => .vector

/-- The kind of the result of an operator between operands of two kinds. -/
def BinaryOp.kind? : BinaryOp → Kind → Kind → Option ResultKind
  | _, .matrix, .matrix => some .matrix
  | .times, .matrix, .vector => some .vector
  | .dot, .matrix, .vector => some .vector
  | .plus, .vector, .vector => some .vector
  | .minus, .vector, .vector => some .vector
  | .dot, .vector, .vector => some .scalar
  | _, _, _ => none

/-- The kind of the result of a function of one matrix. -/
def Builtin.matrixKind? : Builtin → Option ResultKind
  | .det => some .scalar
  | .inverse | .transpose | .adjugate | .rref => some .matrix
  | .solve | .cramer => some .solution
  | .cross | .norm2 => none

/-- The kind of the result of a call, from the kinds of its arguments. What is no letter has no
kind. -/
def Builtin.kind? (function : Builtin) (args : List (Option Kind)) : Option ResultKind :=
  match function with
  | .cross => if args ≠ [] ∧ ∀ kind ∈ args, kind = some .vector then some .vector else none
  | .norm2 => if args = [some .vector] then some .scalar else none
  | _ => if args = [some .matrix] then function.matrixKind? else none

/-- The kind of the result of an operation. -/
def Operation.kind? : Operation → Option ResultKind
  | .show name => (Kind.ofCase? name).map Kind.shown
  | .scaled _ name => (Kind.ofCase? name).map Kind.shown
  | .binary op left right => do op.kind? (← Kind.ofCase? left) (← Kind.ofCase? right)
  | .call function args => function.kind? (args.map Kind.ofCase?)

/-- The kind of a result. -/
def Value.kind : Value → ResultKind
  | .scalar _ => .scalar
  | .vector _ => .vector
  | .matrix _ => .matrix
  | .solution _ => .solution

/-- The kind of a stored value. -/
def Stored.kind : Stored → Kind
  | .matrix _ => .matrix
  | .vector _ => .vector

/-! ## Computations of a kind -/

variable {α β : Type}

/-- The computation comes to a value with the property, or fails as it is allowed to: for a name
that stands for nothing in the store, or because the engine refuses its operands. -/
inductive Settles (s : Store) (P : α → Prop) : Except SessionError α → Prop where
  | ok {a : α} (h : P a) : Settles s P (.ok a)
  | unknownName {name : String} (h : s.find? name = none) :
    Settles s P (.error (.unknownName name))
  | linear (e : LinearError) : Settles s P (.error (.linear e))

namespace Settles

variable {s : Store} {P : α → Prop} {x : Except SessionError α}

theorem bind {Q : β → Prop} {f : α → Except SessionError β} (h : Settles s P x)
    (hf : ∀ a, P a → Settles s Q (f a)) : Settles s Q (x >>= f) := by
  cases h with
  | ok h => exact hf _ h
  | unknownName h => exact .unknownName h
  | linear e => exact .linear e

theorem mapM {f : α → Except SessionError β} {l : List α}
    (h : ∀ a ∈ l, Settles s (fun _ => True) (f a)) : Settles s (fun _ => True) (l.mapM f) := by
  induction l with
  | nil => exact .ok trivial
  | cons a l ih =>
    obtain ⟨ha, hl⟩ := List.forall_mem_cons.mp h
    rw [List.mapM_cons]
    exact ha.bind fun _ _ => (ih hl).bind fun _ _ => .ok trivial

/-- The engine settles whatever it yields. -/
theorem of_yields {y : Except LinearError α} (h : Yields P y) :
    Settles s P (y.mapError .linear) := by
  cases y with
  | error e => exact .linear e
  | ok a => exact .ok (h a rfl)

end Settles

/-- The computation does what an operation of this kind does. -/
def Obeys (s : Store) (kind? : Option ResultKind) (x : Except SessionError Outcome) : Prop :=
  match kind? with
  | some kind => Settles s (fun o => o.result.kind = kind) x
  | none => Fails x

/-! ## Names -/

theorem isUpper_iff {c : Char} : c.isUpper = true ↔ 'A'.toNat ≤ c.toNat ∧ c.toNat ≤ 'Z'.toNat := by
  change decide (c.val ≥ 'A'.val ∧ c.val ≤ 'Z'.val) = true ↔ _
  simp [UInt32.le_iff_toNat_le, ← Char.toNat_val]

theorem isLower_iff {c : Char} : c.isLower = true ↔ 'a'.toNat ≤ c.toNat ∧ c.toNat ≤ 'z'.toNat := by
  change (decide (c.val ≥ 'a'.val) && decide (c.val ≤ 'z'.val)) = true ↔ _
  simp [UInt32.le_iff_toNat_le, ← Char.toNat_val]

/-- The kind that the look-up of a name starts with is the one that its case shows. -/
theorem Kind.map_fst_ofName? (name : String) :
    (Kind.ofName? name).map Prod.fst = Kind.ofCase? name := by
  unfold Kind.ofName? Kind.ofCase?
  cases name.toList with
  | nil => rfl
  | cons c rest =>
    cases rest with
    | cons d rest => rfl
    | nil =>
      simp only [Kind.ofLetter?, isUpper_iff, isLower_iff]
      split_ifs <;> rfl

theorem Kind.ofCase?_eq_some_iff {name : String} {kind : Kind} :
    Kind.ofCase? name = some kind ↔ ∃ i, name = kind.nameAt i := by
  simp_rw [← Kind.map_fst_ofName?, Option.map_eq_some_iff, ← Kind.ofName?_eq_some_iff]
  constructor
  · rintro ⟨⟨_, i⟩, hname, rfl⟩
    exact ⟨i, hname⟩
  · rintro ⟨i, hname⟩
    exact ⟨(kind, i), hname, rfl⟩

theorem kindOf_of_ofCase? {name : String} {kind : Kind} (h : Kind.ofCase? name = some kind) :
    kindOf name = .ok kind := by
  obtain ⟨i, hname⟩ := Kind.ofCase?_eq_some_iff.mp h
  rw [kindOf, Kind.ofName?_eq_some_iff.mpr hname]

theorem fails_kindOf {name : String} (h : Kind.ofCase? name = none) : Fails (kindOf name) := by
  rw [← Kind.map_fst_ofName?, Option.map_eq_none_iff] at h
  exact ⟨.invalidName name, by rw [kindOf, h]⟩

theorem fails_checkName {name : String} {kind : Kind} (h : Kind.ofCase? name ≠ some kind) :
    Fails (checkName kind name) := by
  cases hcheck : checkName kind name with
  | error e => exact ⟨e, rfl⟩
  | ok i => exact absurd (Kind.ofCase?_eq_some_iff.mpr ⟨i, checkName_eq_ok_iff.mp hcheck⟩) h

namespace Store

variable {s : Store} {name left right : String}

theorem settles_namedMatrix (h : Kind.ofCase? name = some .matrix) :
    Settles s (fun _ => True) (s.namedMatrix name) := by
  obtain ⟨i, rfl⟩ := Kind.ofCase?_eq_some_iff.mp h
  rw [namedMatrix, checkName_eq_ok_iff.mpr rfl]
  dsimp only
  cases hslot : s.matrixAt i with
  | some m => exact .ok trivial
  | none => exact .unknownName (by rw [find?_matrix_nameAt, hslot]; rfl)

theorem settles_namedVector (h : Kind.ofCase? name = some .vector) :
    Settles s (fun _ => True) (s.namedVector name) := by
  obtain ⟨i, rfl⟩ := Kind.ofCase?_eq_some_iff.mp h
  rw [namedVector, checkName_eq_ok_iff.mpr rfl]
  dsimp only
  cases hslot : s.vectorAt i with
  | some v => exact .ok trivial
  | none => exact .unknownName (by rw [find?_vector_nameAt, hslot]; rfl)

theorem fails_namedMatrix (h : Kind.ofCase? name ≠ some .matrix) : Fails (s.namedMatrix name) := by
  obtain ⟨e, he⟩ := fails_checkName h
  exact ⟨.badName e, by rw [namedMatrix, he]⟩

theorem fails_namedVector (h : Kind.ofCase? name ≠ some .vector) : Fails (s.namedVector name) := by
  obtain ⟨e, he⟩ := fails_checkName h
  exact ⟨.badName e, by rw [namedVector, he]⟩

/-- A value can be bound to the names whose case shows its kind. -/
theorem exists_insert_iff {value : Stored} :
    (∃ t, s.insert name value = .ok t) ↔ Kind.ofCase? name = some value.kind := by
  rw [Kind.ofCase?_eq_some_iff]
  simp_rw [insert_eq_ok_iff]
  cases value with
  | matrix m => simp [Stored.kind]
  | vector v => simp [Stored.kind]

end Store

/-! ## Worked operations -/

/-- Whatever the computation results in is of the kind. -/
def Gives (kind : ResultKind) (x : Except LinearError Outcome) : Prop :=
  Yields (fun o => o.result.kind = kind) x

namespace Worked

theorem gives_combineMatrices (sign : String)
    (f : RatMatrix → RatMatrix → Except LinearError RatMatrix) (a b : Named RatMatrix) :
    Gives .matrix (combineMatrices sign f a b) :=
  (Yields.trivial _).bind fun _ _ => .ok rfl

theorem gives_combineVectors (sign : String)
    (f : RatVector → RatVector → Except LinearError RatVector) (u v : Named RatVector) :
    Gives .vector (combineVectors sign f u v) :=
  (Yields.trivial _).bind fun _ _ => .ok rfl

theorem gives_multiplyMatrices (a b : Named RatMatrix) : Gives .matrix (multiplyMatrices a b) :=
  (Yields.trivial _).bind fun _ _ => .ok rfl

theorem gives_applyMatrix (a : Named RatMatrix) (v : Named RatVector) :
    Gives .vector (applyMatrix a v) :=
  (Yields.trivial _).bind fun _ _ => .ok rfl

theorem gives_dot (u v : Named RatVector) : Gives .scalar (dot u v) :=
  (Yields.trivial _).bind fun _ _ => .ok rfl

theorem gives_determinant (a : Named RatMatrix) : Gives .scalar (determinant a) :=
  (Yields.trivial _).bind fun _ _ => (Yields.trivial _).bind fun _ _ => .ok rfl

theorem gives_invert (a : Named RatMatrix) : Gives .matrix (invert a) :=
  (Yields.trivial _).bind fun _ _ => .ok rfl

theorem gives_adjugate (a : Named RatMatrix) : Gives .matrix (adjugate a) :=
  (Yields.trivial _).bind fun _ _ => .ok rfl

theorem gives_solve (a : Named RatMatrix) : Gives .solution (solve a) :=
  (Yields.trivial _).bind fun _ _ => .ok rfl

theorem gives_cramer (a : Named RatMatrix) : Gives .solution (cramer a) :=
  (Yields.trivial _).bind fun _ _ => .ok rfl

theorem gives_cross (operands : List (Named RatVector)) : Gives .vector (cross operands) := by
  unfold cross
  split
  · exact .error _
  · exact (Yields.trivial _).bind fun _ _ => .ok rfl

end Worked

/-! ## The forms of an operation -/

namespace Store

variable {s : Store} {name left right : String}

theorem gives_solveSystem (preferCramer : Bool) (system : Named RatMatrix) :
    Gives .solution (solveSystem preferCramer system) := by
  unfold solveSystem
  dsimp only
  split_ifs
  · split
    · exact Worked.gives_solve system
    · exact Worked.gives_cramer system
  · exact Worked.gives_solve system

theorem obeys_evaluateShow (s : Store) (name : String) :
    Obeys s ((Kind.ofCase? name).map Kind.shown) (s.evaluateShow name) := by
  cases hkind : Kind.ofCase? name with
  | none => exact ((fails_kindOf hkind).mapError _).bind _
  | some kind =>
    rw [evaluateShow, kindOf_of_ofCase? hkind]
    cases kind with
    | matrix => exact (settles_namedMatrix hkind).bind fun _ _ => .ok rfl
    | vector => exact (settles_namedVector hkind).bind fun _ _ => .ok rfl

theorem obeys_evaluateScaled (s : Store) (k : Rat) (name : String) :
    Obeys s ((Kind.ofCase? name).map Kind.shown) (s.evaluateScaled k name) := by
  cases hkind : Kind.ofCase? name with
  | none => exact ((fails_kindOf hkind).mapError _).bind _
  | some kind =>
    rw [evaluateScaled, kindOf_of_ofCase? hkind]
    cases kind with
    | matrix => exact (settles_namedMatrix hkind).bind fun _ _ => .ok rfl
    | vector => exact (settles_namedVector hkind).bind fun _ _ => .ok rfl

theorem settles_onMatrices {kind : ResultKind}
    {f : Named RatMatrix → Named RatMatrix → Except LinearError Outcome}
    (hl : Kind.ofCase? left = some .matrix) (hr : Kind.ofCase? right = some .matrix)
    (hf : ∀ a b, Gives kind (f a b)) :
    Settles s (fun o => o.result.kind = kind) (s.onMatrices left right f) :=
  (settles_namedMatrix hl).bind fun a _ =>
    (settles_namedMatrix hr).bind fun b _ => .of_yields (hf a b)

theorem settles_onVectors {kind : ResultKind}
    {f : Named RatVector → Named RatVector → Except LinearError Outcome}
    (hl : Kind.ofCase? left = some .vector) (hr : Kind.ofCase? right = some .vector)
    (hf : ∀ u v, Gives kind (f u v)) :
    Settles s (fun o => o.result.kind = kind) (s.onVectors left right f) :=
  (settles_namedVector hl).bind fun u _ =>
    (settles_namedVector hr).bind fun v _ => .of_yields (hf u v)

theorem settles_onMatrixAndVector (hl : Kind.ofCase? left = some .matrix)
    (hr : Kind.ofCase? right = some .vector) :
    Settles s (fun o => o.result.kind = .vector) (s.onMatrixAndVector left right) :=
  (settles_namedMatrix hl).bind fun a _ =>
    (settles_namedVector hr).bind fun v _ => .of_yields (Worked.gives_applyMatrix a v)

theorem obeys_evaluateBinary (s : Store) (op : BinaryOp) (left right : String) :
    Obeys s (Operation.binary op left right).kind? (s.evaluateBinary op left right) := by
  rw [Operation.kind?]
  cases hl : Kind.ofCase? left with
  | none => exact ((fails_kindOf hl).mapError _).bind _
  | some l =>
    cases hr : Kind.ofCase? right with
    | none => exact Fails.bind_right _ fun _ _ => ((fails_kindOf hr).mapError _).bind _
    | some r =>
      rw [evaluateBinary, kindOf_of_ofCase? hl, kindOf_of_ofCase? hr]
      -- the rows of the table of operators, for the kinds of the operands
      cases l with
      | matrix =>
        cases r with
        | matrix =>
          cases op with
          | plus => exact settles_onMatrices hl hr (Worked.gives_combineMatrices _ _)
          | minus => exact settles_onMatrices hl hr (Worked.gives_combineMatrices _ _)
          | times => exact settles_onMatrices hl hr Worked.gives_multiplyMatrices
          | dot => exact settles_onMatrices hl hr Worked.gives_multiplyMatrices
        | vector =>
          cases op with
          | plus => exact ⟨_, rfl⟩
          | minus => exact ⟨_, rfl⟩
          | times => exact settles_onMatrixAndVector hl hr
          | dot => exact settles_onMatrixAndVector hl hr
      | vector =>
        cases r with
        | matrix => cases op <;> exact ⟨_, rfl⟩
        | vector =>
          cases op with
          | plus => exact settles_onVectors hl hr (Worked.gives_combineVectors _ _)
          | minus => exact settles_onVectors hl hr (Worked.gives_combineVectors _ _)
          | times => exact ⟨_, rfl⟩
          | dot => exact settles_onVectors hl hr Worked.gives_dot

/-! ## Calls -/

section Calls

variable {args : List String} {kind : Kind}

theorem settles_singleArgument {P : β → Prop} {f : String → Except SessionError β}
    (function : Builtin) (hargs : args.map Kind.ofCase? = [some kind])
    (hf : ∀ name, Kind.ofCase? name = some kind → Settles s P (f name)) :
    Settles s P (singleArgument function args >>= f) := by
  obtain ⟨name, rfl, hname⟩ := List.map_eq_singleton_iff.mp hargs
  exact hf name hname

theorem fails_singleArgument {f : String → Except SessionError β} (function : Builtin)
    (hargs : args.map Kind.ofCase? ≠ [some kind])
    (hf : ∀ name, Kind.ofCase? name ≠ some kind → Fails (f name)) :
    Fails (singleArgument function args >>= f) := by
  match args with
  | [] => exact ⟨_, rfl⟩
  | [name] => exact hf name (by simpa using hargs)
  | _ :: _ :: _ => exact ⟨_, rfl⟩

theorem obeys_onMatrix (s : Store) (function : Builtin) (args : List String) {kind : ResultKind}
    {f : Named RatMatrix → Except LinearError Outcome} (hf : ∀ a, Gives kind (f a)) :
    Obeys s (if args.map Kind.ofCase? = [some .matrix] then some kind else none)
      (s.onMatrix function args f) := by
  split_ifs with hargs
  · exact settles_singleArgument function hargs fun name hname =>
      (settles_namedMatrix hname).bind fun a _ => .of_yields (hf a)
  · exact fails_singleArgument function hargs fun name hname => (fails_namedMatrix hname).bind _

theorem obeys_evaluateCall (s : Store) (preferCramer : Bool) (function : Builtin)
    (args : List String) :
    Obeys s (Operation.call function args).kind? (s.evaluateCall preferCramer function args) := by
  cases function with
  | det => exact obeys_onMatrix s .det args Worked.gives_determinant
  | inverse => exact obeys_onMatrix s .inverse args Worked.gives_invert
  | transpose => exact obeys_onMatrix s .transpose args fun _ => .ok rfl
  | adjugate => exact obeys_onMatrix s .adjugate args Worked.gives_adjugate
  | rref => exact obeys_onMatrix s .rref args fun _ => .ok rfl
  | solve => exact obeys_onMatrix s .solve args (gives_solveSystem preferCramer)
  | cramer => exact obeys_onMatrix s .cramer args Worked.gives_cramer
  | norm2 =>
    rw [Operation.kind?, Builtin.kind?]
    split_ifs with hargs
    · exact settles_singleArgument .norm2 hargs fun name hname =>
        (settles_namedVector hname).bind fun _ _ => .ok rfl
    · exact fails_singleArgument .norm2 hargs fun name hname => (fails_namedVector hname).bind _
  | cross =>
    rw [Operation.kind?, Builtin.kind?]
    split_ifs with hargs
    · have hnames : ∀ name ∈ args, Settles s (fun _ => True) (s.namedVector name) :=
        fun name hname => settles_namedVector (hargs.2 _ (List.mem_map_of_mem hname))
      exact (Settles.mapM hnames).bind fun operands _ => .of_yields (Worked.gives_cross operands)
    · -- the engine refuses to work on no operands at all
      obtain rfl | hne := eq_or_ne args []
      · exact ⟨_, rfl⟩
      · have hother : ∃ name ∈ args, Kind.ofCase? name ≠ some .vector := by
          simpa [hne] using hargs
        obtain ⟨name, hname, hkind⟩ := hother
        exact (Fails.mapM ⟨name, hname, fails_namedVector hkind⟩).bind _

end Calls

/-- An operation does what its kind says. -/
theorem obeys_evaluate (s : Store) (preferCramer : Bool) (operation : Operation) :
    Obeys s operation.kind? (s.evaluate preferCramer operation) := by
  cases operation with
  | binary op left right => exact obeys_evaluateBinary s op left right
  | scaled factor name => exact obeys_evaluateScaled s factor name
  | call function args => exact obeys_evaluateCall s preferCramer function args
  | «show» name => exact obeys_evaluateShow s name

end Store

/-! ## Binding a result -/

theorem Kind.map_shown_eq_iff {kind? : Option Kind} {kind : Kind} :
    kind?.map Kind.shown = some kind.shown ↔ kind? = some kind := by
  rcases kind? with - | - | - <;> cases kind <;> decide

/-- No name is for scalars or solutions. -/
theorem Kind.map_shown_ne {kind? : Option Kind} {kind : ResultKind} (hmatrix : kind ≠ .matrix)
    (hvector : kind ≠ .vector) : kind?.map Kind.shown ≠ some kind := by
  rcases kind? with - | - | - <;> simp_all [Kind.shown, eq_comm]

namespace Session

variable {s : Session} {name : String}

theorem exists_insert_bind_iff {value : Stored} {f : Session → β} :
    (∃ r, (s.insert name value >>= fun next => .ok (f next)) = .ok r) ↔
      Kind.ofCase? name = some value.kind := by
  rw [← Store.exists_insert_iff (s := s.store), insert]
  cases s.store.insert name value with
  | error e => exact iff_of_false (fun ⟨_, h⟩ => nomatch h) (fun ⟨_, h⟩ => nomatch h)
  | ok t => exact iff_of_true ⟨_, rfl⟩ ⟨_, rfl⟩

/-- A result can be bound to the names whose case shows its kind. -/
theorem exists_execute_bind_iff {operation : Operation} {o : Outcome}
    (ho : s.evaluate operation = .ok o) (name : String) :
    (∃ r, s.execute (.bind name operation) = .ok r) ↔
      (Kind.ofCase? name).map Kind.shown = some o.result.kind := by
  rw [execute, ho]
  obtain ⟨header, transcript, result⟩ := o
  cases result with
  | matrix m => exact exists_insert_bind_iff.trans Kind.map_shown_eq_iff.symm
  | vector v => exact exists_insert_bind_iff.trans Kind.map_shown_eq_iff.symm
  | scalar r =>
    exact iff_of_false (fun ⟨_, h⟩ => nomatch h) (Kind.map_shown_ne nofun nofun)
  | solution x =>
    exact iff_of_false (fun ⟨_, h⟩ => nomatch h) (Kind.map_shown_ne nofun nofun)

/-- **The kind of an operation says what becomes of it.** An operation with a kind results in a
value of this kind, unless a name stands for nothing or the engine refuses the operands; its result
can be bound exactly to the names whose case shows its kind. An operation without a kind fails. -/
theorem evaluate_kind (s : Session) (operation : Operation) :
    (∀ kind, operation.kind? = some kind →
      Settles s.store (fun o => o.result.kind = kind) (s.evaluate operation) ∧
      ∀ o, s.evaluate operation = .ok o → ∀ name,
        (∃ r, s.execute (.bind name operation) = .ok r) ↔
          (Kind.ofCase? name).map Kind.shown = some kind) ∧
    (operation.kind? = none → Fails (s.evaluate operation)) := by
  have hobeys := s.store.obeys_evaluate s.preferCramer operation
  refine ⟨fun kind hkind => ?_, fun hkind => by rwa [hkind] at hobeys⟩
  rw [hkind] at hobeys
  refine ⟨hobeys, fun o ho name => ?_⟩
  have hresult : o.result.kind = kind := by
    have hsettles : Settles s.store (fun o => o.result.kind = kind) (.ok o) := ho ▸ hobeys
    cases hsettles
    assumption
  rw [exists_execute_bind_iff ho, hresult]

/-- A session with a matrix and a vector. -/
def matrixAndVector : Session := (Session.empty.run "A = [[1, 2], [3, 4]]; v = (1, 1)").1

/-- A product that can be bound to a vector name and to no matrix name, and one that has no kind. -/
theorem evaluate_kind_of_product :
    (Operation.binary .times "A" "v").kind? = some .vector ∧
      Settles matrixAndVector.store (fun o => o.result.kind = .vector)
        (matrixAndVector.evaluate (.binary .times "A" "v")) ∧
      (∃ r, matrixAndVector.execute (.bind "w" (.binary .times "A" "v")) = .ok r) ∧
      (¬∃ r, matrixAndVector.execute (.bind "W" (.binary .times "A" "v")) = .ok r) ∧
      (Operation.binary .times "v" "A").kind? = none ∧
      Fails (matrixAndVector.evaluate (.binary .times "v" "A")) := by
  have hvalue : (matrixAndVector.evaluate (.binary .times "A" "v")).map Outcome.result =
      .ok (.vector ⟨[3, 7]⟩) := by decide +kernel
  obtain ⟨o, ho, -⟩ := map_eq_ok_iff.mp hvalue
  have hkind : (Operation.binary .times "A" "v").kind? = some .vector := by decide
  have hnone : (Operation.binary .times "v" "A").kind? = none := by decide
  obtain ⟨hsettles, hbind⟩ := (evaluate_kind matrixAndVector (.binary .times "A" "v")).1 _ hkind
  refine ⟨hkind, hsettles, (hbind o ho "w").mpr (by decide), fun h => ?_, hnone, ?_⟩
  · exact absurd ((hbind o ho "W").mp h) (by decide)
  · exact (evaluate_kind matrixAndVector (.binary .times "v" "A")).2 hnone

end Session

end ExactLinear
