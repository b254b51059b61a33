import ExactLinear.Proofs.CheckedElimination
import ExactLinear.Proofs.EngineFailures
import ExactLinear.Proofs.Kinds
import ExactLinear.Proofs.ParseTrees
import ExactLinear.Proofs.ReachableStores
import ExactLinear.Proofs.ReadingFailures

/-!
# Failures that no text can cause

Some failures tell of a mistake in the program and not of one in its input: a name that is no
letter, a literal that is malformed although the grammar has accepted it, a row or a column that
does not exist, a division by a pivot that is zero, a tree without the child that its rule promises.
`Session.internal_failures_unreachable` says that no text makes a session fail with any of them, as
long as its stored values are well-formed.

A text cannot write a name that is no letter (`isName_of_readProgram`), and with such names each
form of an operation fails only as the engine does on well-formed operands or for a reason that its
statement gives (`Store.failsOnly_evaluate`). A run has the failure of one of its statements, and
the store before that statement is well-formed (`Session.failsOnly_executeAll`).
-/

namespace ExactLinear

open LinearError (OfOperands)

/-! ## Letters -/

/-- The text is a name. -/
def IsName (name : String) : Prop := ∃ kind i, Kind.ofName? name = some (kind, i)

theorem isName_toString {c : Char} (h : c.isAlpha = true) : IsName c.toString := by
  have hletter : Kind.ofName? c.toString = Kind.ofLetter? c := by
    rw [Kind.ofName?, Char.toString, String.toList_singleton]
  rw [IsName, hletter, Kind.ofLetter?]
  have hcase : (c.isUpper || c.isLower) = true := h
  rw [Bool.or_eq_true, isUpper_iff, isLower_iff] at hcase
  split_ifs with hupper hlower
  · exact ⟨_, _, rfl⟩
  · exact ⟨_, _, rfl⟩
  · exact absurd hcase (not_or.mpr ⟨hupper, hlower⟩)

/-- The names in an operation. -/
def Operation.names : Operation → List String
  | .binary _ left right => [left, right]
  | .scaled _ name => [name]
  | .call _ args => args
  | .show name => [name]

/-- The names in a statement. -/
def Statement.names : Statement → List String
  | .list => []
  | .define name _ => [name]
  | .bind name operation => name :: operation.names
  | .run operation => operation.names

namespace Command

theorem isName_of_toOperation {clause : Clause} (h : clause.WellFormed) :
    Yields (fun operation => ∀ name ∈ operation.names, IsName name) clause.toOperation := by
  cases clause with
  | binary op left right =>
    refine .ok (List.forall_mem_cons.mpr ⟨isName_toString h.1, ?_⟩)
    exact List.forall_mem_singleton.mpr (isName_toString h.2)
  | scaled factor name =>
    exact (Yields.trivial _).bind fun _ _ =>
      .ok (List.forall_mem_singleton.mpr (isName_toString h.2))
  | «show» name => exact .ok (List.forall_mem_singleton.mpr (isName_toString h))
  | call function args =>
    rw [Clause.toOperation]
    split
    · exact .ok (List.forall_mem_map.mpr fun name hname => isName_toString (h name hname))
    · exact .error _

theorem isName_of_toStatement {phrase : Phrase} (h : phrase.WellFormed) :
    Yields (fun statement => ∀ name ∈ statement.names, IsName name) phrase.toStatement := by
  cases phrase with
  | list => exact .ok (List.forall_mem_nil _)
  | matrix name rows =>
    exact (Yields.trivial _).bind fun _ _ =>
      .ok (List.forall_mem_singleton.mpr (isName_toString h.1))
  | vector name numbers =>
    exact (Yields.trivial _).bind fun _ _ =>
      .ok (List.forall_mem_singleton.mpr (isName_toString h.1))
  | bind name clause =>
    exact (isName_of_toOperation h.2).bind fun _ hnames =>
      .ok (List.forall_mem_cons.mpr ⟨isName_toString h.1, hnames⟩)
  | run clause => exact (isName_of_toOperation h).bind fun _ hnames => .ok hnames

/-- Every name in a program is a letter. -/
theorem isName_of_readProgram (text : String) :
    Yields (fun statements => ∀ t ∈ statements, ∀ name ∈ t.names, IsName name)
      (readProgram text) := by
  unfold readProgram
  split
  · exact .error _
  · rename_i phrases hphrases
    exact .mapM fun phrase hphrase =>
      isName_of_toStatement (wellFormed_of_phrases? hphrases phrase hphrase)

end Command

/-! ## Causes -/

namespace SessionError

/-- What the engine says about the failure, if it is one of the engine. -/
def linear? : SessionError → Option LinearError
  | .program (.linear e) => some e
  | .linear e => some e
  | _ => none

/-- The cause lies with a statement, with what its names stand for or with its operands. -/
def OfStatement : SessionError → Prop
  | .program _ => False
  | .linear e => e.OfOperands
  | .badName (.invalidName _) => False
  | _ => True

end SessionError

open SessionError (OfStatement)

variable {β : Type} {s : Store} {name left right : String} {args : List String}

theorem failsOnly_kindOf (h : IsName name) :
    FailsOnly OfStatement ((kindOf name).mapError SessionError.badName) := by
  obtain ⟨kind, i, h⟩ := h
  rw [kindOf, h]
  exact .ok kind

theorem failsOnly_checkName (kind : Kind) (h : IsName name) :
    FailsOnly (fun e => OfStatement (.badName e)) (checkName kind name) := by
  obtain ⟨found, i, h⟩ := h
  rw [checkName, h]
  dsimp only
  split_ifs
  · exact .ok i
  · exact .error trivial

/-! ## Evaluation -/

namespace Store

theorem failsOnly_namedMatrix (h : IsName name) : FailsOnly OfStatement (s.namedMatrix name) := by
  have hcheck := failsOnly_checkName .matrix h
  unfold namedMatrix
  split
  · rename_i e he
    exact .error (hcheck e he)
  · split
    · exact .ok _
    · exact .error trivial

theorem failsOnly_namedVector (h : IsName name) : FailsOnly OfStatement (s.namedVector name) := by
  have hcheck := failsOnly_checkName .vector h
  unfold namedVector
  split
  · rename_i e he
    exact .error (hcheck e he)
  · split
    · exact .ok _
    · exact .error trivial

theorem failsOnly_evaluateShow (h : IsName name) : FailsOnly OfStatement (s.evaluateShow name) := by
  refine (failsOnly_kindOf h).bind fun kind _ => ?_
  cases kind with
  | matrix => exact (failsOnly_namedMatrix h).bind fun _ _ => .ok _
  | vector => exact (failsOnly_namedVector h).bind fun _ _ => .ok _

theorem failsOnly_evaluateScaled (k : ℚ) (h : IsName name) :
    FailsOnly OfStatement (s.evaluateScaled k name) := by
  refine (failsOnly_kindOf h).bind fun kind _ => ?_
  cases kind with
  | matrix => exact (failsOnly_namedMatrix h).bind fun _ _ => .ok _
  | vector => exact (failsOnly_namedVector h).bind fun _ _ => .ok _

theorem failsOnly_onMatrices (hl : IsName left) (hr : IsName right)
    {f : Named RatMatrix → Named RatMatrix → Except LinearError Outcome}
    (hf : ∀ a b, FailsOnly OfOperands (f a b)) :
    FailsOnly OfStatement (s.onMatrices left right f) :=
  (failsOnly_namedMatrix hl).bind fun a _ => (failsOnly_namedMatrix hr).bind fun b _ =>
    .mapError (hf a b)

theorem failsOnly_onVectors (hl : IsName left) (hr : IsName right)
    {f : Named RatVector → Named RatVector → Except LinearError Outcome}
    (hf : ∀ u v, FailsOnly OfOperands (f u v)) :
    FailsOnly OfStatement (s.onVectors left right f) :=
  (failsOnly_namedVector hl).bind fun u _ => (failsOnly_namedVector hr).bind fun v _ =>
    .mapError (hf u v)

theorem failsOnly_onMatrixAndVector (hl : IsName left) (hr : IsName right) :
    FailsOnly OfStatement (s.onMatrixAndVector left right) :=
  (failsOnly_namedMatrix hl).bind fun a _ => (failsOnly_namedVector hr).bind fun v _ =>
    .mapError (Worked.failsOnly_applyMatrix a v)

theorem failsOnly_evaluateBinary (op : BinaryOp) (hl : IsName left) (hr : IsName right) :
    FailsOnly OfStatement (s.evaluateBinary op left right) := by
  refine (failsOnly_kindOf hl).bind fun l _ => (failsOnly_kindOf hr).bind fun r _ => ?_
  split
  · exact failsOnly_onMatrices hl hr fun a b =>
      Worked.failsOnly_combineMatrices "+" (RatMatrix.failsOnly_zipWith _ _ _)
  · exact failsOnly_onMatrices hl hr fun a b =>
      Worked.failsOnly_combineMatrices "-" (RatMatrix.failsOnly_zipWith _ _ _)
  · exact failsOnly_onMatrices hl hr Worked.failsOnly_multiplyMatrices
  · exact failsOnly_onMatrices hl hr Worked.failsOnly_multiplyMatrices
  · exact failsOnly_onMatrixAndVector hl hr
  · exact failsOnly_onMatrixAndVector hl hr
  · exact failsOnly_onVectors hl hr fun u v =>
      Worked.failsOnly_combineVectors "+" (RatVector.failsOnly_zipWith _ _ _)
  · exact failsOnly_onVectors hl hr fun u v =>
      Worked.failsOnly_combineVectors "-" (RatVector.failsOnly_zipWith _ _ _)
  · exact failsOnly_onVectors hl hr Worked.failsOnly_dot
  · exact .error trivial
  · exact .error trivial

theorem failsOnly_solveSystem (preferCramer : Bool) {a : Named RatMatrix}
    (ha : a.value.WellFormed) : FailsOnly OfOperands (solveSystem preferCramer a) := by
  unfold solveSystem
  dsimp only
  split_ifs
  · split
    · exact Worked.failsOnly_solve a
    · exact Worked.failsOnly_cramer ha
  · exact Worked.failsOnly_solve a

theorem failsOnly_singleArgument (function : Builtin) (hargs : ∀ name ∈ args, IsName name)
    {f : String → Except SessionError β}
    (hf : ∀ name, IsName name → FailsOnly OfStatement (f name)) :
    FailsOnly OfStatement (singleArgument function args >>= f) := by
  match args with
  | [] => exact .error trivial
  | [name] => exact hf name (hargs name List.mem_cons_self)
  | _ :: _ :: _ => exact .error trivial

theorem failsOnly_onMatrix (hs : s.WellFormed) (function : Builtin)
    (hargs : ∀ name ∈ args, IsName name) {f : Named RatMatrix → Except LinearError Outcome}
    (hf : ∀ a : Named RatMatrix, a.value.WellFormed → FailsOnly OfOperands (f a)) :
    FailsOnly OfStatement (s.onMatrix function args f) :=
  failsOnly_singleArgument function hargs fun name hname =>
    (failsOnly_namedMatrix hname).bind fun a ha => .mapError (hf a (hs.namedMatrix name a ha))

theorem failsOnly_evaluateCall (hs : s.WellFormed) (preferCramer : Bool) (function : Builtin)
    (hargs : ∀ name ∈ args, IsName name) :
    FailsOnly OfStatement (s.evaluateCall preferCramer function args) := by
  cases function with
  | det => exact failsOnly_onMatrix hs _ hargs fun a _ => Worked.failsOnly_determinant a
  | inverse => exact failsOnly_onMatrix hs _ hargs fun _ => Worked.failsOnly_invert
  | transpose => exact failsOnly_onMatrix hs _ hargs fun _ _ => .ok _
  | adjugate => exact failsOnly_onMatrix hs _ hargs fun _ => Worked.failsOnly_adjugate
  | rref => exact failsOnly_onMatrix hs _ hargs fun _ _ => .ok _
  | solve => exact failsOnly_onMatrix hs _ hargs fun _ => failsOnly_solveSystem preferCramer
  | cramer => exact failsOnly_onMatrix hs _ hargs fun _ => Worked.failsOnly_cramer
  | cross =>
    exact (FailsOnly.mapM fun name hname => failsOnly_namedVector (hargs name hname)).bind
      fun operands _ => .mapError (Worked.failsOnly_cross operands)
  | norm2 =>
    exact failsOnly_singleArgument _ hargs fun name hname =>
      (failsOnly_namedVector hname).bind fun _ _ => .ok _

/-- An operation on letters fails for a reason that its statement gives. -/
theorem failsOnly_evaluate (hs : s.WellFormed) (preferCramer : Bool) {operation : Operation}
    (hnames : ∀ name ∈ operation.names, IsName name) :
    FailsOnly OfStatement (s.evaluate preferCramer operation) := by
  cases operation with
  | binary op left right =>
    obtain ⟨hl, hr⟩ := List.forall_mem_cons.mp hnames
    exact failsOnly_evaluateBinary op hl (List.forall_mem_singleton.mp hr)
  | scaled factor name =>
    exact failsOnly_evaluateScaled factor (List.forall_mem_singleton.mp hnames)
  | call function args => exact failsOnly_evaluateCall hs preferCramer function hnames
  | «show» name => exact failsOnly_evaluateShow (List.forall_mem_singleton.mp hnames)

theorem failsOnly_insert (value : Stored) (h : IsName name) :
    FailsOnly (fun e => OfStatement (.badName e)) (s.insert name value) := by
  cases value with
  | matrix m => exact (failsOnly_checkName .matrix h).bind fun _ _ => .ok _
  | vector v => exact (failsOnly_checkName .vector h).bind fun _ _ => .ok _

end Store

/-! ## Statements and runs -/

namespace Session

variable {s : Session}

theorem failsOnly_insert (value : Stored) (h : IsName name) :
    FailsOnly OfStatement (s.insert name value) :=
  (FailsOnly.mapError (Store.failsOnly_insert value h)).bind fun _ _ => .ok _

theorem failsOnly_execute (hs : s.store.WellFormed) {statement : Statement}
    (hnames : ∀ name ∈ statement.names, IsName name) :
    FailsOnly OfStatement (s.execute statement) := by
  cases statement with
  | list => exact .ok _
  | define name value =>
    exact (failsOnly_insert value (List.forall_mem_singleton.mp hnames)).bind fun _ _ => .ok _
  | run operation =>
    exact (Store.failsOnly_evaluate hs s.preferCramer hnames).bind fun _ _ => .ok _
  | bind name operation =>
    obtain ⟨hname, hnames⟩ := List.forall_mem_cons.mp hnames
    refine (Store.failsOnly_evaluate hs s.preferCramer hnames).bind fun o _ => ?_
    cases o.result.stored? with
    | none => exact .error trivial
    | some value => exact (failsOnly_insert value hname).bind fun _ _ => .ok _

/-- A run fails as one of its statements does in a session that is still well-formed. -/
theorem failsOnly_executeAll (hs : s.store.WellFormed) {statements : List Statement}
    (hwf : ∀ t ∈ statements, t.WellFormed)
    (hnames : ∀ t ∈ statements, ∀ name ∈ t.names, IsName name) :
    FailsOnly OfStatement (s.executeAll statements).2 := by
  intro e he
  have hrun : s.executeAll statements = ((s.executeAll statements).1, .error e) := Prod.ext rfl he
  obtain ⟨done, failing, rest, responses, rfl, hdone, hfails⟩ := executeAll_eq_error_iff.mp hrun
  have hstore := wellFormed_executeAll hs fun t ht => hwf t (List.mem_append_left _ ht)
  rw [hdone] at hstore
  exact failsOnly_execute hstore (hnames failing (by simp)) e hfails

theorem failsOnly_summarize (responses : List Response) :
    FailsOnly OfStatement (summarize responses) := by
  unfold summarize
  split
  · exact .error trivial
  · exact .ok _

/-- What a run fails with is either what reading the text fails with, or one of its statements gives
the reason. -/
theorem failsOnly_run (hs : s.store.WellFormed) (text : String) :
    FailsOnly (fun e => OfStatement e ∨ ∃ p, Command.readProgram text = .error p ∧ e = .program p)
      (s.run text).2 := by
  unfold run
  cases hread : Command.readProgram text with
  | error p => exact .error (.inr ⟨p, rfl, rfl⟩)
  | ok statements =>
    have hstatements := failsOnly_executeAll hs (Command.yields_readProgram text _ hread)
      (Command.isName_of_readProgram text _ hread)
    exact (hstatements.bind fun responses _ => failsOnly_summarize responses).mono
      fun _ => .inl

/-- An engine failure of a run that does not come from the operands comes from reading the text. -/
theorem readProgram_eq_of_run {text : String} (hs : s.store.WellFormed) {e : SessionError}
    (he : (s.run text).2 = .error e) {l : LinearError} (hl : e.linear? = some l)
    (hnot : ¬l.OfOperands) : Command.readProgram text = .error (.linear l) := by
  obtain hcause | ⟨p, hread, rfl⟩ := failsOnly_run hs text e he
  · cases e with
    | program p => exact hcause.elim
    | linear l' =>
      cases hl
      exact absurd hcause hnot
    | _ => cases hl
  · cases p with
    | linear l' =>
      cases hl
      exact hread
    | _ => cases hl

/-- **No text causes an internal failure.** A text is refused only if it does not follow the
grammar, or for a denominator that is zero, a ragged matrix, rows that do not agree on the bar or a
function that does not exist; its statements can be made of any tree that the grammar gives for it,
with no further failure. A run on well-formed values never fails for a name that is no letter, a
malformed literal or a missing row or column, and for a division by zero only if the text has one.
Nor would the engine fail if it made all its checks. -/
theorem internal_failures_unreachable (s : Session) (hs : s.store.WellFormed) (text : String) :
    FailsOnly (Command.Unreadable text) (Command.readProgram text) ∧
      (∀ phrases, Command.phrases? text = some phrases →
        (∃ trees, Command.IsProgramTree phrases trees) ∧
          ∀ trees, Command.IsProgramTree phrases trees →
            Command.programOf trees = (Command.readProgram text).mapError .program) ∧
      (∀ e, (s.run text).2 = .error e →
        (∀ name, e ≠ .badName (.invalidName name)) ∧
          (∀ literal, e.linear? ≠ some (.malformedLiteral literal)) ∧
          (∀ row col shape, e.linear? ≠ some (.indexOutOfRange row col shape)) ∧
          (e.linear? = some .divisionByZero →
            Command.readProgram text = .error (.linear .divisionByZero))) ∧
      (∀ m : RatMatrix, m.WellFormed → Checked.Agrees m) ∧
        ∀ v others, Checked.cross v others = RatVector.cross v others := by
  have hreading := Command.unreadable_of_readProgram text
  refine ⟨hreading, fun phrases hphrases => ?_, fun e he => ⟨?_, ?_, ?_, fun hl => ?_⟩,
    fun _ => Checked.agrees, Checked.cross_eq⟩
  · exact ⟨Command.exists_isProgramTree hphrases, fun _ => Command.programOf_eq hphrases⟩
  · rintro name rfl
    obtain hcause | ⟨p, -, hp⟩ := failsOnly_run hs text _ he
    · exact hcause
    · cases hp
  · intro literal hl
    obtain - | ⟨-, -, hfault⟩ := hreading _ (readProgram_eq_of_run hs he hl id)
    cases hfault
  · intro row col shape hl
    obtain - | ⟨-, -, hfault⟩ := hreading _ (readProgram_eq_of_run hs he hl id)
    cases hfault
  · exact readProgram_eq_of_run hs he hl id

/-- A session with a matrix. -/
def oneMatrix : Session := (Session.empty.run "A = [[0, 1], [2, 0]]").1

/-- An inverse and a matrix with a denominator that is zero. -/
def zeroDenominator : String := "B = inverse(A); C = [[1, 1/0]]"

/-- A denominator that is zero is found when the text is read, and by the trees as well. -/
theorem internal_failures_unreachable_of_zeroDenominator :
    oneMatrix.store.WellFormed ∧
      (oneMatrix.run zeroDenominator).2 = .error (.program (.linear .divisionByZero)) ∧
      Command.readProgram zeroDenominator = .error (.linear .divisionByZero) ∧
      ∃ phrases trees, Command.phrases? zeroDenominator = some phrases ∧
        Command.IsProgramTree phrases trees ∧
        Command.programOf trees = .error (.program (.linear .divisionByZero)) := by
  have hs : oneMatrix.store.WellFormed := wellFormed_run Store.wellFormed_empty _
  have hrun : (oneMatrix.run zeroDenominator).2 = .error (.program (.linear .divisionByZero)) := by
    decide +kernel
  have haccepts : (Command.phrases? zeroDenominator).isSome = true := by decide +kernel
  obtain ⟨-, htrees, hfailure, -⟩ := internal_failures_unreachable oneMatrix hs zeroDenominator
  obtain ⟨-, -, -, hzero⟩ := hfailure _ hrun
  have hread := hzero rfl
  obtain ⟨phrases, hphrases⟩ := Option.isSome_iff_exists.mp haccepts
  obtain ⟨⟨trees, htree⟩, hprogram⟩ := htrees phrases hphrases
  refine ⟨hs, hrun, hread, phrases, trees, hphrases, htree, ?_⟩
  rw [hprogram trees htree, hread]
  rfl

end Session

end ExactLinear
