import ExactLinear.Proofs.Computation
import ExactLinear.Proofs.Names
import ExactLinear.Session.Basic

/-!
# What a run does to the store

A statement that defines or binds a name has that name as its target; no other statement changes
the store. `Session.yields_execute` says all that one statement can do when it succeeds, and
`Session.executeAll_append` cuts a run in two, so that what holds of a run follows from what holds
of its statements. A run that fails ends with the session before the statement that failed.
-/

namespace ExactLinear

/-- The name that a statement binds, if it binds one. -/
def Statement.target? : Statement → Option String
  | .define name _ => some name
  | .bind name _ => some name
  | _ => none

/-- The names that statements bind, in order and with repetitions. -/
def Statement.targets (statements : List Statement) : List String :=
  statements.filterMap Statement.target?

namespace Session

variable {s last next : Session} {name : String}

/-! ## One statement -/

/-- The value that a statement binds to its target when it is executed in a session. -/
def boundValue? (s : Session) : Statement → Option Stored
  | .define _ value => some value
  | .bind _ operation => (s.evaluate operation).toOption.bind (·.result.stored?)
  | _ => none

/-- What a statement that succeeds has done: it reports its target, leaves the session as it is if
it has none, and otherwise has bound the target to one value. -/
def Effect (s : Session) (statement : Statement) (r : Session × Response) : Prop :=
  r.2.bound = statement.target?.toList ∧
    (statement.target? = none ∧ r.1 = s ∨
      ∃ name value, statement.target? = some name ∧ s.boundValue? statement = some value ∧
        s.store.insert name value = .ok r.1.store)

theorem yields_insert (s : Session) (name : String) (value : Stored) :
    Yields (fun next => s.store.insert name value = .ok next.store) (s.insert name value) :=
  (Yields.self (s.store.insert name value)).mapError.bind fun _ h => .ok h

theorem yields_execute (s : Session) (statement : Statement) :
    Yields (s.Effect statement) (s.execute statement) := by
  cases statement with
  | list => exact .ok ⟨rfl, .inl ⟨rfl, rfl⟩⟩
  | define name value =>
    exact (yields_insert s name value).bind fun next hnext =>
      .ok ⟨rfl, .inr ⟨name, value, rfl, rfl, hnext⟩⟩
  | run operation => exact (Yields.trivial _).bind fun _ _ => .ok ⟨rfl, .inl ⟨rfl, rfl⟩⟩
  | bind name operation =>
    refine (Yields.self (s.evaluate operation)).bind fun o ho => ?_
    cases hvalue : o.result.stored? with
    | none => exact .error _
    | some value =>
      refine (yields_insert s name value).bind fun next hnext =>
        .ok ⟨rfl, .inr ⟨name, value, rfl, ?_, hnext⟩⟩
      rw [boundValue?, ho]
      exact hvalue

/-! ## A run -/

theorem executeAll_cons_of_error {statement : Statement} {e : SessionError}
    (h : s.execute statement = .error e) (statements : List Statement) :
    s.executeAll (statement :: statements) = (s, .error e) := by
  rw [executeAll, h]

theorem executeAll_cons_of_ok {statement : Statement} {response : Response}
    (h : s.execute statement = .ok (next, response)) (statements : List Statement) :
    s.executeAll (statement :: statements) =
      ((next.executeAll statements).1, (next.executeAll statements).2.map (response :: ·)) := by
  rw [executeAll, h]

/-- A run of two lists is the run of the first one, followed by that of the second one unless the
first one fails. -/
theorem executeAll_append (s : Session) (first second : List Statement) :
    s.executeAll (first ++ second) =
      match s.executeAll first with
      | (last, .error e) => (last, .error e)
      | (next, .ok responses) =>
        ((next.executeAll second).1, (next.executeAll second).2.map (responses ++ ·)) := by
  induction first generalizing s with
  | nil => exact Prod.ext rfl (congrFun Except.map_id _).symm
  | cons statement first ih =>
    rw [List.cons_append]
    cases hstep : s.execute statement with
    | error e => rw [executeAll_cons_of_error hstep, executeAll_cons_of_error hstep]
    | ok r =>
      obtain ⟨next, response⟩ := r
      rw [executeAll_cons_of_ok hstep, executeAll_cons_of_ok hstep, ih next]
      obtain ⟨last, e | responses⟩ := next.executeAll first
      · rfl
      · dsimp only [Except.map]
        cases (last.executeAll second).2 <;> rfl

/-- The statements before one that fails lead to the session `last`, where it fails. -/
def StopsAt (s : Session) (statements : List Statement) (last : Session) (e : SessionError) :
    Prop :=
  ∃ done failing rest responses, statements = done ++ failing :: rest ∧
    s.executeAll done = (last, .ok responses) ∧ last.execute failing = .error e

theorem StopsAt.cons {statement : Statement} {response : Response} {statements : List Statement}
    {e : SessionError} (hstep : s.execute statement = .ok (next, response))
    (h : next.StopsAt statements last e) : s.StopsAt (statement :: statements) last e := by
  obtain ⟨done, failing, rest, responses, rfl, hdone, hfails⟩ := h
  refine ⟨statement :: done, failing, rest, response :: responses, rfl, ?_, hfails⟩
  rw [executeAll_cons_of_ok hstep, hdone]
  rfl

/-- A run fails where a statement fails, and leaves the session as it was before that statement. -/
theorem executeAll_eq_error_iff {statements : List Statement} {e : SessionError} :
    s.executeAll statements = (last, .error e) ↔ s.StopsAt statements last e := by
  constructor
  · intro h
    induction statements generalizing s with
    | nil => cases h
    | cons statement statements ih =>
      cases hstep : s.execute statement with
      | error e' =>
        rw [executeAll_cons_of_error hstep] at h
        cases h
        exact ⟨[], statement, statements, [], rfl, rfl, hstep⟩
      | ok r =>
        obtain ⟨next, response⟩ := r
        rw [executeAll_cons_of_ok hstep] at h
        refine (ih (s := next) ?_).cons hstep
        rcases hrest : next.executeAll statements with ⟨last', e' | responses⟩
        · rw [hrest] at h
          cases h
          rfl
        · rw [hrest] at h
          cases h
  · rintro ⟨done, failing, rest, responses, rfl, hdone, hfails⟩
    rw [executeAll_append, hdone]
    dsimp only
    rw [executeAll_cons_of_error hfails]
    rfl

/-- The binding of a name that counts after a run: the last statement with that target binds the
name to the value, in the session in which it is executed. -/
def LastBinding (s : Session) (statements : List Statement) (name : String) (value : Stored) :
    Prop :=
  ∃ done statement rest, statements = done ++ statement :: rest ∧
    statement.target? = some name ∧ (∀ t ∈ rest, t.target? ≠ some name) ∧
    (s.executeAll done).1.boundValue? statement = some value

theorem LastBinding.cons {statement : Statement} {response : Response} {statements : List Statement}
    {value : Stored} (hstep : s.execute statement = .ok (next, response))
    (h : next.LastBinding statements name value) :
    s.LastBinding (statement :: statements) name value := by
  obtain ⟨done, t, rest, rfl, htarget, hrest, hvalue⟩ := h
  refine ⟨statement :: done, t, rest, rfl, htarget, hrest, ?_⟩
  rw [executeAll_cons_of_ok hstep]
  exact hvalue

/-- What a run has done to the names when no statement of it failed: what is no target stands for
what it stood for, and every target stands for the value of its last binding. -/
def Binds (s : Session) (statements : List Statement) (last : Session) : Prop :=
  (∀ name ∉ Statement.targets statements, last.store.find? name = s.store.find? name) ∧
    ∀ name ∈ Statement.targets statements, ∃ value,
      s.LastBinding statements name value ∧ last.store.find? name = some value

/-- A statement before a run: it is undone by no later binding. -/
theorem Binds.cons {statement : Statement} {response : Response} {statements : List Statement}
    (hstep : s.execute statement = .ok (next, response)) (h : next.Binds statements last) :
    s.Binds (statement :: statements) last := by
  obtain ⟨hother, htarget⟩ := h
  obtain ⟨-, ⟨hnone, rfl⟩ | ⟨target, value, hsome, hvalue, hinsert⟩⟩ :=
    yields_execute s statement _ hstep
  · have hcons : Statement.targets (statement :: statements) = Statement.targets statements :=
      List.filterMap_cons_none hnone
    rw [Binds, hcons]
    refine ⟨hother, fun name hname => ?_⟩
    obtain ⟨value, hlast, hfind⟩ := htarget name hname
    exact ⟨value, hlast.cons hstep, hfind⟩
  · have hcons : Statement.targets (statement :: statements) =
        target :: Statement.targets statements := List.filterMap_cons_some hsome
    rw [Binds, hcons]
    refine ⟨fun name hname => ?_, fun name hname => ?_⟩
    · obtain ⟨hne, hname⟩ := not_or.mp (mt List.mem_cons.mpr hname)
      rw [hother name hname, Store.find?_insert hinsert, if_neg hne]
    · by_cases hlater : name ∈ Statement.targets statements
      · obtain ⟨value, hlast, hfind⟩ := htarget name hlater
        exact ⟨value, hlast.cons hstep, hfind⟩
      · obtain rfl : name = target := (List.mem_cons.mp hname).resolve_right hlater
        refine ⟨value, ⟨[], statement, statements, rfl, hsome, fun t ht hsame => ?_, hvalue⟩, ?_⟩
        · exact hlater (List.mem_filterMap.mpr ⟨t, ht, hsame⟩)
        · rw [hother name hlater, Store.find?_insert hinsert, if_pos rfl]

/-- A run that succeeds reports all targets in their order. -/
theorem yields_executeAll (s : Session) (statements : List Statement) :
    Yields (fun responses => responses.flatMap (·.bound) = Statement.targets statements ∧
      s.Binds statements (s.executeAll statements).1) (s.executeAll statements).2 := by
  induction statements generalizing s with
  | nil => exact .ok ⟨rfl, fun _ _ => rfl, fun _ h => absurd h List.not_mem_nil⟩
  | cons statement statements ih =>
    cases hstep : s.execute statement with
    | error e =>
      rw [executeAll_cons_of_error hstep]
      exact .error e
    | ok r =>
      obtain ⟨next, response⟩ := r
      rw [executeAll_cons_of_ok hstep]
      refine (ih next).map fun responses h => ⟨?_, h.2.cons hstep⟩
      rw [List.flatMap_cons, h.1, (yields_execute s statement _ hstep).1]
      unfold Statement.targets
      cases htarget : statement.target? with
      | none => rw [List.filterMap_cons_none htarget]; rfl
      | some name => rw [List.filterMap_cons_some htarget]; rfl

/-- No statement takes a name away. -/
theorem find?_ne_none_execute {statement : Statement} {response : Response}
    (hstep : s.execute statement = .ok (next, response)) (h : s.store.find? name ≠ none) :
    next.store.find? name ≠ none := by
  obtain ⟨-, ⟨-, rfl⟩ | ⟨target, value, -, -, hinsert⟩⟩ := yields_execute s statement _ hstep
  · exact h
  · rw [Store.find?_insert hinsert]
    split_ifs
    · exact Option.some_ne_none value
    · exact h

/-- No run takes a name away, also if it fails. -/
theorem find?_ne_none_executeAll (statements : List Statement) (h : s.store.find? name ≠ none) :
    (s.executeAll statements).1.store.find? name ≠ none := by
  induction statements generalizing s with
  | nil => exact h
  | cons statement statements ih =>
    cases hstep : s.execute statement with
    | error e =>
      rw [executeAll_cons_of_error hstep]
      exact h
    | ok r =>
      rw [executeAll_cons_of_ok hstep]
      exact ih (find?_ne_none_execute hstep h)

/-! ## A program -/

/-- The response to a run with a statement is the last response, with all names that were bound. -/
theorem summarize_eq_ok {responses : List Response} (h : responses ≠ []) :
    summarize responses =
      .ok { responses.getLast h with bound := responses.flatMap (·.bound) } := by
  rw [summarize, List.getLast?_eq_some_getLast h]

theorem ne_nil_of_executeAll {statements : List Statement} {responses : List Response}
    (h : s.executeAll statements = (last, .ok responses)) (hne : statements ≠ []) :
    responses ≠ [] := by
  cases statements with
  | nil => exact absurd rfl hne
  | cons statement statements =>
    rintro rfl
    cases hstep : s.execute statement with
    | error e =>
      rw [executeAll_cons_of_error hstep] at h
      cases h
    | ok r =>
      obtain ⟨next, response⟩ := r
      rw [executeAll_cons_of_ok hstep] at h
      rcases hrest : next.executeAll statements with ⟨last', e | responses⟩
      · rw [hrest] at h
        cases h
      · rw [hrest] at h
        cases h

/-- What a run of a program with a statement comes to. -/
theorem run_of_readProgram {text : String} {statements : List Statement}
    (hread : Command.readProgram text = .ok statements) (hne : statements ≠ []) :
    (∃ last e, s.executeAll statements = (last, .error e) ∧ s.run text = (last, .error e)) ∨
      ∃ last responses, ∃ h : responses ≠ [], s.executeAll statements = (last, .ok responses) ∧
        s.run text =
          (last, .ok { responses.getLast h with bound := responses.flatMap (·.bound) }) := by
  rw [run, hread]
  dsimp only
  rcases hall : s.executeAll statements with ⟨last, e | responses⟩
  · exact .inl ⟨last, e, rfl, rfl⟩
  · have hresponses := ne_nil_of_executeAll hall hne
    exact .inr ⟨last, responses, hresponses, rfl, congrArg _ (summarize_eq_ok hresponses)⟩

/-- **What a run does to the store.** A text that is no program changes nothing. A run of a program
fails exactly where a statement fails, with the store from before that statement, so that no later
statement is executed; the only other failure is that of a text without statements. A run that
succeeds reports the targets of all statements in their order; what is no target stands for what it
stood for, and a target stands for the value of its last binding. No run takes a name away. -/
theorem run_effect (s : Session) (text : String) :
    (∀ e, Command.readProgram text = .error e → s.run text = (s, .error (.program e))) ∧
    (∀ statements, Command.readProgram text = .ok statements →
      (∀ last e, s.run text = (last, .error e) ↔
        s.StopsAt statements last e ∨ statements = [] ∧ last = s ∧ e = .emptyInput) ∧
      (∀ last response, s.run text = (last, .ok response) →
        response.bound = Statement.targets statements ∧ s.Binds statements last)) ∧
    ∀ name, s.store.find? name ≠ none → (s.run text).1.store.find? name ≠ none := by
  refine ⟨fun e he => by rw [run, he], fun statements hread => ?_, fun name hname => ?_⟩
  · simp_rw [← executeAll_eq_error_iff]
    obtain rfl | hne := eq_or_ne statements []
    · have hrun : s.run text = (s, .error .emptyInput) := by rw [run, hread]; rfl
      rw [hrun]
      refine ⟨fun last e => ?_, fun last response h => by cases h⟩
      simp [executeAll, eq_comm]
    · obtain ⟨l, e', hall, hrun⟩ | ⟨l, responses, hresponses, hall, hrun⟩ :=
        run_of_readProgram (s := s) hread hne
      · rw [hall, hrun]
        exact ⟨by simp [hne], fun last response h => by cases h⟩
      · rw [hall, hrun]
        refine ⟨by simp [hne], fun last response h => ?_⟩
        obtain ⟨rfl, hresponse⟩ := Prod.mk.inj h
        obtain ⟨htargets, hbinds⟩ := yields_executeAll s statements responses (by rw [hall])
        rw [hall] at hbinds
        exact ⟨(Except.ok.inj hresponse) ▸ htargets, hbinds⟩
  · unfold run
    split
    · exact hname
    · exact find?_ne_none_executeAll _ hname

/-- A run that binds one name twice and looks the result up. -/
theorem run_effect_of_rebinding :
    ∃ statements last response,
      Command.readProgram "A = [[1, 2]]; b = (3); A = 2*A; A" = .ok statements ∧
        Session.empty.run "A = [[1, 2]]; b = (3); A = 2*A; A" = (last, .ok response) ∧
        response.bound = ["A", "b", "A"] ∧ Session.empty.Binds statements last ∧
        last.store.find? "A" = some (.matrix ⟨⟨1, 2⟩, [[2, 4]], false⟩) := by
  have hread : Command.readProgram "A = [[1, 2]]; b = (3); A = 2*A; A" =
      .ok [.define "A" (.matrix ⟨⟨1, 2⟩, [[1, 2]], false⟩), .define "b" (.vector ⟨[3]⟩),
        .bind "A" (.scaled 2 "A"), .run (.show "A")] := by decide +kernel
  have hbound : (Session.empty.run "A = [[1, 2]]; b = (3); A = 2*A; A").2.map (·.bound) =
      .ok ["A", "b", "A"] := by decide +kernel
  have hfind : (Session.empty.run "A = [[1, 2]]; b = (3); A = 2*A; A").1.store.find? "A" =
      some (.matrix ⟨⟨1, 2⟩, [[2, 4]], false⟩) := by decide +kernel
  obtain ⟨-, hprogram, -⟩ := run_effect Session.empty "A = [[1, 2]]; b = (3); A = 2*A; A"
  rcases hrun : Session.empty.run "A = [[1, 2]]; b = (3); A = 2*A; A" with ⟨last, e | response⟩
  · rw [hrun] at hbound
    cases hbound
  · rw [hrun] at hfind
    obtain ⟨htargets, hbinds⟩ := (hprogram _ hread).2 last response hrun
    exact ⟨_, last, response, hread, rfl, htargets, hbinds, hfind⟩

end Session

end ExactLinear
