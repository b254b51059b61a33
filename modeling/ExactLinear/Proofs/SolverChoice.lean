import ExactLinear.Proofs.CramersRule
import ExactLinear.Proofs.WellFormed

/-!
# The choice of the solver changes no answer

A session may prefer determinant ratios to elimination. Where it does, `solve` tries Cramer's rule
on square systems and falls back on elimination when the rule does not apply. Cramer's rule yields
what elimination would have yielded (`SquareSystem.cramer_cases`), so the value of every operation
is the same with either choice, and only its header and its transcript can differ.

Two sessions are `Twins` when they have one store. They stay twins in every statement, since a
statement binds values and texts of values but no headers and no transcripts, and so in every run.
-/

namespace ExactLinear

/-! ## One system -/

namespace RatMatrix

variable {n : ℕ} {m : RatMatrix}

/-- The answer does not change when a system is reduced before it is solved. -/
theorem solve_reduce (hm : m.WellFormed) : m.reduce.matrix.solve = m.solve := by
  obtain ⟨-, -, haug⟩ := wellFormed_reduce hm
  obtain ⟨r, lead, hs⟩ := reduced_reduce hm
  rw [← variableCount_reduce hm] at hs
  have hkeep : m.reduce.matrix.reduce.matrix = m.reduce.matrix := by
    rw [reduce, if_pos (isReduced_iff_exists_reduced.mpr ⟨r, lead, hs⟩)]
  rw [solve, haug, variableCount_reduce hm, hkeep, solve]

/-- On a square system Cramer's rule yields the answer of `solve` or says that it does not apply. -/
theorem SquareSystem.cramer_cases (h : m.SquareSystem n) :
    (∃ values t, m.cramer = .ok (.unique values, t) ∧ m.solve = .ok (.unique values)) ∨
      m.cramer = .error .cramerNotApplicable := by
  obtain ⟨t, hcramer⟩ := h.cramer_eq
  by_cases hdet : (grid n n m.rows).det = 0
  · exact .inr (by rw [hcramer, if_pos hdet])
  · rw [if_neg hdet] at hcramer
    exact .inl ⟨_, t, hcramer, h.solve_eq_of_solves hdet (h.solves_ratios hdet)⟩

end RatMatrix

namespace Store

variable {s : Store} {system : Named RatMatrix}

/-- The value of a worked solution is the solution. -/
theorem map_result_solve (hm : system.value.WellFormed) :
    (Worked.solve system).map Outcome.result = system.value.solve.map Value.solution := by
  rw [← RatMatrix.solve_reduce hm, Worked.solve]
  cases system.value.reduce.matrix.solve <;> rfl

/-- The value of a worked solution is the solution, whatever solver is preferred. -/
theorem map_result_solveSystem (hm : system.value.WellFormed) (preferCramer : Bool) :
    (solveSystem preferCramer system).map Outcome.result =
      system.value.solve.map Value.solution := by
  rw [solveSystem]
  split_ifs with hsquare
  · simp only [Bool.and_eq_true, decide_eq_true_eq] at hsquare
    obtain ⟨⟨-, haug⟩, hrows⟩ := hsquare
    obtain ⟨values, t, hcramer, hsolve⟩ | hcramer :=
      (RatMatrix.squareSystem_of_rows_eq hm haug hrows).cramer_cases
    · rw [Worked.cramer, hcramer, hsolve]
      rfl
    · rw [Worked.cramer, hcramer]
      exact map_result_solve hm
  · exact map_result_solve hm

/-! ## One operation -/

theorem WellFormed.agree_onMatrix (hs : s.WellFormed) (function : Builtin) (args : List String)
    {f g : Named RatMatrix → Except LinearError Outcome}
    (hfg : ∀ a, a.value.WellFormed → (f a).map Outcome.result = (g a).map Outcome.result) :
    Agree (fun o o' => o.result = o'.result) (s.onMatrix function args f)
      (s.onMatrix function args g) := by
  refine (Agree.refl _).bind fun name _ h => ?_
  subst h
  refine ((Agree.refl _).and_yields (hs.namedMatrix name)).bind fun a _ h => ?_
  obtain ⟨rfl, ha⟩ := h
  exact (Agree.map_eq_iff.mpr (hfg a ha)).mapError

/-- The value of an operation is the same, whatever solver is preferred. -/
theorem WellFormed.agree_evaluate (hs : s.WellFormed) (p q : Bool) (operation : Operation) :
    Agree (fun o o' => o.result = o'.result) (s.evaluate p operation) (s.evaluate q operation) := by
  have hself : ∀ x : Except SessionError Outcome, Agree (fun o o' => o.result = o'.result) x x :=
    fun x => (Agree.refl x).mono fun o o' h => congrArg Outcome.result h
  -- the choice of the solver is read by `solve` and by nothing else
  cases operation with
  | call function args =>
    cases function with
    | solve =>
      exact hs.agree_onMatrix .solve args fun a ha =>
        (map_result_solveSystem ha p).trans (map_result_solveSystem ha q).symm
    | _ => exact hself _
  | _ => exact hself _

end Store

/-! ## One statement -/

/-- What a response tells about the answer and not about the way to it. -/
def Response.answer (r : Response) : String × List String := (r.result, r.bound)

theorem Response.answer_ofOutcome (o : Outcome) (bound : List String) :
    (Response.ofOutcome o bound).answer = (o.result.text, bound) := rfl

namespace Session

variable {s t : Session}

/-- Two sessions on one store, which may differ in how they solve systems. -/
structure Twins (s t : Session) : Prop where
  store_eq : s.store = t.store
  wellFormed : s.store.WellFormed

/-- Two steps end in twins and give one answer. -/
def SameStep (a b : Session × Response) : Prop := Twins a.1 b.1 ∧ a.2.answer = b.2.answer

theorem Twins.insert (h : Twins s t) (name : String) {value : Stored} (hvalue : value.WellFormed) :
    Agree Twins (s.insert name value) (t.insert name value) := by
  rw [Session.insert, Session.insert, ← h.store_eq]
  refine (((Agree.refl _).and_yields (h.wellFormed.insert name hvalue)).mapError).bind ?_
  rintro store _ ⟨rfl, hstore⟩
  exact .ok ⟨rfl, hstore⟩

/-- Twins that execute one statement fail with one error, or remain twins and give one answer. -/
theorem Twins.execute (h : Twins s t) {statement : Statement} (hwf : statement.WellFormed) :
    Agree SameStep (s.execute statement) (t.execute statement) := by
  have heval : ∀ operation, Agree (fun o o' => o.result = o'.result ∧ o.WellFormed)
      (s.evaluate operation) (t.evaluate operation) := by
    intro operation
    rw [evaluate, evaluate, ← h.store_eq]
    exact (h.wellFormed.agree_evaluate _ _ operation).and_yields
      (h.wellFormed.evaluate _ operation)
  cases statement with
  | list =>
    refine .ok ⟨h, ?_⟩
    simp only [h.store_eq]
  | define name value => exact (h.insert name hwf).bind fun _ _ hnext => .ok ⟨hnext, rfl⟩
  | run operation =>
    refine (heval operation).bind fun o o' ho => .ok ⟨h, ?_⟩
    rw [Response.answer_ofOutcome, Response.answer_ofOutcome, ho.1]
  | bind name operation =>
    refine (heval operation).bind fun o o' ho => ?_
    obtain ⟨heq, howf⟩ := ho
    rw [← heq]
    cases hvalue : o.result.stored? with
    | none => exact .error _
    | some value =>
      refine (h.insert name (howf.of_stored? hvalue)).bind fun _ _ hnext => .ok ⟨hnext, ?_⟩
      simp only [Response.answer_ofOutcome, heq]

/-! ## A run -/

/-- Twins that execute the same statements are twins in the end, and fail with one error or give the
same answers. -/
theorem Twins.executeAll (h : Twins s t) {statements : List Statement}
    (hwf : ∀ x ∈ statements, x.WellFormed) :
    Twins (s.executeAll statements).1 (t.executeAll statements).1 ∧
      Agree (fun a b => a.map Response.answer = b.map Response.answer)
        (s.executeAll statements).2 (t.executeAll statements).2 := by
  induction statements generalizing s t with
  | nil => exact ⟨h, .ok rfl⟩
  | cons statement statements ih =>
    obtain ⟨hhead, htail⟩ := List.forall_mem_cons.mp hwf
    have hstep := h.execute hhead
    unfold Session.executeAll
    generalize s.execute statement = x at hstep ⊢
    generalize t.execute statement = y at hstep ⊢
    cases hstep with
    | error e => exact ⟨h, .error e⟩
    | ok hstep =>
      obtain ⟨hnext, hanswer⟩ := hstep
      obtain ⟨hlast, hanswers⟩ := ih hnext htail
      refine ⟨hlast, hanswers.map fun as bs heq => ?_⟩
      rw [List.map_cons, List.map_cons, hanswer, heq]

/-- The answer of a run is made of the answers of its statements. -/
theorem agree_summarize {as bs : List Response}
    (h : as.map Response.answer = bs.map Response.answer) :
    Agree (fun a b => a.answer = b.answer) (summarize as) (summarize bs) := by
  have hlast := congrArg List.getLast? h
  rw [List.getLast?_map, List.getLast?_map] at hlast
  have hbound : as.flatMap (·.bound) = bs.flatMap (·.bound) := by
    have hnames := congrArg (List.flatMap (·.2)) h
    rwa [List.flatMap_map, List.flatMap_map] at hnames
  unfold summarize
  rw [hbound]
  cases ha : as.getLast? with
  | none =>
    rw [ha] at hlast
    rw [Option.map_eq_none_iff.mp hlast.symm]
    exact .error _
  | some a =>
    rw [ha] at hlast
    obtain ⟨b, hb, hab⟩ := Option.map_eq_some_iff.mp hlast.symm
    rw [hb]
    exact .ok (congrArg (·, bs.flatMap (·.bound)) (Prod.mk.inj hab.symm).1)

/-- **The preferred solver changes no answer.** Two sessions that start from one store, and of which
each may prefer Cramer's rule or not, leave one store behind when they run a text. If one of them
fails, the other one fails with the same error; otherwise both have the same result and have bound
the same names. -/
theorem agree_run (store : Store) (hstore : store.WellFormed) (p q : Bool) (text : String) :
    ((⟨store, p⟩ : Session).run text).1.store = ((⟨store, q⟩ : Session).run text).1.store ∧
      Agree (fun a b => a.result = b.result ∧ a.bound = b.bound)
        ((⟨store, p⟩ : Session).run text).2 ((⟨store, q⟩ : Session).run text).2 := by
  unfold run
  cases hread : Command.readProgram text with
  | error e => exact ⟨rfl, .error _⟩
  | ok statements =>
    have htwins : Twins ⟨store, p⟩ ⟨store, q⟩ := ⟨rfl, hstore⟩
    obtain ⟨hlast, hanswers⟩ := htwins.executeAll (Command.yields_readProgram text _ hread)
    refine ⟨hlast.store_eq, (hanswers.bind fun _ _ => agree_summarize).mono fun a b heq => ?_⟩
    exact Prod.mk.inj heq

/-- A system that is solved by determinant ratios in one session and by elimination in another one.
-/
theorem agree_run_of_square_system :
    ∃ store, Store.empty.insert "S" (.matrix ⟨⟨2, 3⟩, [[0, 2, 4], [1, 1, 1]], true⟩) = .ok store ∧
      ((⟨store, true⟩ : Session).run "x = (1, 2); solve(S)").2.map (·.header) =
        .ok "cramer(S)" ∧
      ((⟨store, false⟩ : Session).run "x = (1, 2); solve(S)").2.map (·.header) =
        .ok "solve(S)" ∧
      ((⟨store, true⟩ : Session).run "x = (1, 2); solve(S)").2.map (·.answer) =
        .ok ("x_1 = -1\nx_2 = 2", ["x"]) ∧
      ((⟨store, false⟩ : Session).run "x = (1, 2); solve(S)").2.map (·.answer) =
        .ok ("x_1 = -1\nx_2 = 2", ["x"]) := by
  have hinsert : Store.empty.insert "S" (.matrix ⟨⟨2, 3⟩, [[0, 2, 4], [1, 1, 1]], true⟩) =
      .ok ⟨Store.empty.matrices.set 18 (some ⟨⟨2, 3⟩, [[0, 2, 4], [1, 1, 1]], true⟩),
        Store.empty.vectors⟩ := by decide +kernel
  have hsystem : Stored.WellFormed (.matrix ⟨⟨2, 3⟩, [[0, 2, 4], [1, 1, 1]], true⟩) :=
    show RatMatrix.WellFormed _ by decide
  have hstore := Store.wellFormed_empty.insert "S" hsystem _ hinsert
  obtain ⟨-, hagree⟩ := agree_run _ hstore false true "x = (1, 2); solve(S)"
  have hanswer := Agree.map_eq_iff.mp
    (hagree.mono fun a b h => (Prod.ext h.1 h.2 : a.answer = b.answer))
  refine ⟨_, hinsert, by decide +kernel, by decide +kernel, ?_, hanswer.trans ?_⟩
  all_goals decide +kernel

end Session

end ExactLinear
