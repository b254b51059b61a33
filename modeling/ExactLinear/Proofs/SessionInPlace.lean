import ExactLinear.Proofs.Bindings
import ExactLinear.Proofs.InPlace
import ExactLinear.Proofs.StoreHistory

/-!
# Sessions in place

The calls of a store and of a session are functions from states to states. Here they change a state:
an insert checks its name and then writes, a statement evaluates its operation and then inserts, and
a run executes one statement after the other and is left where one of them fails. What was written
before a failure stays. Each call does to the state what the function says (`run_insert`,
`run_execute`, `run_run`), so it is a result that a refused insert and a statement that fails leave
the state as it was (`state_of_error`).
-/

namespace ExactLinear

namespace Mutable

open InPlace

/-! ## The calls

Each is the definition of the same name, on a state that it changes.
-/

/-- A table with one place overwritten. -/
def overwrite {α : Type} {n : ℕ} (table : Vector α n) (i : Fin n) (x : α) : Vector α n :=
  table.set i x i.isLt

def insert (name : String) : Stored → InPlace Store NameError Unit
  | .matrix m => do
    let i ← ofExcept (checkName .matrix name)
    modify fun s => { s with matrices := overwrite s.matrices i (some m) }
  | .vector v => do
    let i ← ofExcept (checkName .vector name)
    modify fun s => { s with vectors := overwrite s.vectors i (some v) }

/-- Empties the place of a matrix, and tells whether it held one. -/
def takeMatrix (i : Fin 26) : StateM Store Bool :=
  modifyGet fun s => ((s.matrixAt i).isSome, { s with matrices := overwrite s.matrices i none })

/-- Empties the place of a vector, and tells whether it held one. -/
def takeVector (i : Fin 26) : StateM Store Bool :=
  modifyGet fun s => ((s.vectorAt i).isSome, { s with vectors := overwrite s.vectors i none })

def remove (name : String) : StateM Store Bool :=
  match Kind.ofCase? name with
  | some .matrix =>
    match checkName .matrix name with
    | .ok i => takeMatrix i
    | .error _ => pure false
  | some .vector =>
    match checkName .vector name with
    | .ok i => takeVector i
    | .error _ => pure false
  | none => pure false

/-- Makes a call, whether it is refused or not. -/
def perform : Store.Call → StateM Store Unit
  | .insert name value => do
    let _ ← (insert name value).run
  | .remove name => do
    let _ ← remove name

/-- Binds a name in the store of a session. -/
def bindName (name : String) (value : Stored) : InPlace Session SessionError Unit :=
  within Session.store (fun s store => { s with store }) .badName (insert name value)

def execute : Statement → InPlace Session SessionError Response
  | .list => do
    return ⟨"list", "", (← get).store.listing, []⟩
  | .define name value => do
    let shown := value.text
    bindName name value
    return ⟨name, "", shown, [name]⟩
  | .bind name operation => do
    let outcome ← ofExcept ((← get).evaluate operation)
    match outcome.result.stored? with
    | none => throw (.notBindable name)
    | some value => do
      bindName name value
      return Response.ofOutcome { outcome with header := name ++ " = " ++ outcome.header } [name]
  | .run operation => do
    let outcome ← ofExcept ((← get).evaluate operation)
    return Response.ofOutcome outcome []

/-- Executes statements, and keeps the names that have been bound and the last response. -/
def executeAll (bound : List String) (last : Option Response) :
    List Statement → InPlace Session SessionError (List String × Option Response)
  | [] => pure (bound, last)
  | statement :: statements => do
    let response ← execute statement
    executeAll (bound ++ response.bound) (some response) statements

def run (text : String) : InPlace Session SessionError Response := do
  let statements ← ofExcept ((Command.readProgram text).mapError .program)
  let (bound, last) ← executeAll [] none statements
  match last with
  | none => throw .emptyInput
  | some response => return { response with bound }

/-! ## The calls on a store -/

/-- An insert that is refused leaves the store as it was. -/
theorem run_insert (name : String) (value : Stored) (s : Store) :
    (insert name value).run.run s =
      match s.insert name value with
      | .ok next => (.ok (), next)
      | .error e => (.error e, s) := by
  cases value with
  | matrix m =>
    simp only [insert, run_bind, run_ofExcept, Store.insert]
    cases checkName .matrix name <;> rfl
  | vector v =>
    simp only [insert, run_bind, run_ofExcept, Store.insert]
    cases checkName .vector name <;> rfl

theorem run_remove (name : String) (s : Store) : (remove name).run s = s.remove name := by
  unfold remove Store.remove Store.find? Store.erase checkName
  rw [← Kind.map_fst_ofName?]
  cases Kind.ofName? name with
  | none => rfl
  | some found =>
    obtain ⟨kind, i⟩ := found
    cases kind with
    | matrix => cases hat : s.matrixAt i <;> simp [takeMatrix, hat] <;> rfl
    | vector => cases hat : s.vectorAt i <;> simp [takeVector, hat] <;> rfl

theorem run_perform (c : Store.Call) (s : Store) : (perform c).run s = ((), s.perform c) := by
  cases c with
  | insert name value =>
    have hinsert := run_insert name value s
    show ((), ((insert name value).run.run s).2) = _
    rw [hinsert, Store.perform]
    cases s.insert name value <;> rfl
  | remove name =>
    show ((), ((remove name).run s).2) = _
    rw [run_remove, Store.perform]

/-- Calls that are made one after the other on a store leave the store that they stand for. -/
theorem run_forM_perform (calls : List Store.Call) (s : Store) :
    (calls.forM perform).run s = ((), calls.foldl Store.perform s) := by
  induction calls generalizing s with
  | nil => rfl
  | cons c calls ih =>
    show (calls.forM perform).run ((perform c).run s).2 = _
    rw [run_perform, ih]
    rfl

/-! ## Statements and runs -/

theorem run_bindName (name : String) (value : Stored) (s : Session) :
    (bindName name value).run.run s =
      match s.insert name value with
      | .ok next => (.ok (), next)
      | .error e => (.error e, s) := by
  rw [bindName, run_within, run_insert, Session.insert]
  cases s.store.insert name value <;> rfl

/-- A statement that fails leaves the session as it was. -/
theorem run_execute (statement : Statement) (s : Session) :
    (execute statement).run.run s =
      match s.execute statement with
      | .ok (next, response) => (.ok response, next)
      | .error e => (.error e, s) := by
  cases statement with
  | list => rfl
  | define name value =>
    simp only [execute, Session.execute, run_bind, run_bindName]
    cases s.insert name value <;> rfl
  | bind name operation =>
    simp only [execute, Session.execute, run_bind, run_get, run_ofExcept]
    cases s.evaluate operation with
    | error e => rfl
    | ok outcome =>
      dsimp only
      conv_rhs => simp only [bind, Except.bind]
      cases outcome.result.stored? with
      | none => rfl
      | some value =>
        dsimp only
        rw [run_bind, run_bindName]
        cases s.insert name value <;> rfl
  | run operation =>
    simp only [execute, Session.execute, run_bind, run_get, run_ofExcept]
    cases s.evaluate operation <;> rfl

theorem run_executeAll (bound : List String) (last : Option Response)
    (statements : List Statement) (s : Session) :
    (executeAll bound last statements).run.run s =
      match s.executeAll statements with
      | (final, .ok responses) =>
        (.ok (bound ++ responses.flatMap (·.bound), responses.getLast?.or last), final)
      | (final, .error e) => (.error e, final) := by
  induction statements generalizing bound last s with
  | nil =>
    rw [executeAll, run_pure, Session.executeAll]
    simp
  | cons statement statements ih =>
    rw [executeAll, run_bind, run_execute, Session.executeAll]
    cases s.execute statement with
    | error e => rfl
    | ok done =>
      obtain ⟨next, response⟩ := done
      dsimp only
      rw [ih]
      rcases next.executeAll statements with ⟨final, e | responses⟩
      · rfl
      · simp only [Except.map, List.flatMap_cons, List.append_assoc, List.getLast?_cons]
        cases responses.getLast? <;> rfl

/-- A run is left where a statement fails, with what the statements before it have bound. -/
theorem run_run (text : String) (s : Session) :
    (run text).run.run s = (s.run text).swap := by
  rw [run, run_bind, run_ofExcept, Session.run]
  cases Command.readProgram text with
  | error e => rfl
  | ok statements =>
    simp only [Except.mapError, run_bind, run_executeAll]
    rcases s.executeAll statements with ⟨final, e | responses⟩
    · rfl
    · cases hlast : responses.getLast? <;> simp [Session.summarize, hlast, Except.bind] <;> rfl

/-- **What fails leaves the state as it was.** An insert that is refused has not changed the store,
and a statement that fails has not changed the session. So statements that are executed one after
the other leave, if one of them fails, what those before it have made of the session. -/
theorem state_of_error :
    (∀ name value s e s', (insert name value).run.run s = (.error e, s') → s' = s) ∧
      (∀ statement s e s', (execute statement).run.run s = (.error e, s') → s' = s) ∧
      ∀ statements s e s', (executeAll [] none statements).run.run s = (.error e, s') →
        s.StopsAt statements s' e := by
  refine ⟨fun name value s e s' h => ?_, fun statement s e s' h => ?_,
    fun statements s e s' h => ?_⟩
  · rw [run_insert] at h
    split at h
    · cases h
    · exact (Prod.mk.inj h).2.symm
  · rw [run_execute] at h
    split at h
    · cases h
    · exact (Prod.mk.inj h).2.symm
  · rw [run_executeAll] at h
    refine Session.executeAll_eq_error_iff.mp ?_
    rcases hall : s.executeAll statements with ⟨last, e' | responses⟩
    · rw [hall] at h
      cases h
      rfl
    · rw [hall] at h
      cases h

end Mutable

end ExactLinear
