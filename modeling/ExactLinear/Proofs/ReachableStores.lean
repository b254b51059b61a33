import ExactLinear.Proofs.Bindings
import ExactLinear.Proofs.WellFormed
import ExactLinear.Store.Document

/-!
# Reachable stores are well-formed

Values come into a store from literals and results, from documents, and from outside. The reader of
documents builds every matrix and every vector by the validating constructors
(`Store.yields_ofJson`). A statement binds one value or none, and that value is a literal or a
result (`Session.Effect`), so a statement, and with it a run, keeps the store well-formed also when
it fails. `Session.wellFormed_handleAll` puts this together for any sequence of events.
-/

namespace ExactLinear

/-! ## Documents -/

theorem yields_vectorOfJson (j : Json) : Yields RatVector.WellFormed (vectorOfJson j) :=
  (Yields.trivial _).bind fun entries _ => (RatVector.yields_ofList entries).mapError

theorem yields_matrixOfJson (j : Json) : Yields RatMatrix.WellFormed (matrixOfJson j) := by
  unfold matrixOfJson
  dsimp only
  split
  · exact (Yields.trivial _).bind fun rows _ => (RatMatrix.yields_ofRows rows _).mapError
  · exact .error _

namespace Store

variable {s : Store}

theorem WellFormed.addRead (hs : s.WellFormed) (place name : String)
    {value : Except DocumentError Stored} (hvalue : Yields Stored.WellFormed value) :
    Yields WellFormed (s.addRead place name value) :=
  hvalue.mapError.bind fun _ hx => (hs.insert name hx).mapError

/-- A document that is a store is a well-formed one. -/
theorem yields_ofJson (j : Json) : Yields WellFormed (ofJson j) := by
  refine (Yields.trivial _).bind fun matrices _ => ?_
  have hmatrices : ∀ (s : Store) (entry : String × Json), s.WellFormed →
      Yields WellFormed (s.addRead "matrix" entry.1 ((matrixOfJson entry.2).map .matrix)) :=
    fun s entry hs => hs.addRead _ _ ((yields_matrixOfJson entry.2).map fun _ hm => hm)
  refine (Yields.foldlM wellFormed_empty hmatrices).bind fun s hs => ?_
  refine (Yields.trivial _).bind fun vectors _ => Yields.foldlM hs fun s entry hs => ?_
  exact hs.addRead _ _ ((yields_vectorOfJson entry.2).map fun _ hv => hv)

theorem WellFormed.erase (hs : s.WellFormed) (name : String) : (s.erase name).WellFormed := by
  unfold Store.erase
  split
  · exact ⟨fun k m hk => hs.matrixAt k m (getElem_eq_of_set_none hk), hs.vectorAt⟩
  · exact ⟨hs.matrixAt, fun k v hk => hs.vectorAt k v (getElem_eq_of_set_none hk)⟩
  · exact hs

end Store

namespace Session

variable {s : Session}

/-! ## Statements and runs -/

/-- The value that a statement binds is a literal of it or a result. -/
theorem wellFormed_of_boundValue? (hs : s.store.WellFormed) {statement : Statement}
    (hwf : statement.WellFormed) {value : Stored} (h : s.boundValue? statement = some value) :
    value.WellFormed := by
  cases statement with
  | list => cases h
  | define name literal => exact Option.some.inj h ▸ hwf
  | run operation => cases h
  | bind name operation =>
    obtain ⟨o, ho, hvalue⟩ := Option.bind_eq_some_iff.mp h
    have hresult := hs.evaluate s.preferCramer operation o (toOption_eq_some_iff.mp ho)
    exact hresult.of_stored? hvalue

/-- A statement keeps the store well-formed. -/
theorem yields_wellFormed_execute (hs : s.store.WellFormed) {statement : Statement}
    (hwf : statement.WellFormed) :
    Yields (fun r => r.1.store.WellFormed) (s.execute statement) := by
  intro r hr
  obtain ⟨-, ⟨-, hsame⟩ | ⟨name, value, -, hvalue, hinsert⟩⟩ := yields_execute s statement r hr
  · rw [hsame]
    exact hs
  · exact hs.insert name (wellFormed_of_boundValue? hs hwf hvalue) _ hinsert

/-- A run keeps the store well-formed, wherever it ends. -/
theorem wellFormed_executeAll (hs : s.store.WellFormed) {statements : List Statement}
    (hwf : ∀ t ∈ statements, t.WellFormed) : (s.executeAll statements).1.store.WellFormed := by
  induction statements generalizing s with
  | nil => exact hs
  | cons statement statements ih =>
    obtain ⟨hhead, htail⟩ := List.forall_mem_cons.mp hwf
    cases hstep : s.execute statement with
    | error e =>
      rw [executeAll_cons_of_error hstep]
      exact hs
    | ok r =>
      rw [executeAll_cons_of_ok hstep]
      exact ih (yields_wellFormed_execute hs hhead r hstep) htail

theorem wellFormed_run (hs : s.store.WellFormed) (text : String) :
    (s.run text).1.store.WellFormed := by
  unfold run
  cases hread : Command.readProgram text with
  | error e => exact hs
  | ok statements => exact wellFormed_executeAll hs (Command.yields_readProgram text _ hread)

/-! ## Events -/

/-- Something that happens to a session. Values and statements from outside are well-formed. -/
inductive Event where
  /-- A text is run. -/
  | input (text : String)
  /-- A statement is executed. -/
  | statement (statement : Statement) (wellFormed : statement.WellFormed)
  /-- The store of a document takes the place of the store. -/
  | load (document : Json)
  /-- A name is bound to a value. -/
  | insert (name : String) (value : Stored) (wellFormed : value.WellFormed)
  /-- A name is removed. -/
  | erase (name : String)
  /-- The choice of the solver changes. -/
  | prefer (preferCramer : Bool)

/-- The session after an event. What fails changes nothing, except that a run keeps what it did
before it failed. -/
def handle (s : Session) : Event → Session
  | .input text => (s.run text).1
  | .statement statement _ => ((s.execute statement).toOption.map (·.1)).getD s
  | .load document => { s with store := (Store.ofJson document).toOption.getD s.store }
  | .insert name value _ => (s.insert name value).toOption.getD s
  | .erase name => { s with store := s.store.erase name }
  | .prefer preferCramer => { s with preferCramer }

/-- The session after events. -/
def handleAll (s : Session) (events : List Event) : Session := events.foldl handle s

theorem wellFormed_handle (hs : s.store.WellFormed) (event : Event) :
    (s.handle event).store.WellFormed := by
  cases event with
  | input text => exact wellFormed_run hs text
  | erase name => exact hs.erase name
  | prefer preferCramer => exact hs
  | statement statement hwf =>
    have hstep := yields_wellFormed_execute hs hwf
    rw [handle]
    cases h : s.execute statement with
    | error e => exact hs
    | ok r => exact hstep r h
  | load document =>
    have hload := Store.yields_ofJson document
    rw [handle]
    cases h : Store.ofJson document with
    | error e => exact hs
    | ok store => exact hload store h
  | insert name value hvalue =>
    rw [handle]
    cases h : s.insert name value with
    | error e => exact hs
    | ok next => exact hs.insert name hvalue _ (yields_insert s name value next h)

/-- **Whatever can be reached is well-formed.** Whatever happens to a session that starts with the
empty store or with the store of a document, every matrix and every vector in its store is
well-formed, and so is whatever is then evaluated. -/
theorem wellFormed_handleAll (start : Store) (preferCramer : Bool)
    (hstart : start = .empty ∨ ∃ document, Store.ofJson document = .ok start)
    (events : List Event) :
    ((⟨start, preferCramer⟩ : Session).handleAll events).store.WellFormed ∧
      ∀ operation o,
        ((⟨start, preferCramer⟩ : Session).handleAll events).evaluate operation = .ok o →
          o.WellFormed := by
  have hs : start.WellFormed := by
    obtain rfl | ⟨document, hdocument⟩ := hstart
    · exact Store.wellFormed_empty
    · exact Store.yields_ofJson document start hdocument
  have hlast : ((⟨start, preferCramer⟩ : Session).handleAll events).store.WellFormed :=
    List.foldlRecOn events handle (motive := fun s => s.store.WellFormed) hs
      fun s hs event _ => wellFormed_handle hs event
  exact ⟨hlast, fun operation o ho => hlast.evaluate _ operation o ho⟩

/-- The document of a store with one vector. -/
def vectorDocument : Json :=
  .object [("vectors", .object [("v", .array [fractionToJson 2, fractionToJson (1 / 2)])])]

/-- A matrix is bound, a run fails after it has bound names, and a load fails. -/
def partlyFailing : List Event :=
  [.insert "B" (.matrix ⟨⟨1, 2⟩, [[1, 2]], true⟩) (show RatMatrix.WellFormed _ by decide),
    .input "C = transpose(B); D = C * B; x", .load (.object [("matrices", .null)])]

/-- A product is evaluated after events of which some fail. -/
theorem wellFormed_handleAll_of_document :
    ∃ start, Store.ofJson vectorDocument = .ok start ∧
      ((⟨start, true⟩ : Session).handleAll partlyFailing).store.WellFormed ∧
      ∃ o, ((⟨start, true⟩ : Session).handleAll partlyFailing).evaluate (.binary .times "D" "v") =
          .ok o ∧
        o.result = .vector ⟨[3, 6]⟩ ∧ o.WellFormed := by
  have hread : (Store.ofJson vectorDocument).toOption = some
      ⟨Vector.replicate 26 none, (Vector.replicate 26 none).set 21 (some ⟨[2, 1 / 2]⟩)⟩ := by
    decide +kernel
  have hstart := toOption_eq_some_iff.mp hread
  obtain ⟨hstore, heval⟩ := wellFormed_handleAll _ true (.inr ⟨_, hstart⟩) partlyFailing
  have hproduct : ((Session.handleAll ⟨⟨Vector.replicate 26 none,
      (Vector.replicate 26 none).set 21 (some ⟨[2, 1 / 2]⟩)⟩, true⟩ partlyFailing).evaluate
        (.binary .times "D" "v")).map Outcome.result = .ok (.vector ⟨[3, 6]⟩) := by
    decide +kernel
  obtain ⟨o, ho, hresult⟩ := map_eq_ok_iff.mp hproduct
  exact ⟨_, hstart, hstore, o, ho, hresult, heval _ _ ho⟩

end Session

end ExactLinear
