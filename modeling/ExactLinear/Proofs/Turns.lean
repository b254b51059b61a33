import ExactLinear.CommandLine.Process
import ExactLinear.Proofs.ReachableStores
import ExactLinear.Proofs.StoreFile

/-!
# What a turn does to the session and to the store file

A turn runs one input, and all that it can do is said by `Process.step_cases`: the input fails, and
the directory stays as it is; or it succeeds without binding a name, and neither the session nor the
directory changes; or it succeeds and binds a name, and the store file is written. A file that was
written is read back as the store it was written for.
-/

namespace ExactLinear

namespace Session

variable {s last : Session} {text : String} {response : Response}

/-! ## Runs -/

theorem yields_preferCramer_execute (s : Session) (statement : Statement) :
    Yields (fun r => r.1.preferCramer = s.preferCramer) (s.execute statement) := by
  have hinsert : ∀ name value,
      Yields (fun next => next.preferCramer = s.preferCramer) (s.insert name value) :=
    fun name value => (Yields.trivial _).bind fun _ _ => .ok rfl
  cases statement with
  | list => exact .ok rfl
  | define name value => exact (hinsert name value).bind fun _ h => .ok h
  | run operation => exact (Yields.trivial _).bind fun _ _ => .ok rfl
  | bind name operation =>
    refine (Yields.trivial _).bind fun o _ => ?_
    cases o.result.stored? with
    | none => exact .error _
    | some value => exact (hinsert name value).bind fun _ h => .ok h

theorem preferCramer_executeAll (s : Session) (statements : List Statement) :
    (s.executeAll statements).1.preferCramer = s.preferCramer := by
  induction statements generalizing s with
  | nil => rfl
  | cons statement statements ih =>
    cases hstep : s.execute statement with
    | error e => rw [executeAll_cons_of_error hstep]
    | ok r =>
      rw [executeAll_cons_of_ok hstep]
      exact (ih r.1).trans (yields_preferCramer_execute s statement r hstep)

/-- A run does not change how systems are solved. -/
theorem preferCramer_run (s : Session) (text : String) :
    (s.run text).1.preferCramer = s.preferCramer := by
  unfold run
  split
  · rfl
  · exact preferCramer_executeAll s _

/-- Statements that report no binding leave the session as it was. -/
theorem yields_eq_executeAll (s : Session) (statements : List Statement) :
    Yields (fun responses => responses.flatMap (·.bound) = [] → (s.executeAll statements).1 = s)
      (s.executeAll statements).2 := by
  induction statements generalizing s with
  | nil => exact .ok fun _ => rfl
  | cons statement statements ih =>
    cases hstep : s.execute statement with
    | error e =>
      rw [executeAll_cons_of_error hstep]
      exact .error e
    | ok r =>
      rw [executeAll_cons_of_ok hstep]
      refine (ih r.1).map fun responses hrest hbound => ?_
      rw [List.flatMap_cons] at hbound
      obtain ⟨hhead, htail⟩ := List.append_eq_nil_iff.mp hbound
      obtain ⟨hreport, ⟨-, hsame⟩ | ⟨name, value, htarget, -⟩⟩ := yields_execute s statement r hstep
      · exact (hrest htail).trans hsame
      · rw [hreport, htarget] at hhead
        cases hhead

/-- A run that succeeds and reports no binding leaves the session as it was. -/
theorem eq_of_bound_eq_nil (hrun : s.run text = (last, .ok response))
    (hbound : response.bound = []) : last = s := by
  cases hread : Command.readProgram text with
  | error e =>
    rw [run, hread] at hrun
    cases hrun
  | ok statements =>
    obtain rfl | hne := eq_or_ne statements []
    · rw [run, hread] at hrun
      cases hrun
    obtain ⟨last', e, -, hfails⟩ | ⟨last', responses, hresponses, hall, hsucceeds⟩ :=
      run_of_readProgram (s := s) hread hne
    · rw [hfails] at hrun
      cases hrun
    · rw [hsucceeds] at hrun
      obtain ⟨rfl, hresponse⟩ := Prod.mk.inj hrun
      obtain rfl := Except.ok.inj hresponse
      have hsame := yields_eq_executeAll s statements responses (by rw [hall]) hbound
      rwa [hall] at hsame

end Session

namespace CommandLine

variable {settings : Settings} {path : String} {p : Process} {d d' : Directory} {store : Store}

/-! ## The store file -/

/-- A store that was saved is the one that is loaded. -/
theorem readStore_look_of_write? (hstore : store.WellFormed)
    (h : d.write? path (storeText store) = some d') : readStore d'.look path = .ok store := by
  rw [readStore_of_content? (Directory.content?_look_of_write? h) (Store.read?_pretty_toJson store),
    Store.ofJson_toJson hstore]
  rfl

/-- A store that is loaded is well-formed, also if there is no file. -/
theorem yields_readStore (look : String → FileState) (path : String) :
    Yields Store.WellFormed (readStore look path) := by
  unfold readStore
  split_ifs
  · exact .ok Store.wellFormed_empty
  · split
    · exact .error _
    · split
      · exact .error _
      · exact (Store.yields_ofJson _).mapError

/-! ## A process -/

/-- A process starts with the store of its store file. -/
theorem openSession_eq_ok (hpath : settings.storePath = some path) {look : String → FileState}
    (hread : readStore look path = .ok store) :
    openSession settings look = .ok ⟨store, settings.preferCramer⟩ := by
  rw [openSession, hpath]
  dsimp only
  rw [hread]
  rfl

/-- A process that has its settings and its session performs its action. -/
theorem run_eq_perform {args : List String} {env : String → Option String} {o : Options}
    {action : Action} {s : Session} (hargs : readArguments args = .ok ⟨o, action⟩)
    (hsettings : loadSettings o env d.path d.look = .ok settings)
    (hopen : openSession settings d.look = .ok s) (text : String) :
    run args env text d = perform settings s d text action := by
  rw [run, hargs]
  dsimp only
  rw [hsettings]
  dsimp only [bind, Except.bind]
  rw [hopen]
  rfl

/-! ## A turn -/

/-- All that a turn can do, where the store file can be written. -/
theorem Process.step_cases (hpath : settings.storePath = some path)
    (hwrite : p.directory.Writable path) (input : String) :
    (∃ last e, p.session.run input = (last, .error e) ∧
      p.step settings input =
        (⟨last, p.directory, p.output, p.errors ++ [report e.message]⟩, false)) ∨
    (∃ response, p.session.run input = (p.session, .ok response) ∧ response.bound = [] ∧
      p.step settings input =
        (⟨p.session, p.directory, p.output ++ responseText settings.showProcedure response,
          p.errors⟩, true)) ∨
    ∃ last response d', p.session.run input = (last, .ok response) ∧ response.bound ≠ [] ∧
      p.directory.write? path (storeText last.store) = some d' ∧
      p.step settings input =
        (⟨last, d', p.output ++ responseText settings.showProcedure response, p.errors⟩, true) := by
  rcases hrun : p.session.run input with ⟨last, e | response⟩
  · left
    refine ⟨last, e, rfl, ?_⟩
    rw [step, takeTurn, hrun]
    simp [complain]
  · right
    by_cases hbound : response.bound = []
    · obtain rfl := Session.eq_of_bound_eq_nil hrun hbound
      refine .inl ⟨response, rfl, hbound, ?_⟩
      rw [step, takeTurn, hrun]
      simp [hbound, save]
    · obtain ⟨d', hd'⟩ := hwrite (storeText last.store)
      refine .inr ⟨last, response, d', rfl, hbound, hd', ?_⟩
      rw [step, takeTurn, hrun]
      simp [hbound, hpath, save, hd']

/-! ## A first run -/

/-- Settings with a store file. -/
def storing : Settings := { Settings.standard with storePath := some "store.json" }

/-- A directory without files. -/
def home : Directory := ⟨["home"], []⟩

theorem writable_home : home.Writable "store.json" := fun _ =>
  ⟨_, Directory.write?_eq_some_iff.mpr
    ⟨["home", "store.json"], by decide +kernel, by decide +kernel, rfl⟩⟩

theorem readStore_home : readStore home.look "store.json" = .ok .empty := by decide +kernel

end CommandLine

end ExactLinear
