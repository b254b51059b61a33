import ExactLinear.Proofs.Turns

/-!
# What the store file holds during an interaction

An interactive process runs one input after the other in one session, which keeps what an input did
also if the input fails. The store file is written after inputs that succeed and bind a name, and
only then, so it holds the store as it was after the last such input (`Held.step`). An input that
fails after it has bound a name changes the session and leaves the file as it was: the two differ
until another input is saved. Without such inputs they never differ (`Session.SavedAt.store_eq`).
-/

namespace ExactLinear

namespace Session

/-! ## The inputs of a session -/

/-- The session after inputs, each of which keeps what it did also if it fails. -/
def after (s : Session) (inputs : List String) : Session :=
  inputs.foldl (fun s input => (s.run input).1) s

/-- Whether an input succeeds and binds a name. -/
def saves (s : Session) (input : String) : Bool :=
  match s.run input with
  | (_, .ok response) => !response.bound.isEmpty
  | (_, .error _) => false

/-- Whether an input fails after it has changed the store. -/
def failsPartway (s : Session) (input : String) : Bool :=
  match s.run input with
  | (_, .ok _) => false
  | (last, .error _) => last.store ≠ s.store

/-- Whether inputs, run one after the other, all have a property. -/
def along (p : Session → String → Bool) (s : Session) : List String → Bool
  | [] => true
  | input :: inputs => p s input && along p (s.run input).1 inputs

/-- Inputs were saved last after some of them: the last of these was saved, and none since then. -/
structure SavedAt (s : Session) (done rest : List String) : Prop where
  last : ∀ before input, done = before ++ [input] → (s.after before).saves input = true
  since : along (fun t input => !t.saves input) (s.after done) rest = true

variable {s last : Session} {input : String} {inputs done rest : List String}

theorem saves_of_ok {response : Response} (h : s.run input = (last, .ok response)) :
    s.saves input = !response.bound.isEmpty := by
  rw [saves, h]

theorem saves_of_error {e : SessionError} (h : s.run input = (last, .error e)) :
    s.saves input = false := by
  rw [saves, h]

theorem failsPartway_of_error {e : SessionError} (h : s.run input = (last, .error e)) :
    s.failsPartway input = decide (last.store ≠ s.store) := by
  rw [failsPartway, h]

@[simp]
theorem after_cons (s : Session) (input : String) (inputs : List String) :
    s.after (input :: inputs) = (s.run input).1.after inputs := rfl

theorem after_append (s : Session) (xs ys : List String) :
    s.after (xs ++ ys) = (s.after xs).after ys :=
  List.foldl_append

theorem along_append (p : Session → String → Bool) (s : Session) (xs ys : List String) :
    along p s (xs ++ ys) = (along p s xs && along p (s.after xs) ys) := by
  induction xs generalizing s with
  | nil => rfl
  | cons x xs ih => rw [List.cons_append, along, along, ih, after_cons, Bool.and_assoc]

theorem wellFormed_after (hs : s.store.WellFormed) (inputs : List String) :
    (s.after inputs).store.WellFormed :=
  List.foldlRecOn inputs _ (motive := fun s : Session => s.store.WellFormed) hs
    fun _ hs input _ => wellFormed_run hs input

theorem SavedAt.nil (s : Session) : s.SavedAt [] [] :=
  ⟨fun before input h => by simp at h, rfl⟩

/-- After an input that is saved nothing is left to save. -/
theorem SavedAt.of_saves (h : (s.after inputs).saves input = true) :
    s.SavedAt (inputs ++ [input]) [] where
  last before other hlast := by
    obtain ⟨rfl, hinput⟩ := List.append_inj' hlast rfl
    obtain rfl := List.singleton_inj.mp hinput
    exact h
  since := rfl

/-- An input that is not saved leaves the last saved one where it was. -/
theorem SavedAt.skip (h : s.SavedAt done rest)
    (hinput : (s.after (done ++ rest)).saves input = false) :
    s.SavedAt done (rest ++ [input]) where
  last := h.last
  since := by
    rw [along_append, h.since, ← after_append, along, along, hinput]
    rfl

/-- An input that is not saved leaves the store as it was, unless it fails partway. -/
theorem store_run_eq (hsaves : s.saves input = false) (hfails : s.failsPartway input = false) :
    (s.run input).1.store = s.store := by
  rcases hrun : s.run input with ⟨last, e | response⟩
  · rw [failsPartway_of_error hrun] at hfails
    simpa using hfails
  · rw [saves_of_ok hrun] at hsaves
    rw [eq_of_bound_eq_nil hrun (by simpa using hsaves)]

theorem store_after_eq (hsaves : along (fun t input => !t.saves input) s inputs = true)
    (hfails : along (fun t input => !t.failsPartway input) s inputs = true) :
    (s.after inputs).store = s.store := by
  induction inputs generalizing s with
  | nil => rfl
  | cons input inputs ih =>
    rw [along, Bool.and_eq_true, Bool.not_eq_true'] at hsaves hfails
    rw [after_cons, ih hsaves.2 hfails.2, store_run_eq hsaves.1 hfails.1]

/-- Where no input fails partway the store is the one that was saved last. -/
theorem SavedAt.store_eq (h : s.SavedAt done rest)
    (hfails : along (fun t input => !t.failsPartway input) s (done ++ rest) = true) :
    (s.after (done ++ rest)).store = (s.after done).store := by
  rw [along_append, Bool.and_eq_true] at hfails
  rw [after_append]
  exact store_after_eq h.since hfails.2

end Session

namespace CommandLine

variable {settings : Settings} {path : String} {d : Directory} {store : Store} {start : Session}
  {inputs : List String} {p : Process}

/-! ## A process and its file -/

/-- What a process keeps in memory and in its file after inputs. -/
structure Held (path : String) (start : Session) (inputs : List String) (p : Process) : Prop where
  writable : p.directory.Writable path
  session : p.session = start.after inputs
  file : ∃ done rest, inputs = done ++ rest ∧ start.SavedAt done rest ∧
    readStore p.directory.look path = .ok (start.after done).store

/-- A turn keeps the file at the input that was saved last. -/
theorem Held.step (h : Held path start inputs p) (hpath : settings.storePath = some path)
    (hstart : start.store.WellFormed) (input : String) :
    Held path start (inputs ++ [input]) (p.step settings input).1 := by
  obtain ⟨done, rest, rfl, hsaved, hread⟩ := h.file
  have hnext : start.after (done ++ rest ++ [input]) = (p.session.run input).1 := by
    rw [h.session, Session.after_append start (done ++ rest)]
    rfl
  have hskip (hsaves : p.session.saves input = false) :
      start.SavedAt done (rest ++ [input]) := by
    rw [h.session] at hsaves
    exact hsaved.skip hsaves
  obtain ⟨last, e, hrun, hstep⟩ | ⟨response, hrun, hbound, hstep⟩ |
      ⟨last, response, d', hrun, hbound, hwrite, hstep⟩ :=
    p.step_cases hpath h.writable input
  all_goals
    rw [hrun] at hnext
    rw [hstep]
  · have hsaves := Session.saves_of_error hrun
    exact ⟨h.writable, hnext.symm, done, rest ++ [input], List.append_assoc .., hskip hsaves, hread⟩
  · have hsaves : p.session.saves input = false := by simp [Session.saves_of_ok hrun, hbound]
    exact ⟨h.writable, hnext.symm, done, rest ++ [input], List.append_assoc .., hskip hsaves, hread⟩
  · have hsaves : (start.after (done ++ rest)).saves input = true := by
      simp [← h.session, Session.saves_of_ok hrun, hbound]
    have hlast := Session.wellFormed_after hstart (done ++ rest ++ [input])
    rw [hnext] at hlast
    refine ⟨Directory.writable_of_write? hwrite, hnext.symm, done ++ rest ++ [input], [],
      (List.append_nil _).symm, .of_saves hsaves, ?_⟩
    rw [hnext]
    exact readStore_look_of_write? hlast hwrite

/-- Blank lines and comments aside, a process takes a turn for each line. -/
theorem steps_eq_foldl (p : Process) (lines : List String) :
    p.steps settings lines =
      (lines.filterMap lineInput?).foldl (fun p input => (p.step settings input).1) p := by
  rw [List.foldl_filterMap]
  refine congrArg (fun f => lines.foldl f p) (funext₂ fun p line => ?_)
  cases lineInput? line <;> rfl

theorem Held.steps (hpath : settings.storePath = some path) (hstart : start.store.WellFormed)
    (h : Held path start [] p) (lines : List String) :
    Held path start (lines.filterMap lineInput?) (p.steps settings lines) := by
  rw [steps_eq_foldl]
  induction lines.filterMap lineInput? using List.reverseRecOn with
  | nil => exact h
  | append_singleton inputs input ih =>
    rw [List.foldl_concat]
    exact ih.step hpath hstart input

/-- An interactive process takes its turns in a session with the store of its store file. -/
theorem run_repl {args : List String} {env : String → Option String} {o : Options}
    (hargs : readArguments args = .ok ⟨o, .repl⟩)
    (hsettings : loadSettings o env d.path d.look = .ok settings)
    (hpath : settings.storePath = some path) (hread : readStore d.look path = .ok store)
    (text : String) :
    let p := Process.steps settings ⟨⟨store, settings.preferCramer⟩, d, "", []⟩ (textLines text)
    run args env text d = ⟨0, p.output, p.errors, p.directory⟩ :=
  run_eq_perform hargs hsettings (openSession_eq_ok hpath hread) text

/-- **What the store file holds during an interaction.** After any lines, the session in memory has
run all inputs, and the store file holds the store as it was after the last input that succeeded and
bound a name. As long as no input fails partway, that is the store in memory. -/
theorem readStore_steps (hpath : settings.storePath = some path) (hwrite : d.Writable path)
    (hread : readStore d.look path = .ok store) (lines : List String) :
    let start : Session := ⟨store, settings.preferCramer⟩
    let inputs := lines.filterMap lineInput?
    let p := Process.steps settings ⟨start, d, "", []⟩ lines
    p.session = start.after inputs ∧
      (∃ done rest, inputs = done ++ rest ∧ start.SavedAt done rest ∧
        readStore p.directory.look path = .ok (start.after done).store) ∧
      (Session.along (fun s input => !s.failsPartway input) start inputs = true →
        readStore p.directory.look path = .ok p.session.store) := by
  intro start inputs p
  have hstart : start.store.WellFormed := yields_readStore _ _ _ hread
  have hnone : Held path start [] ⟨start, d, "", []⟩ :=
    ⟨hwrite, rfl, [], [], rfl, .nil start, hread⟩
  have hheld : Held path start inputs p := hnone.steps hpath hstart lines
  refine ⟨hheld.session, hheld.file, fun hfails => ?_⟩
  obtain ⟨done, rest, hinputs, hsaved, hfile⟩ := hheld.file
  rw [hinputs] at hfails
  rw [hheld.session, hinputs, hsaved.store_eq hfails]
  exact hfile

/-- A matrix is bound and saved, and an input that fails leaves it as it is. -/
theorem readStore_steps_of_failing :
    ∃ p, p = Process.steps storing ⟨⟨.empty, false⟩, home, "", []⟩
        ["A = [[1]]", "# none", " Z ", "A"] ∧
      (∃ done rest, ["A = [[1]]", "Z", "A"] = done ++ rest ∧
        Session.SavedAt ⟨.empty, false⟩ done rest ∧
        readStore p.directory.look "store.json" = .ok (Session.after ⟨.empty, false⟩ done).store) ∧
      readStore p.directory.look "store.json" = .ok p.session.store ∧
      p.session.store.find? "A" = some (.matrix ⟨⟨1, 1⟩, [[1]], false⟩) := by
  have hinputs : ["A = [[1]]", "# none", " Z ", "A"].filterMap lineInput? =
      ["A = [[1]]", "Z", "A"] := by
    decide +kernel
  obtain ⟨-, hfile, hstep⟩ :=
    readStore_steps (show storing.storePath = _ from rfl) writable_home readStore_home
      ["A = [[1]]", "# none", " Z ", "A"]
  rw [hinputs] at hfile hstep
  exact ⟨_, rfl, hfile, hstep (by decide +kernel), by decide +kernel⟩

/-- A matrix is bound by an input that then fails: it is in memory, and the store file that should
hold it is not written. -/
theorem readStore_ne_of_failing_partway :
    ∃ p, p = Process.steps storing ⟨⟨.empty, false⟩, home, "", []⟩ ["A = [[1]]; Z"] ∧
      p.session.store.find? "A" = some (.matrix ⟨⟨1, 1⟩, [[1]], false⟩) ∧
      readStore p.directory.look "store.json" ≠ .ok p.session.store ∧
      run ["repl", "--store", "store.json"] (fun _ => none) "A = [[1]]; Z\n" home =
        ⟨0, p.output, p.errors, p.directory⟩ := by
  have hlines : textLines "A = [[1]]; Z\n" = ["A = [[1]]; Z"] := by decide +kernel
  have hargs : readArguments ["repl", "--store", "store.json"] =
      .ok ⟨{ Options.none with store := some "store.json" }, .repl⟩ := by
    decide +kernel
  have hsettings : loadSettings { Options.none with store := some "store.json" } (fun _ => none)
      home.path home.look = .ok storing := by
    decide +kernel
  have hrun := run_repl hargs hsettings rfl readStore_home "A = [[1]]; Z\n"
  rw [hlines] at hrun
  exact ⟨_, rfl, by decide +kernel, by decide +kernel, hrun⟩

end CommandLine

end ExactLinear
