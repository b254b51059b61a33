import ExactLinear.Proofs.Turns

/-!
# A chain of processes is one session

Processes that each run one input, with the same settings and one after the other, keep in the store
file what one session keeps in memory, except that an input that fails contributes nothing: its
process ends without writing (`Evaluates.cases`), so the next one starts from what was there before.
One process keeps the file in step with the session (`Mirrors.step`), and so does a chain of them
(`Chain.mirrors`). Processes with the same options have the same settings, unless settings are read
from the store file (`Chain.evaluates_run`); so what holds of processes with the same settings holds
of those with the same flags and environment (`processes_refine_session`).
-/

namespace ExactLinear

namespace Session

/-! ## Inputs of which nothing is kept if they fail -/

/-- The session after an input that contributes nothing if it fails. -/
def attempt (s : Session) (input : String) : Session :=
  match s.run input with
  | (_, .error _) => s
  | (last, .ok _) => last

/-- The session after inputs that contribute nothing if they fail. -/
def attempts (s : Session) (inputs : List String) : Session := inputs.foldl attempt s

variable {s last : Session} {input : String}

theorem attempt_of_error {e : SessionError} (h : s.run input = (last, .error e)) :
    s.attempt input = s := by
  rw [attempt, h]

theorem attempt_of_ok {response : Response} (h : s.run input = (last, .ok response)) :
    s.attempt input = last := by
  rw [attempt, h]

@[simp]
theorem attempts_append_singleton (s : Session) (inputs : List String) (input : String) :
    s.attempts (inputs ++ [input]) = (s.attempts inputs).attempt input :=
  List.foldl_concat attempt s input inputs

@[simp]
theorem preferCramer_attempt (s : Session) (input : String) :
    (s.attempt input).preferCramer = s.preferCramer := by
  have hrun := preferCramer_run s input
  rcases h : s.run input with ⟨last, e | response⟩
  · rw [attempt_of_error h]
  · rw [attempt_of_ok h]
    rwa [h] at hrun

end Session

namespace CommandLine

variable {settings : Settings} {path : String} {d d' : Directory} {input : String}
  {inputs : List String} {exit : Exit} {s : Session}

/-! ## Settings -/

/-- The paths at which settings are looked for. -/
def settingsPaths (o : Options) (env : String → Option String) (workingDirectory : String) :
    List String :=
  match o.config with
  | some path => [path]
  | none => configPaths env workingDirectory

theorem findSettings_congr {look look' : String → FileState} {paths : List String}
    (h : ∀ p ∈ paths, look' p = look p) : findSettings look' paths = findSettings look paths := by
  have hfind : paths.find? (fun p => (look' p).isFile) = paths.find? fun p => (look p).isFile :=
    List.find?_congr fun p hp => by rw [h p hp]
  rw [findSettings, findSettings, hfind]
  cases hfound : paths.find? fun p => (look p).isFile with
  | none => rfl
  | some p =>
    dsimp only
    rw [readSettings, readSettings, h p (List.mem_of_find?_eq_some hfound)]

/-- The settings do not depend on a file that they are not read from. -/
theorem loadSettings_of_agreeOff {o : Options} {env : String → Option String}
    (h : Directory.AgreeOff path d d')
    (hapart : ∀ p ∈ settingsPaths o env d.path, d.locate? p ≠ d.locate? path) :
    loadSettings o env d'.path d'.look = loadSettings o env d.path d.look := by
  have hplace : d'.path = d.path := by rw [Directory.path, Directory.path, h.place]
  have hlook : ∀ p ∈ settingsPaths o env d.path, d'.look p = d.look p :=
    fun p hp => h.look p (hapart p hp)
  rw [loadSettings, loadSettings, hplace]
  unfold settingsPaths at hlook
  cases hconfig : o.config with
  | some p =>
    rw [hconfig] at hlook
    dsimp only
    rw [readSettings, readSettings, hlook p List.mem_cons_self]
  | none =>
    rw [hconfig] at hlook
    dsimp only
    rw [findSettings_congr hlook]

/-! ## One process -/

/-- A process with these settings runs an input in a directory and ends. -/
def Evaluates (settings : Settings) (d : Directory) (input : String) (exit : Exit) : Prop :=
  ∃ args env text options, readArguments args = .ok ⟨options, .eval input⟩ ∧
    loadSettings options env d.path d.look = .ok settings ∧ run args env text d = exit

/-- A store file that holds the store of a session, and that can be written. -/
structure Mirrors (settings : Settings) (path : String) (d : Directory) (s : Session) : Prop where
  writable : d.Writable path
  read : readStore d.look path = .ok s.store
  preferCramer : s.preferCramer = settings.preferCramer

/-- A process starts with the session that its store file holds. -/
theorem Evaluates.eq_perform (h : Evaluates settings d input exit)
    (hpath : settings.storePath = some path) (hd : Mirrors settings path d s) :
    exit = perform settings s d "" (.eval input) := by
  obtain ⟨args, env, text, options, hargs, hsettings, rfl⟩ := h
  have hopen := openSession_eq_ok hpath hd.read
  rw [← hd.preferCramer] at hopen
  exact run_eq_perform hargs hsettings hopen text

/-- All that a process can do with an input. -/
theorem Evaluates.cases (h : Evaluates settings d input exit)
    (hpath : settings.storePath = some path) (hd : Mirrors settings path d s) :
    (∃ last e, s.run input = (last, .error e) ∧ exit = ⟨1, "", [report e.message], d⟩) ∨
    (∃ response, s.run input = (s, .ok response) ∧
      exit = ⟨0, responseText settings.showProcedure response, [], d⟩) ∨
    ∃ last response d', s.run input = (last, .ok response) ∧
      d.write? path (storeText last.store) = some d' ∧
      exit = ⟨0, responseText settings.showProcedure response, [], d'⟩ := by
  rw [h.eq_perform hpath hd, perform]
  obtain ⟨last, e, hrun, hstep⟩ | ⟨response, hrun, -, hstep⟩ |
      ⟨last, response, d', hrun, -, hwrite, hstep⟩ :=
    Process.step_cases (p := ⟨s, d, "", []⟩) hpath hd.writable input
  · exact .inl ⟨last, e, hrun, by rw [hstep]; rfl⟩
  · exact .inr (.inl ⟨response, hrun, by rw [hstep]; simp⟩)
  · exact .inr (.inr ⟨last, response, d', hrun, hwrite, by rw [hstep]; simp⟩)

/-- A process ends with the response of the session or, if the input fails, leaves everything as it
was. -/
theorem Evaluates.response (h : Evaluates settings d input exit)
    (hpath : settings.storePath = some path) (hd : Mirrors settings path d s) :
    match (s.run input).2 with
    | .error e => exit = ⟨1, "", [report e.message], d⟩
    | .ok response =>
      exit.code = 0 ∧ exit.output = responseText settings.showProcedure response ∧
        exit.errors = [] := by
  obtain ⟨last, e, hrun, rfl⟩ | ⟨response, hrun, rfl⟩ | ⟨last, response, d', hrun, -, rfl⟩ :=
    h.cases hpath hd
  · rw [hrun]
  · rw [hrun]
    exact ⟨rfl, rfl, rfl⟩
  · rw [hrun]
    exact ⟨rfl, rfl, rfl⟩

/-- A process keeps the store file in step with the session. -/
theorem Mirrors.step (hd : Mirrors settings path d s) (hpath : settings.storePath = some path)
    (h : Evaluates settings d input exit) :
    Mirrors settings path exit.directory (s.attempt input) := by
  have hstore : s.store.WellFormed := yields_readStore _ _ _ hd.read
  have hprefer := (Session.preferCramer_attempt s input).trans hd.preferCramer
  obtain ⟨last, e, hrun, rfl⟩ | ⟨response, hrun, rfl⟩ | ⟨last, response, d', hrun, hwrite, rfl⟩ :=
    h.cases hpath hd
  · rw [Session.attempt_of_error hrun]
    exact hd
  · rw [Session.attempt_of_ok hrun]
    exact hd
  · have hlast : last.store.WellFormed := by
      have := Session.wellFormed_run hstore input
      rwa [hrun] at this
    rw [Session.attempt_of_ok hrun] at hprefer ⊢
    exact ⟨Directory.writable_of_write? hwrite, readStore_look_of_write? hlast hwrite, hprefer⟩

/-! ## Chains -/

/-- Processes with the same settings run inputs one after the other, each in the directory that the
one before it left behind. -/
inductive Chain (settings : Settings) (d : Directory) : List String → Directory → Prop where
  | nil : Chain settings d [] d
  | snoc {inputs : List String} {d' : Directory} {input : String} {exit : Exit}
      (before : Chain settings d inputs d') (last : Evaluates settings d' input exit) :
      Chain settings d (inputs ++ [input]) exit.directory

/-- A chain of processes keeps the store file in step with one session. -/
theorem Chain.mirrors (hchain : Chain settings d inputs d')
    (hpath : settings.storePath = some path) (hd : Mirrors settings path d s) :
    Mirrors settings path d' (s.attempts inputs) := by
  induction hchain with
  | nil => exact hd
  | snoc before last ih =>
    rw [Session.attempts_append_singleton]
    exact ih.step hpath last

/-- A chain of processes changes no file but the store file. -/
theorem Chain.agreeOff (hchain : Chain settings d inputs d')
    (hpath : settings.storePath = some path) (hd : Mirrors settings path d s) :
    Directory.AgreeOff path d d' := by
  induction hchain with
  | nil => exact .refl path d
  | snoc before last ih =>
    obtain ⟨_, _, _, rfl⟩ | ⟨_, _, rfl⟩ | ⟨_, _, d'', _, hwrite, rfl⟩ :=
      last.cases hpath (before.mirrors hpath hd)
    · exact ih
    · exact ih
    · exact ih.trans (Directory.agreeOff_of_write? hwrite)

/-- Processes with the same options have the same settings, if these are not read from the store
file. -/
theorem Chain.evaluates_run {o : Options} {env : String → Option String} {args : List String}
    (hchain : Chain settings d inputs d') (hpath : settings.storePath = some path)
    (hd : Mirrors settings path d s) (hsettings : loadSettings o env d.path d.look = .ok settings)
    (hapart : ∀ p ∈ settingsPaths o env d.path, d.locate? p ≠ d.locate? path)
    (hargs : readArguments args = .ok ⟨o, .eval input⟩) (text : String) :
    Evaluates settings d' input (run args env text d') :=
  ⟨args, env, text, o, hargs,
    (loadSettings_of_agreeOff (hchain.agreeOff hpath hd) hapart).trans hsettings, rfl⟩

/-- The directory after processes with the same flags and environment, one for each input. -/
def directoryAfter (flags : List String) (env : String → Option String) (d : Directory)
    (inputs : List String) : Directory :=
  inputs.foldl (fun d input => (run (flags ++ [input]) env "" d).directory) d

/-- Processes with the same flags and environment are a chain, if their settings are not read from
the store file. -/
theorem chain_directoryAfter {o : Options} {env : String → Option String} {flags : List String}
    (hpath : settings.storePath = some path) (hd : Mirrors settings path d s)
    (hsettings : loadSettings o env d.path d.look = .ok settings)
    (hapart : ∀ p ∈ settingsPaths o env d.path, d.locate? p ≠ d.locate? path)
    (hargs : ∀ input ∈ inputs, readArguments (flags ++ [input]) = .ok ⟨o, .eval input⟩) :
    Chain settings d inputs (directoryAfter flags env d inputs) := by
  induction inputs using List.reverseRecOn with
  | nil => exact .nil
  | append_singleton inputs input ih =>
    obtain ⟨hinputs, hinput⟩ := List.forall_mem_append.mp hargs
    have hchain := ih hinputs
    have hlast := hchain.evaluates_run hpath hd hsettings hapart
      (hinput input (List.mem_singleton_self _)) ""
    rw [directoryAfter, List.foldl_concat]
    exact hchain.snoc hlast

/-- Processes with the same flags and the same environment, one for each input, are one session, if
their settings are not read from the store file. -/
theorem processes_refine_session {store : Store} {o : Options} {env : String → Option String}
    {flags : List String} (hpath : settings.storePath = some path)
    (hwrite : d.Writable path) (hread : readStore d.look path = .ok store)
    (hsettings : loadSettings o env d.path d.look = .ok settings)
    (hapart : ∀ p ∈ settingsPaths o env d.path, d.locate? p ≠ d.locate? path)
    (hargs : ∀ line ∈ inputs ++ [input], readArguments (flags ++ [line]) = .ok ⟨o, .eval line⟩) :
    let s : Session := ⟨store, settings.preferCramer⟩
    let before := directoryAfter flags env d inputs
    let exit := run (flags ++ [input]) env "" before
    readStore before.look path = .ok (s.attempts inputs).store ∧
      readStore exit.directory.look path = .ok (s.attempts (inputs ++ [input])).store ∧
      match ((s.attempts inputs).run input).2 with
      | .error e => exit = ⟨1, "", [report e.message], before⟩
      | .ok response =>
        exit.code = 0 ∧ exit.output = responseText settings.showProcedure response ∧
          exit.errors = [] := by
  intro s before exit
  have hd : Mirrors settings path d s := ⟨hwrite, hread, rfl⟩
  obtain ⟨hinputs, hinput⟩ := List.forall_mem_append.mp hargs
  have hchain := chain_directoryAfter hpath hd hsettings hapart hinputs
  have hlast : Evaluates settings before input exit :=
    hchain.evaluates_run hpath hd hsettings hapart (hinput input (List.mem_singleton_self _)) ""
  have hbefore := hchain.mirrors hpath hd
  exact ⟨hbefore.read, ((hchain.snoc hlast).mirrors hpath hd).read, hlast.response hpath hbefore⟩

/-- Two processes that are given the store file, and the second of them shows what the first one has
bound. -/
theorem processes_refine_session_of_binding :
    let flags := ["eval", "--store", "store.json"]
    let before := directoryAfter flags (fun _ => none) home ["A = [[2]]"]
    (run (flags ++ ["A"]) (fun _ => none) "" before).output = "[ 2 ]\n" := by
  intro flags before
  have hsettings : loadSettings { Options.none with store := some "store.json" } (fun _ => none)
      home.path home.look = .ok storing := by decide +kernel
  have hargs : ∀ line ∈ ["A = [[2]]"] ++ ["A"], readArguments (flags ++ [line]) =
      .ok ⟨{ Options.none with store := some "store.json" }, .eval line⟩ := by decide +kernel
  obtain ⟨-, -, hexit⟩ := processes_refine_session rfl writable_home readStore_home hsettings
    (by decide +kernel) hargs
  have hresponse : (((⟨.empty, storing.preferCramer⟩ : Session).attempts
      ["A = [[2]]"]).run "A").2.map (responseText storing.showProcedure) = .ok "[ 2 ]\n" := by
    decide +kernel
  obtain ⟨response, hr, htext⟩ := map_eq_ok_iff.mp hresponse
  rw [hr] at hexit
  exact hexit.2.1.trans htext

end CommandLine

end ExactLinear
