import ExactLinear.Proofs.Bindings
import ExactLinear.Proofs.GrammarPrograms

/-!
# Programs line by line

A program followed by a line break and another program reads as the statements of the one followed
by the statements of the other, and runs as the one followed by the other. This holds of all texts,
also of malformed ones: what is wrong with one part cannot be mended by the other.

The rules of the grammar have no such cut in them. A rule could match across a line break, or take
too much and fail where a shorter match would have gone on. That they do neither is
`Command.readByGrammar_eq`: they read what is read from the pieces of a text, and the pieces of two
lines are those of the one and those of the other (`Command.readProgram_append`).
-/

namespace ExactLinear

namespace Command

variable {newline : String} {statements : List Statement}

/-- The texts that end a line. -/
def newlines : List String := ["\n", "\r", "\r\n"]

/-! ## Phrases -/

/-- A line break separates the phrases before it from those after it. -/
theorem phrasesOf?_append_newline (p q : List Char) (h : newline ∈ newlines) :
    phrasesOf? (p ++ newline.toList ++ q) =
      (phrasesOf? p).bind fun x => (phrasesOf? q).map (x ++ ·) := by
  rw [List.append_assoc]
  simp only [newlines, List.mem_cons, List.not_mem_nil, or_false] at h
  obtain rfl | rfl | rfl := h
  · exact phrasesOf?_append_cons p q (c := '\n') rfl
  · exact phrasesOf?_append_cons p q (c := '\r') rfl
  · -- the line between the two characters is empty
    have hempty : phrasesOf? ('\n' :: q) = phrasesOf? q := by
      have h := phrasesOf?_append_cons [] q (c := '\n') rfl
      simpa [phrasesOf?_nil] using h
    rw [← hempty]
    exact phrasesOf?_append_cons p ('\n' :: q) (c := '\r') rfl

/-! ## Statements -/

theorem readProgram_eq_ok_iff {text : String} : readProgram text = .ok statements ↔
    ∃ phrases, phrases? text = some phrases ∧ phrases.mapM Phrase.toStatement = .ok statements := by
  unfold readProgram
  cases phrases? text with
  | none => simp
  | some phrases => simp

/-- A text that is put together at a line break is a program if and only if its parts are, and then
has the statements of both. -/
theorem readProgram_append (p q : String) (h : newline ∈ newlines) :
    readProgram (p ++ newline ++ q) = .ok statements ↔
      ∃ first second, readProgram p = .ok first ∧ readProgram q = .ok second ∧
        statements = first ++ second := by
  simp_rw [readProgram_eq_ok_iff, phrases?_eq_phrasesOf?]
  rw [String.toList_append, String.toList_append, phrasesOf?_append_newline _ _ h]
  constructor
  · rintro ⟨phrases, hphrases, hstatements⟩
    obtain ⟨x, hx, hphrases⟩ := Option.bind_eq_some_iff.mp hphrases
    obtain ⟨y, hy, rfl⟩ := Option.map_eq_some_iff.mp hphrases
    obtain ⟨first, second, hfirst, hsecond, rfl⟩ := mapM_append_eq_ok_iff.mp hstatements
    exact ⟨first, second, ⟨x, hx, hfirst⟩, ⟨y, hy, hsecond⟩, rfl⟩
  · rintro ⟨first, second, ⟨x, hx, hfirst⟩, ⟨y, hy, hsecond⟩, rfl⟩
    refine ⟨x ++ y, ?_, mapM_append_eq_ok_iff.mpr ⟨first, second, hfirst, hsecond, rfl⟩⟩
    rw [hx, hy]
    rfl

theorem readByGrammar_eq_ok_iff {text : String} :
    readByGrammar text = .ok statements ↔ readProgram text = .ok statements := by
  rw [readByGrammar_eq]
  cases readProgram text <;> simp [Except.mapError]

/-- The same of the rules of the grammar. -/
theorem readByGrammar_append (p q : String) (h : newline ∈ newlines) :
    readByGrammar (p ++ newline ++ q) = .ok statements ↔
      ∃ first second, readByGrammar p = .ok first ∧ readByGrammar q = .ok second ∧
        statements = first ++ second := by
  simp only [readByGrammar_eq_ok_iff]
  exact readProgram_append p q h

end Command

namespace Session

open Command

/-- The response to two runs: the names that the first one bound stand in front. -/
theorem summarize_append (first : List Response) {second : List Response} (hsecond : second ≠ []) :
    summarize (first ++ second) =
      (summarize second).map fun r => { r with bound := first.flatMap (·.bound) ++ r.bound } := by
  have happend := List.append_ne_nil_of_right_ne_nil first hsecond
  rw [summarize_eq_ok hsecond, summarize_eq_ok happend,
    List.getLast_append_of_ne_nil happend hsecond, List.flatMap_append]
  rfl

/-- **Programs compose line by line.** For every text the reader that runs gives what the rules of
the grammar give. A text that is put together at a line break is a program by these rules if and
only if both of its parts are, and then has the statements of the one followed by those of the
other. If both parts have a statement, to run the text is to run the first part and then, if that
did not fail, the second one; the response is that of the second part, with the names that the first
one bound in front. -/
theorem run_append_newline (p q : String) {newline : String} (h : newline ∈ newlines) :
    (∀ text, readByGrammar text = (readProgram text).mapError .program) ∧
    (∀ statements, readByGrammar (p ++ newline ++ q) = .ok statements ↔
      ∃ first second, readByGrammar p = .ok first ∧ readByGrammar q = .ok second ∧
        statements = first ++ second) ∧
    ∀ (s : Session) (first second : List Statement),
      readByGrammar p = .ok first → readByGrammar q = .ok second → first ≠ [] → second ≠ [] →
        s.run (p ++ newline ++ q) =
          match s.run p with
          | (last, .error e) => (last, .error e)
          | (next, .ok response) =>
            ((next.run q).1,
              (next.run q).2.map fun r => { r with bound := response.bound ++ r.bound }) := by
  refine ⟨readByGrammar_eq, fun _ => readByGrammar_append p q h,
    fun s first second hp hq hfirst hsecond => ?_⟩
  rw [readByGrammar_eq_ok_iff] at hp hq
  have hread := (readProgram_append p q h).mpr ⟨first, second, hp, hq, rfl⟩
  have hrun : s.run (p ++ newline ++ q) =
      ((s.executeAll (first ++ second)).1, (s.executeAll (first ++ second)).2.bind summarize) := by
    rw [run, hread]
  rw [hrun, executeAll_append]
  obtain ⟨last, e, hall, hrun⟩ | ⟨next, responses, hresponses, hall, hrun⟩ :=
    run_of_readProgram (s := s) hp hfirst
  · rw [hall, hrun]
    rfl
  · rw [hall, hrun]
    dsimp only
    obtain ⟨last, e, hall, hrun⟩ | ⟨last, more, hmore, hall, hrun⟩ :=
      run_of_readProgram (s := next) hq hsecond
    · rw [hall, hrun]
      rfl
    · rw [hall, hrun, ← summarize_eq_ok hmore, ← summarize_append responses hmore]
      rfl

/-- Two programs in one text, where the second one uses what the first one has bound. -/
theorem run_append_newline_of_binding :
    readByGrammar "A = [[1, 2]]" = .ok [.define "A" (.matrix ⟨⟨1, 2⟩, [[1, 2]], false⟩)] ∧
      readByGrammar "B = 2*A; B" = .ok [.bind "B" (.scaled 2 "A"), .run (.show "B")] ∧
      (Session.empty.run ("A = [[1, 2]]" ++ "\r\n" ++ "B = 2*A; B")).2.map (·.bound) =
        .ok ["A", "B"] := by
  have hp : readByGrammar "A = [[1, 2]]" =
      .ok [.define "A" (.matrix ⟨⟨1, 2⟩, [[1, 2]], false⟩)] :=
    readByGrammar_eq_ok_iff.mpr (by decide +kernel)
  have hq : readByGrammar "B = 2*A; B" = .ok [.bind "B" (.scaled 2 "A"), .run (.show "B")] :=
    readByGrammar_eq_ok_iff.mpr (by decide +kernel)
  refine ⟨hp, hq, ?_⟩
  rw [(run_append_newline _ _ (by decide)).2.2 Session.empty _ _ hp hq (by simp) (by simp)]
  decide +kernel

end Session

end ExactLinear
