import ExactLinear.Command.Grammar
import ExactLinear.Command.Program
import ExactLinear.Proofs.Literals

/-!
# What parsing expressions match

The function `Peg.parse` as relations. Whatever a rule names next is matched behind the blanks and
the comment that stand there (`skipped`), and to skip them twice is to skip them once, so
`Peg.Takes` speaks of a match from any place before them. A sequence of parts then takes what its
parts take, one behind the other (`takes_parts`); a choice takes its second alternative only where
the first one fails.

A repetition stops only where its expression fails (`Peg.Repeats`). It never gives anything back, so
what follows it must match from there. Behind a list with commas this is no loss: what may follow
never starts with a comma (`takes_listed`).
-/

namespace ExactLinear.Command

variable {e f item close : Peg} {es : List Peg} {c : Char} {p : Char → Bool}
  {s t mid rest : List Char} {trees more : List Tree}

namespace Peg

/-! ## The operators -/

@[simp] theorem parse_char_nil (p : Char → Bool) : (char p).parse [] = none := rfl

@[simp] theorem parse_char_cons (p : Char → Bool) (c : Char) (s : List Char) :
    (char p).parse (c :: s) = if p c then some ([], s) else none := rfl

@[simp] theorem parse_singleton_cons (c d : Char) (s : List Char) :
    (text [c]).parse (d :: s) = if d = c then some ([], s) else none := by
  simp only [parse, List.isPrefixOf, Bool.and_true, beq_iff_eq, @eq_comm Char c d]
  rfl

@[simp] theorem parse_choice (e f : Peg) (s : List Char) :
    (choice e f).parse s = (e.parse s).or (f.parse s) := rfl

theorem parse_seq (e f : Peg) (s : List Char) : (seq e f).parse s =
    (e.parse s).bind fun front => (f.parse front.2).bind fun back =>
      some (front.1 ++ back.1, back.2) := rfl

@[simp] theorem parse_absent (e : Peg) (s : List Char) :
    (absent e).parse s = if (e.parse s).isSome then none else some ([], s) := rfl

theorem parse_text_eq_some_iff :
    (text t).parse s = some (trees, rest) ↔ s = t ++ rest ∧ trees = [] := by
  rw [parse]
  constructor
  · intro h
    split_ifs at h with hprefix
    cases h
    exact ⟨(List.prefix_iff_eq_append.mp (List.isPrefixOf_iff_prefix.mp hprefix)).symm, rfl⟩
  · rintro ⟨rfl, rfl⟩
    rw [if_pos (List.isPrefixOf_iff_prefix.mpr (List.prefix_append t rest)), List.drop_left]

theorem parse_seq_eq_some_iff : (seq e f).parse s = some (trees, rest) ↔
    ∃ front mid back, e.parse s = some (front, mid) ∧ f.parse mid = some (back, rest) ∧
      trees = front ++ back := by
  constructor
  · intro h
    obtain ⟨⟨front, mid⟩, hfront, h⟩ := Option.bind_eq_some_iff.mp h
    obtain ⟨⟨back, last⟩, hback, h⟩ := Option.bind_eq_some_iff.mp h
    cases h
    exact ⟨front, mid, back, hfront, hback, rfl⟩
  · rintro ⟨front, mid, back, hfront, hback, rfl⟩
    rw [parse_seq, hfront, Option.bind_some, hback]
    rfl

theorem parse_char_eq_some_iff :
    (char p).parse s = some (trees, rest) ↔ ∃ c, s = c :: rest ∧ p c = true ∧ trees = [] := by
  cases s with
  | nil => simp
  | cons c s => simp; grind

theorem parse_node_eq_some_iff {rule : Rule} : (node rule e).parse s = some (trees, rest) ↔
    ∃ children, e.parse s = some (children, rest) ∧
      trees = [⟨rule, String.ofList (s.take (s.length - rest.length)), children⟩] := by
  constructor
  · intro h
    obtain ⟨⟨children, last⟩, hchildren, h⟩ := Option.bind_eq_some_iff.mp h
    cases h
    exact ⟨children, hchildren, rfl⟩
  · rintro ⟨children, hchildren, rfl⟩
    rw [parse, hchildren]
    rfl

/-- The node of a rule without parts of its own is a leaf with the text that is taken. -/
theorem parse_leaf_eq_some_iff {rule : Rule} {P : List Char → List Char → Prop}
    (h : ∀ trees rest, e.parse s = some (trees, rest) ↔
      ∃ t, s = t ++ rest ∧ P t rest ∧ trees = []) :
    (node rule e).parse s = some (trees, rest) ↔
      ∃ t, s = t ++ rest ∧ P t rest ∧ trees = [.leaf rule (String.ofList t)] := by
  have htake : ∀ t : List Char, s = t ++ rest → s.take (s.length - rest.length) = t := by
    rintro t rfl
    rw [List.length_append, Nat.add_sub_cancel, List.take_left]
  rw [parse_node_eq_some_iff]
  constructor
  · rintro ⟨children, hchildren, rfl⟩
    obtain ⟨t, ht, hP, rfl⟩ := (h _ _).mp hchildren
    exact ⟨t, ht, hP, by rw [htake t ht]; rfl⟩
  · rintro ⟨t, ht, hP, rfl⟩
    exact ⟨[], (h _ _).mpr ⟨t, ht, hP, rfl⟩, by rw [htake t ht]; rfl⟩

theorem parse_empty (s : List Char) : empty.parse s = some ([], s) :=
  parse_text_eq_some_iff.mpr ⟨rfl, rfl⟩

/-- A repetition of single characters takes all that are in the class. -/
theorem parse_star_of_class (h : ∀ s, e.parse s = (char p).parse s) (s : List Char) :
    (star e).parse s = some ([], s.dropWhile p) := by
  rw [parse, Option.some.injEq]
  induction s with
  | nil => rw [repeated, h]; rfl
  | cons c s ih =>
    rw [repeated, h, parse, List.dropWhile_cons]
    cases p c with
    | false => rfl
    | true => simp [ih]

/-! ## What is left gets shorter -/

theorem length_repeated_le {step : List Char → Option Match}
    (h : ∀ s trees rest, step s = some (trees, rest) → rest.length ≤ s.length) (s : List Char) :
    (repeated step s).2.length ≤ s.length := by
  fun_induction repeated step s with
  | case1 s hstep => exact Nat.le_refl _
  | case2 s trees rest hstep hlt more last hmore ih =>
    rw [hmore] at ih
    exact Nat.le_trans ih (Nat.le_of_lt hlt)
  | case3 s trees rest hstep hlt => exact h s trees rest hstep

/-- No match makes the text longer. -/
theorem length_le_of_parse (h : e.parse s = some (trees, rest)) : rest.length ≤ s.length := by
  induction e generalizing s trees rest with
  | char p =>
    cases s with
    | nil => cases h
    | cons c s =>
      rw [parse] at h
      split_ifs at h
      cases h
      simp
  | text t =>
    obtain ⟨rfl, -⟩ := parse_text_eq_some_iff.mp h
    simp
  | finish =>
    rw [parse] at h
    split_ifs at h
    cases h
    exact Nat.le_refl _
  | seq e f ihe ihf =>
    obtain ⟨_, _, _, he, hf, -⟩ := parse_seq_eq_some_iff.mp h
    exact Nat.le_trans (ihf hf) (ihe he)
  | choice e f ihe ihf =>
    obtain he | ⟨-, hf⟩ := Option.or_eq_some_iff.mp h
    · exact ihe he
    · exact ihf hf
  | star e ih =>
    rw [parse] at h
    have hle := length_repeated_le (fun s trees rest => ih) s
    rwa [Option.some.inj h] at hle
  | absent e _ =>
    rw [parse] at h
    split_ifs at h
    cases h
    exact Nat.le_refl _
  | node rule e ih =>
    obtain ⟨_, he, -⟩ := parse_node_eq_some_iff.mp h
    exact ih he

/-- Every match takes a character or more. -/
def Consumes (e : Peg) : Prop :=
  ∀ s trees rest, e.parse s = some (trees, rest) → rest.length < s.length

theorem Consumes.seq (he : e.Consumes) (f : Peg) : (seq e f).Consumes := by
  intro s trees rest h
  obtain ⟨_, _, _, hfront, hback, -⟩ := parse_seq_eq_some_iff.mp h
  exact Nat.lt_of_le_of_lt (length_le_of_parse hback) (he _ _ _ hfront)

theorem Consumes.choice (he : e.Consumes) (hf : f.Consumes) : (choice e f).Consumes := by
  intro s trees rest h
  obtain h | ⟨-, h⟩ := Option.or_eq_some_iff.mp h
  · exact he _ _ _ h
  · exact hf _ _ _ h

theorem consumes_text (h : t ≠ []) : (text t).Consumes := by
  intro s trees rest hparse
  obtain ⟨rfl, -⟩ := parse_text_eq_some_iff.mp hparse
  rw [List.length_append]
  exact Nat.lt_add_of_pos_left (List.length_pos_iff.mpr h)

end Peg

open Peg Grammar

/-! ## Blanks and comments -/

/-- What follows blanks and a comment. -/
def skipped (s : List Char) : List Char :=
  match s.dropWhile isSpace with
  | '#' :: s => s.dropWhile (!isLineBreak ·)
  | s => s

/-- Blanks are skipped one by one. -/
theorem parse_whitespace (s : List Char) : whitespace.parse s = (char isSpace).parse s := by
  cases s with
  | nil => rfl
  | cons c s =>
    by_cases hspace : c = ' ' <;> by_cases htab : c = '\t' <;>
      simp [whitespace, isSpace, hspace, htab]

theorem isSome_parse_newline (c : Char) (s : List Char) :
    (newline.parse (c :: s)).isSome = isLineBreak c := by
  by_cases hfeed : c = '\n'
  · subst hfeed
    rfl
  · by_cases hreturn : c = '\r'
    · simp [newline, isLineBreak, hreturn]
    · have hnone : (text ['\r', '\n']).parse (c :: s) = none := by simp [parse, Ne.symm hreturn]
      simp [newline, isLineBreak, hfeed, hreturn, hnone]

/-- A comment goes on up to a line break. -/
theorem parse_comment (s : List Char) :
    comment.parse ('#' :: s) = some ([], s.dropWhile (!isLineBreak ·)) := by
  have hbody : ∀ s, (seq (absent newline) (char fun _ => true)).parse s =
      (char (!isLineBreak ·)).parse s := by
    intro s
    cases s with
    | nil => rfl
    | cons c s =>
      rw [parse_seq, parse_absent, isSome_parse_newline, parse_char_cons]
      cases isLineBreak c <;> rfl
  exact parse_seq_eq_some_iff.mpr ⟨[], s, [], rfl, parse_star_of_class hbody s, rfl⟩

theorem parse_comment_eq_none (h : s.head? ≠ some '#') : comment.parse s = none := by
  cases s with
  | nil => rfl
  | cons c s =>
    rw [comment, parse_seq, parse_singleton_cons, if_neg (by simpa using h)]
    rfl

/-- Blanks and comments may start with the character. -/
def isSkipped (c : Char) : Bool := isSpace c || c = '#'

theorem ends_dropWhile (p : Char → Bool) (s : List Char) : Ends p (s.dropWhile p) := by
  intro c hc
  have h := List.head?_dropWhile_not p s
  rw [Option.mem_def.mp hc] at h
  simpa using h

/-- A line break is neither a blank nor the start of a comment. -/
theorem ends_isSkipped_of_ends (h : Ends (!isLineBreak ·) s) : Ends isSkipped s := by
  intro c hc
  have hbreak : isLineBreak c = true := by simpa using h c hc
  simp only [isLineBreak, Bool.or_eq_true, decide_eq_true_eq] at hbreak
  obtain rfl | rfl := hbreak <;> rfl

theorem ends_skipped (s : List Char) : Ends isSkipped (skipped s) := by
  unfold skipped
  split
  · exact ends_isSkipped_of_ends (ends_dropWhile _ _)
  · rename_i hne
    intro c hc
    have hspace : isSpace c = false := ends_dropWhile isSpace s c hc
    rw [isSkipped, hspace, Bool.false_or, decide_eq_false_iff_not]
    rintro rfl
    obtain ⟨rest, hrest⟩ := List.head?_eq_some_iff.mp hc
    exact hne rest hrest

theorem skipped_of_ends (h : Ends isSkipped s) : skipped s = s := by
  have hspace : Ends isSpace s := fun c hc => (Bool.or_eq_false_iff.mp (h c hc)).1
  rw [skipped, hspace.dropWhile_eq_self]
  split
  · exact absurd (h '#' rfl) (by decide)
  · rfl

/-- Behind skipped blanks and comments there is nothing to skip. -/
theorem skipped_skipped (s : List Char) : skipped (skipped s) = skipped s :=
  skipped_of_ends (ends_skipped s)

theorem length_skipped_le (s : List Char) : (skipped s).length ≤ s.length := by
  have hspace := length_dropWhile_le isSpace s
  unfold skipped
  split
  · rename_i rest hrest
    have hbreak := length_dropWhile_le (!isLineBreak ·) rest
    rw [hrest, List.length_cons] at hspace
    omega
  · exact hspace

theorem parse_skip (s : List Char) : skip.parse s = some ([], skipped s) := by
  have hstar := parse_star_of_class parse_whitespace
  have hfail : ∀ s : List Char, s.head? ≠ some '#' →
      repeated (seq comment (star whitespace)).parse s = ([], s) := by
    intro s hs
    rw [repeated, parse_seq, parse_comment_eq_none hs]
    rfl
  refine parse_seq_eq_some_iff.mpr ⟨[], s.dropWhile isSpace, [], hstar s, ?_, rfl⟩
  rw [parse, Option.some.injEq, skipped]
  split
  · rename_i rest hrest
    -- behind a comment there is a line break or nothing
    have hends := ends_isSkipped_of_ends (ends_dropWhile (!isLineBreak ·) rest)
    have hspace : Ends isSpace (rest.dropWhile (!isLineBreak ·)) :=
      fun c hc => (Bool.or_eq_false_iff.mp (hends c hc)).1
    have hhash : (rest.dropWhile (!isLineBreak ·)).head? ≠ some '#' :=
      fun h => absurd (hends '#' h) (by decide)
    have hlt : (rest.dropWhile (!isLineBreak ·)).length < ('#' :: rest).length :=
      Nat.lt_succ_of_le (length_dropWhile_le _ rest)
    rw [hrest, repeated, parse_seq, parse_comment, Option.bind_some, hstar,
      hspace.dropWhile_eq_self]
    simp only [Option.bind_some]
    rw [if_pos hlt, hfail _ hhash]
    rfl
  · rename_i hne
    refine hfail _ fun h => ?_
    obtain ⟨rest, hrest⟩ := List.head?_eq_some_iff.mp h
    exact hne rest hrest

/-- What stands behind blanks and comments is matched there. -/
theorem parse_seq_skip (e : Peg) (s : List Char) : (seq skip e).parse s = e.parse (skipped s) := by
  rw [parse_seq, parse_skip, Option.bind_some]
  cases e.parse (skipped s) <;> rfl

/-! ## Matches behind blanks and comments -/

/-- The expression matches behind the blanks and comments at the front. -/
def Peg.Takes (e : Peg) (s : List Char) (trees : List Tree) (rest : List Char) : Prop :=
  e.parse (skipped s) = some (trees, rest)

/-- The expression does not match behind the blanks and comments at the front. -/
def Peg.Fails (e : Peg) (s : List Char) : Prop := e.parse (skipped s) = none

theorem takes_congr (h : skipped s = skipped t) :
    e.Takes s trees rest ↔ e.Takes t trees rest := by
  rw [Takes, Takes, h]

theorem takes_skipped_iff : e.Takes (skipped s) trees rest ↔ e.Takes s trees rest := by
  exact takes_congr (skipped_skipped s)

theorem fails_iff : e.Fails s ↔ ∀ trees rest, ¬e.Takes s trees rest := by
  simp only [Peg.Fails, Takes, Option.eq_none_iff_forall_ne_some, Prod.forall, ne_eq]

theorem takes_choice : (choice e f).Takes s trees rest ↔
    e.Takes s trees rest ∨ e.Fails s ∧ f.Takes s trees rest :=
  Option.or_eq_some_iff

theorem takes_opt : (opt e).Takes s trees rest ↔
    e.Takes s trees rest ∨ e.Fails s ∧ trees = [] ∧ rest = skipped s := by
  rw [opt, takes_choice, Takes, Takes, parse_empty]
  simp [eq_comm]

theorem takes_node {rule : Rule} (h : (node rule e).Takes s trees rest) :
    ∃ children text, e.Takes s children rest ∧ trees = [⟨rule, text, children⟩] := by
  obtain ⟨children, hchildren, htrees⟩ := parse_node_eq_some_iff.mp h
  exact ⟨children, _, hchildren, htrees⟩

theorem exists_takes_node (rule : Rule) (h : e.Takes s trees rest) :
    ∃ text, (node rule e).Takes s [⟨rule, text, trees⟩] rest :=
  ⟨_, parse_node_eq_some_iff.mpr ⟨trees, h, rfl⟩⟩

/-- Parts stand one behind the other, with blanks and comments between them. -/
theorem takes_parts : (parts (e :: f :: es)).Takes s trees rest ↔
    ∃ front mid back, e.Takes s front mid ∧ (parts (f :: es)).Takes mid back rest ∧
      trees = front ++ back := by
  refine parse_seq_eq_some_iff.trans ?_
  simp only [parse_seq_skip]
  rfl

/-- The start of a text takes nothing. -/
theorem parse_parts_empty : (parts (.empty :: f :: es)).parse s = some (trees, rest) ↔
    (parts (f :: es)).Takes s trees rest := by
  refine parse_seq_eq_some_iff.trans ?_
  simp only [parse_empty, Option.some.injEq, Prod.mk.injEq, parse_seq_skip]
  constructor
  · rintro ⟨_, _, back, ⟨rfl, rfl⟩, h, rfl⟩
    exact h
  · intro h
    exact ⟨[], s, trees, ⟨rfl, rfl⟩, h, rfl⟩

theorem takes_parts_singleton : (parts [e]).Takes s trees rest ↔ e.Takes s trees rest := Iff.rfl

theorem Peg.Fails.parts (h : e.Fails s) (es : List Peg) : (parts (e :: es)).Fails s := by
  cases es with
  | nil => exact h
  | cons f es =>
    refine fails_iff.mpr fun trees rest htakes => ?_
    obtain ⟨front, mid, -, hfront, -⟩ := takes_parts.mp htakes
    exact fails_iff.mp h front mid hfront

theorem Peg.Consumes.parts (h : e.Consumes) (es : List Peg) : (parts (e :: es)).Consumes := by
  cases es with
  | nil => exact h
  | cons f es => exact h.seq _

theorem Peg.Takes.length_lt (h : e.Takes s trees rest) (he : e.Consumes) :
    rest.length < s.length :=
  Nat.lt_of_lt_of_le (he _ _ _ h) (length_skipped_le s)

/-! ## Repetitions -/

/-- The expression matches again and again, and then fails. -/
inductive Peg.Repeats (e : Peg) : List Char → List Tree → List Char → Prop where
  | stop {s : List Char} (h : e.Fails s) : Repeats e s [] s
  | step {s mid rest : List Char} {trees more : List Tree} (h : e.Takes s trees mid)
      (hrest : Repeats e mid more rest) : Repeats e s (trees ++ more) rest

theorem Peg.Repeats.first (h : e.Repeats s trees rest) : e.Fails s ∧ rest = s ∨
    ∃ front mid back, e.Takes s front mid ∧ e.Repeats mid back rest := by
  cases h with
  | stop hfails => exact .inl ⟨hfails, rfl⟩
  | step htakes hrest => exact .inr ⟨_, _, _, htakes, hrest⟩

theorem repeats_repeated (he : e.Consumes) (s : List Char) :
    e.Repeats s (repeated (seq skip e).parse s).1 (repeated (seq skip e).parse s).2 := by
  induction hn : s.length using Nat.strong_induction_on generalizing s with
  | h n ih =>
    subst hn
    rw [repeated, parse_seq_skip]
    cases htakes : e.parse (skipped s) with
    | none => exact .stop htakes
    | some found =>
      obtain ⟨trees, rest⟩ := found
      have hlt : rest.length < s.length := Takes.length_lt htakes he
      simp only [if_pos hlt]
      exact .step htakes (ih _ hlt rest rfl)

theorem Peg.Repeats.unique (h : e.Repeats s trees rest) {trees' : List Tree} {rest' : List Char}
    (h' : e.Repeats s trees' rest') : trees = trees' ∧ rest = rest' := by
  induction h generalizing trees' rest' with
  | stop hfails =>
    cases h' with
    | stop => exact ⟨rfl, rfl⟩
    | step htakes => exact absurd htakes (fails_iff.mp hfails _ _)
  | step htakes _ ih =>
    cases h' with
    | stop hfails => exact absurd htakes (fails_iff.mp hfails _ _)
    | step htakes' hrest' =>
      rw [Takes, htakes] at htakes'
      cases htakes'
      obtain ⟨rfl, rfl⟩ := ih hrest'
      exact ⟨rfl, rfl⟩

theorem parse_star_eq_some_iff (he : e.Consumes) :
    (star (seq skip e)).parse s = some (trees, rest) ↔ e.Repeats s trees rest := by
  rw [parse, Option.some.injEq]
  constructor
  · intro h
    have hrepeats := repeats_repeated he s
    rwa [h] at hrepeats
  · intro h
    obtain ⟨htrees, hrest⟩ := (repeats_repeated he s).unique h
    exact Prod.ext htrees hrest

/-- A repetition is taken up to a place from which the same follows as from where it stops. -/
theorem repeats_of_takes_many (he : e.Consumes) (h : (many e).Takes s trees rest) :
    ∃ mid, e.Repeats s trees mid ∧ skipped mid = skipped rest := by
  obtain hloop | ⟨hfails, rfl, rfl⟩ := takes_opt.mp h
  · obtain ⟨front, mid, back, hfront, hback, rfl⟩ := parse_seq_eq_some_iff.mp hloop
    exact ⟨rest, .step hfront ((parse_star_eq_some_iff he).mp hback), rfl⟩
  · have hstop : e.Fails s := by
      rw [Peg.Fails, parse_seq] at hfails
      cases hfirst : e.parse (skipped s) with
      | none => exact hfirst
      | some first => simp [hfirst, parse] at hfails
    exact ⟨s, .stop hstop, (skipped_skipped s).symm⟩

theorem takes_many_of_repeats (he : e.Consumes) (h : e.Repeats s trees mid) :
    ∃ rest, (many e).Takes s trees rest ∧ skipped rest = skipped mid := by
  cases h with
  | stop hstop =>
    have hfails : (seq e (star (seq skip e))).Fails s := by
      rw [Peg.Fails, parse_seq, hstop]
      rfl
    exact ⟨skipped s, takes_opt.mpr (.inr ⟨hfails, rfl, rfl⟩), skipped_skipped s⟩
  | step hfirst hmore =>
    have hloop : (seq e (star (seq skip e))).Takes s _ mid :=
      parse_seq_eq_some_iff.mpr ⟨_, _, _, hfirst, (parse_star_eq_some_iff he).mpr hmore, rfl⟩
    exact ⟨mid, takes_opt.mpr (.inl hloop), rfl⟩

/-- **What follows a repetition must match where the repetition stops.** -/
theorem takes_many_parts (he : e.Consumes) : (parts (many e :: f :: es)).Takes s trees rest ↔
    ∃ front mid back, e.Repeats s front mid ∧ (parts (f :: es)).Takes mid back rest ∧
      trees = front ++ back := by
  rw [takes_parts]
  constructor
  · rintro ⟨front, last, back, hfront, hback, rfl⟩
    obtain ⟨mid, hrepeats, hmid⟩ := repeats_of_takes_many he hfront
    exact ⟨front, mid, back, hrepeats, (takes_congr hmid).mpr hback, rfl⟩
  · rintro ⟨front, mid, back, hfront, hback, rfl⟩
    obtain ⟨last, hlast, hmid⟩ := takes_many_of_repeats he hfront
    exact ⟨front, last, back, hlast, (takes_congr hmid).mpr hback, rfl⟩

/-! ## Lists with commas -/

/-- Items with commas between them, and behind the last one what ends the list. -/
inductive Peg.Listed (item close : Peg) : List Char → List Tree → List Char → Prop where
  | last {s mid rest : List Char} {trees more : List Tree} (hitem : item.Takes s trees mid)
      (hclose : close.Takes mid more rest) : Listed item close s (trees ++ more) rest
  | next {s mid next rest : List Char} {trees more : List Tree} (hitem : item.Takes s trees mid)
      (hcomma : (mark ',').Takes mid [] next) (hrest : Listed item close next more rest) :
    Listed item close s (trees ++ more) rest

theorem consumes_mark (c : Char) : (mark c).Consumes := consumes_text (List.cons_ne_nil c [])

theorem trees_of_takes_mark (h : (mark c).Takes s trees rest) : trees = [] :=
  (parse_text_eq_some_iff.mp h).2

/-- A list with commas is a repetition, where no list ends with a comma. -/
theorem takes_listed
    (hclose : ∀ s rest, (mark ',').Takes s [] rest → (parts (f :: es)).Fails s) :
    (parts (item :: many (parts [mark ',', item]) :: f :: es)).Takes s trees rest ↔
      Listed item (parts (f :: es)) s trees rest := by
  have he : (parts [mark ',', item]).Consumes := (consumes_mark ',').parts _
  rw [takes_parts]
  constructor
  · rintro ⟨front, mid, back, hfront, hback, rfl⟩
    obtain ⟨more, last, final, hmore, hfinal, rfl⟩ := (takes_many_parts he).mp hback
    clear hback
    induction hmore generalizing s front with
    | stop => exact .last hfront hfinal
    | step hstep _ ih =>
      obtain ⟨comma, next, trees, hcomma, hitem, rfl⟩ := takes_parts.mp hstep
      obtain rfl := trees_of_takes_mark hcomma
      rw [List.nil_append, List.append_assoc]
      exact .next hfront hcomma (ih _ hitem hfinal)
  · intro h
    induction h with
    | last hitem hclosed =>
      have hstop : (parts [mark ',', item]).Fails _ := Fails.parts (fails_iff.mpr
        fun trees rest hcomma => by
          obtain rfl := trees_of_takes_mark hcomma
          exact fails_iff.mp (hclose _ _ hcomma) _ _ hclosed) _
      exact ⟨_, _, _, hitem, (takes_many_parts he).mpr ⟨[], _, _, .stop hstop, hclosed, rfl⟩, rfl⟩
    | next hitem hcomma _ ih =>
      obtain ⟨front, mid, back, hfront, hback, rfl⟩ := ih
      obtain ⟨more, last, final, hmore, hfinal, rfl⟩ := (takes_many_parts he).mp hback
      have hstep : (parts [mark ',', item]).Takes _ _ _ :=
        takes_parts.mpr ⟨[], _, front, hcomma, takes_parts_singleton.mpr hfront, rfl⟩
      have hlist := (takes_many_parts he).mpr ⟨_, _, _, .step hstep hmore, hfinal, rfl⟩
      refine ⟨_, _, _, hitem, hlist, ?_⟩
      rw [List.nil_append, List.append_assoc]

end ExactLinear.Command
