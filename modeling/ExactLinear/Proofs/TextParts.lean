import ExactLinear.Proofs.Literals

/-!
# The parts of a text

A text consists of parts that are written one after the other. Where a part has only characters of
one class, and what follows it starts with a character that is not of the class, the text shows
where the part ends: two such texts are equal only if the parts are (`Ends.append_inj`). So the
digits of a number (`digits_append_inj`) and a rational (`Literal.write_append_inj`) can be told
from a text that goes on behind them.

Lines are the parts between line breaks. What is written as lines has these lines again
(`Text.lines_intercalate`), and texts that are written from different lines differ, if no line is
empty (`Text.intercalate_inj`). Words are the parts of a line between spaces, however many there
are.
-/

namespace ExactLinear

variable {p : Char → Bool} {front front' rest rest' : List Char}

/-! ## Numbers that end -/

/-- A front that consists of characters of a class, before a rest that does not start with one, is
known from the whole. -/
theorem Ends.append_inj (hrest : Ends p rest) (hrest' : Ends p rest')
    (hfront : ∀ c ∈ front, p c = true) (hfront' : ∀ c ∈ front', p c = true)
    (h : front ++ rest = front' ++ rest') : front = front' ∧ rest = rest' := by
  have heq : front = front' := by
    rw [← hrest.takeWhile_append hfront, h, hrest'.takeWhile_append hfront']
  subst heq
  exact ⟨rfl, List.append_cancel_left h⟩

theorem digits_injective : Function.Injective digits := by
  intro m n h
  rw [← ofDigitChars_digits m, h, ofDigitChars_digits]

theorem digits_append_inj {m n : ℕ} (hrest : Ends Char.isDigit rest)
    (hrest' : Ends Char.isDigit rest') (h : digits m ++ rest = digits n ++ rest') :
    m = n ∧ rest = rest' := by
  obtain ⟨hdigits, hrest⟩ := hrest.append_inj hrest' (fun _ => isDigit_of_mem_digits)
    (fun _ => isDigit_of_mem_digits) h
  exact ⟨digits_injective hdigits, hrest⟩

namespace Literal

/-- The character can be part of a rational as it is written. -/
def belongs (c : Char) : Bool := c.isDigit || c = '-' || c = '/'

theorem belongs_of_mem_write {r : ℚ} {c : Char} (h : c ∈ (write r).toList) : belongs c = true :=
  forall_mem_write (p := fun c => belongs c = true) (fun c hc => by simp [belongs, hc]) rfl rfl r c
    h

theorem toList_write_ne_nil (r : ℚ) : (write r).toList ≠ [] := by
  simp [toList_write, digits_ne_nil]

theorem write_injective : Function.Injective write := by
  intro r r' h
  have hread := read_write r
  rw [h, read_write] at hread
  exact (Except.ok.inj hread).symm

theorem write_append_inj {r r' : ℚ} (hrest : Ends belongs rest) (hrest' : Ends belongs rest')
    (h : (write r).toList ++ rest = (write r').toList ++ rest') : r = r' ∧ rest = rest' := by
  obtain ⟨hwrite, hrest⟩ := hrest.append_inj hrest' (fun _ => belongs_of_mem_write)
    (fun _ => belongs_of_mem_write) h
  exact ⟨write_injective (String.toList_injective hwrite), hrest⟩

end Literal

/-- A character that is neither the separator nor in a part is not in the whole. -/
theorem notMem_intercalate {c x : Char} (hne : c ≠ x) {parts : List (List Char)}
    (h : ∀ part ∈ parts, c ∉ part) : c ∉ [x].intercalate parts := by
  induction parts with
  | nil => simp [List.intercalate]
  | cons part parts ih =>
    obtain ⟨hpart, hparts⟩ := List.forall_mem_cons.mp h
    cases parts with
    | nil => simpa [List.intercalate] using hpart
    | cons next parts =>
      have hrest := ih hparts
      simp only [List.intercalate, List.intersperse_cons_cons, List.flatten_cons, List.mem_append,
        List.mem_singleton, not_or] at hrest ⊢
      exact ⟨hpart, hne, hrest⟩

/-! ## Lines -/

/-- The text contains no line break. -/
def OneLine (s : String) : Prop := '\n' ∉ s.toList

theorem OneLine.append {s t : String} (hs : OneLine s) (ht : OneLine t) : OneLine (s ++ t) := by
  rw [OneLine, String.toList_append, List.mem_append, not_or]
  exact ⟨hs, ht⟩

theorem oneLine_empty : OneLine "" := by simp [OneLine]

theorem oneLine_toString (n : ℕ) : OneLine (toString n) := by
  intro hmem
  rw [toList_toString_nat] at hmem
  exact Bool.noConfusion (isDigit_of_mem_digits hmem)

theorem oneLine_write (r : ℚ) : OneLine (Literal.write r) := fun hmem =>
  Literal.forall_mem_write (p := fun c => c ≠ '\n')
    (fun _ hc heq => Bool.noConfusion (heq ▸ hc)) (by decide) (by decide) r _ hmem rfl

namespace Text

/-- The lines of a text. -/
def lines (s : String) : List (List Char) := s.toList.splitOn '\n'

/-- What is written as lines has these lines. -/
theorem lines_intercalate {ls : List String} (hne : ls ≠ []) (h : ∀ l ∈ ls, OneLine l) :
    lines ("\n".intercalate ls) = ls.map String.toList := by
  rw [lines, String.toList_intercalate]
  refine List.splitOn_intercalate '\n' (fun l hl => ?_) (by simpa using hne)
  obtain ⟨s, hs, rfl⟩ := List.mem_map.mp hl
  exact h s hs

theorem filter_lines_intercalate {ls : List String} (h : ∀ l ∈ ls, OneLine l ∧ l ≠ "") :
    (lines ("\n".intercalate ls)).filter (· ≠ []) = ls.map String.toList := by
  by_cases hne : ls = []
  · subst hne
    rfl
  · rw [lines_intercalate hne fun l hl => (h l hl).1, List.filter_eq_self]
    intro l hl
    obtain ⟨s, hs, rfl⟩ := List.mem_map.mp hl
    simpa using (h s hs).2

theorem lines_append_newline (s t : String) : lines (s ++ "\n" ++ t) = lines s ++ lines t := by
  have htext : (s ++ "\n" ++ t).toList = s.toList ++ '\n' :: t.toList := by simp
  rw [lines, htext, List.splitOn_append_cons_self]
  rfl

theorem lines_eq_singleton {s : String} (h : OneLine s) : lines s = [s.toList] :=
  List.splitOn_eq_singleton h

/-- Lines that are not empty are known from the text. -/
theorem intercalate_inj {ls ls' : List String} (h : ∀ l ∈ ls, OneLine l ∧ l ≠ "")
    (h' : ∀ l ∈ ls', OneLine l ∧ l ≠ "") (heq : "\n".intercalate ls = "\n".intercalate ls') :
    ls = ls' := by
  have hlines := filter_lines_intercalate h
  rw [heq, filter_lines_intercalate h'] at hlines
  exact ((List.map_inj_right fun _ _ => String.toList_inj.mp).mp hlines).symm

/-! ## Words -/

/-- The words of a line: what stands between spaces. -/
def words (s : List Char) : List (List Char) := (s.splitOn ' ').filter (· ≠ [])

theorem words_append_space (front rest : List Char) :
    words (front ++ ' ' :: rest) = words front ++ words rest := by
  rw [words, List.splitOn_append_cons_self, List.filter_append]
  rfl

theorem words_space (rest : List Char) : words (' ' :: rest) = words rest :=
  words_append_space [] rest

theorem words_replicate_space (n : ℕ) (rest : List Char) :
    words (List.replicate n ' ' ++ rest) = words rest := by
  induction n with
  | zero => rfl
  | succ n ih => rw [List.replicate_succ, List.cons_append, words_space, ih]

theorem words_append (front : List Char) (h : Ends (· ≠ ' ') rest) :
    words (front ++ rest) = words front ++ words rest := by
  cases rest with
  | nil => simp [words]
  | cons c rest =>
    obtain rfl : c = ' ' := by simpa using h c rfl
    rw [words_append_space, words_space]

theorem words_intercalate {ws : List (List Char)} (hne : ws ≠ []) (h : ∀ w ∈ ws, ' ' ∉ w ∧ w ≠ []) :
    words ([' '].intercalate ws) = ws := by
  rw [words, List.splitOn_intercalate ' ' (fun w hw => (h w hw).1) hne, List.filter_eq_self]
  exact fun w hw => by simpa using (h w hw).2

theorem words_eq_singleton {word : List Char} (h : ' ' ∉ word) (hne : word ≠ []) :
    words word = [word] := by
  rw [words, List.splitOn_eq_singleton h]
  exact List.filter_cons_of_pos (by simpa using hne)

end Text

end ExactLinear
