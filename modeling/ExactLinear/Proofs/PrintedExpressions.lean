import Mathlib.Algebra.Order.Ring.Unbundled.Rat
import ExactLinear.Solution
import ExactLinear.Proofs.TextParts

/-!
# Different expressions print differently

An expression prints without the terms that are zero, without the coefficient one and without a sign
at its front, and still its text determines what is left of it. A term ends before a blank or at the
end of the text, so equal texts start with equal terms (`signedTerm_append_inj`), and then the rest
of the terms agrees by induction (`termsText_inj`). A constant at the front is told from a term by
the character behind its digits: a blank or nothing behind a constant, a dot or the letter of a
variable in a term (`text_eq_text_iff`).
-/

namespace ExactLinear

variable {rest rest' : List Char} {v w : ℕ} {a b : ℚ}

/-! ## Variables and numbers in front of a rest -/

theorem toList_variableName (i : ℕ) : (variableName i).toList = 'x' :: '_' :: digits (i + 1) := by
  rw [variableName, String.toList_append, toList_toString_nat]
  rfl

theorem variableName_append_inj (hrest : Ends Char.isDigit rest) (hrest' : Ends Char.isDigit rest')
    (h : (variableName v).toList ++ rest = (variableName w).toList ++ rest') :
    v = w ∧ rest = rest' := by
  rw [toList_variableName, toList_variableName] at h
  obtain ⟨hvar, hrest⟩ := digits_append_inj hrest hrest' (List.cons.inj (List.cons.inj h).2).2
  exact ⟨Nat.succ_injective hvar, hrest⟩

/-- A rational that is not negative starts with a digit. -/
theorem Literal.exists_write_eq_cons (h : 0 ≤ a) :
    ∃ c tail, (write a).toList = c :: tail ∧ c.isDigit = true := by
  obtain ⟨c, more, hdigits, hc⟩ := exists_digits_eq_cons a.num.natAbs
  have hsign : ¬ a.num < 0 := not_lt.mpr (Rat.num_nonneg.mpr h)
  rw [toList_write, minus, if_neg (by simpa using hsign), hdigits]
  exact ⟨c, _, rfl, hc⟩

namespace AffineExpr

/-! ## Terms -/

theorem toList_termText_of_abs_eq_one (v : ℕ) (h : a.abs = 1) :
    (termText v a).toList = (variableName v).toList := by
  rw [termText, if_pos h, String.toList_append]
  rfl

theorem toList_termText_of_abs_ne_one (v : ℕ) (h : a.abs ≠ 1) :
    (termText v a).toList = (Literal.write a.abs).toList ++ '·' :: (variableName v).toList := by
  rw [termText, if_neg h, String.toList_append, String.toList_append, List.append_assoc]
  rfl

/-- A term starts with a digit, or with the letter of a variable. -/
theorem exists_termText_eq_cons (v : ℕ) (a : ℚ) :
    ∃ c tail, (termText v a).toList = c :: tail ∧ (c.isDigit = true ∨ c = 'x') := by
  by_cases ha : a.abs = 1
  · rw [toList_termText_of_abs_eq_one v ha, toList_variableName]
    exact ⟨_, _, rfl, .inr rfl⟩
  · obtain ⟨c, tail, hwrite, hc⟩ := Literal.exists_write_eq_cons (Rat.abs_nonneg (x := a))
    rw [toList_termText_of_abs_ne_one v ha, hwrite]
    exact ⟨_, _, rfl, .inl hc⟩

/-- A term with a coefficient does not look like one without. -/
theorem termText_append_ne (ha : a.abs = 1) (hb : b.abs ≠ 1) :
    (termText v a).toList ++ rest ≠ (termText w b).toList ++ rest' := by
  obtain ⟨c, tail, hwrite, hc⟩ := Literal.exists_write_eq_cons (Rat.abs_nonneg (x := b))
  rw [toList_termText_of_abs_eq_one v ha, toList_termText_of_abs_ne_one w hb, toList_variableName,
    hwrite]
  intro h
  rw [← (List.cons.inj h).1] at hc
  cases hc

/-- A term that ends is known from the text, up to its sign. -/
theorem termText_append_inj (hrest : Ends Char.isDigit rest) (hrest' : Ends Char.isDigit rest')
    (h : (termText v a).toList ++ rest = (termText w b).toList ++ rest') :
    v = w ∧ a.abs = b.abs ∧ rest = rest' := by
  by_cases ha : a.abs = 1 <;> by_cases hb : b.abs = 1
  · rw [toList_termText_of_abs_eq_one v ha, toList_termText_of_abs_eq_one w hb] at h
    obtain ⟨hvar, hrest⟩ := variableName_append_inj hrest hrest' h
    exact ⟨hvar, ha.trans hb.symm, hrest⟩
  · exact absurd h (termText_append_ne ha hb)
  · exact absurd h.symm (termText_append_ne hb ha)
  · rw [toList_termText_of_abs_ne_one v ha, toList_termText_of_abs_ne_one w hb, List.append_assoc,
      List.append_assoc] at h
    obtain ⟨habs, h⟩ := Literal.write_append_inj (.cons rfl _) (.cons rfl _) h
    obtain ⟨hvar, hrest⟩ := variableName_append_inj hrest hrest' (List.cons.inj h).2
    exact ⟨hvar, habs, hrest⟩

/-! ## Signs -/

theorem toList_signText_false (a : ℚ) :
    (signText false a).toList = [' ', if a < 0 then '-' else '+', ' '] := by
  rw [signText, if_neg Bool.false_ne_true]
  split_ifs <;> rfl

theorem toList_signText_true (a : ℚ) : (signText true a).toList = minus (a < 0) := by
  by_cases ha : a < 0 <;> simp [signText, minus, ha]

/-- A rational is known from its sign and its absolute value. -/
theorem eq_of_abs_eq (hsign : a < 0 ↔ b < 0) (habs : a.abs = b.abs) : a = b := by
  rcases lt_or_ge a 0 with ha | ha
  · rw [Rat.abs_of_nonpos ha.le, Rat.abs_of_nonpos (hsign.mp ha).le] at habs
    exact neg_injective habs
  · have hb : 0 ≤ b := not_lt.mp fun hb => ha.not_gt (hsign.mpr hb)
    rwa [Rat.abs_of_nonneg ha, Rat.abs_of_nonneg hb] at habs

/-- A text cannot start with a negative term and with one that is not. -/
theorem neg_of_append_eq {front : Bool}
    (h : (signText front a).toList ++ ((termText v a).toList ++ rest) =
      (signText front b).toList ++ ((termText w b).toList ++ rest')) (ha : a < 0) : b < 0 := by
  by_contra hb
  cases front with
  | false =>
    rw [toList_signText_false, toList_signText_false, if_pos ha, if_neg hb] at h
    exact absurd (List.cons.inj (List.cons.inj h).2).1 (by decide)
  | true =>
    obtain ⟨c, tail, hterm, hc⟩ := exists_termText_eq_cons w b
    rw [toList_signText_true, toList_signText_true, hterm, decide_eq_true ha, decide_eq_false hb]
      at h
    obtain rfl : '-' = c := (List.cons.inj h).1
    exact absurd hc (by decide)

/-- A term with its sign, if it ends, is known from the text. -/
theorem signedTerm_append_inj {front : Bool} (hrest : Ends Char.isDigit rest)
    (hrest' : Ends Char.isDigit rest')
    (h : (signText front a).toList ++ ((termText v a).toList ++ rest) =
      (signText front b).toList ++ ((termText w b).toList ++ rest')) :
    v = w ∧ a = b ∧ rest = rest' := by
  have hsign : a < 0 ↔ b < 0 := ⟨neg_of_append_eq h, neg_of_append_eq h.symm⟩
  have htext : signText front a = signText front b := by
    simp only [signText, hsign]
  rw [htext] at h
  obtain ⟨hvar, habs, hrest⟩ := termText_append_inj hrest hrest' (List.append_cancel_left h)
  exact ⟨hvar, eq_of_abs_eq hsign habs, hrest⟩

/-! ## Sums of terms -/

/-- The terms that are printed. -/
def nonzeroTerms (terms : List (ℕ × ℚ)) : List (ℕ × ℚ) := terms.filter (·.2 ≠ 0)

variable {terms terms' : List (ℕ × ℚ)}

theorem forall_mem_nonzeroTerms (terms : List (ℕ × ℚ)) : ∀ t ∈ nonzeroTerms terms, t.2 ≠ 0 :=
  fun _ ht => of_decide_eq_true (List.mem_filter.mp ht).2

theorem termsText_nonzeroTerms (front : Bool) (terms : List (ℕ × ℚ)) :
    termsText front (nonzeroTerms terms) = termsText front terms := by
  induction terms generalizing front with
  | nil => rfl
  | cons t terms ih =>
    by_cases ht : t.2 = 0
    · rw [termsText, if_pos ht, ← ih, nonzeroTerms, List.filter_cons_of_neg (by simpa using ht)]
      rfl
    · rw [termsText, if_neg ht, ← ih, nonzeroTerms, List.filter_cons_of_pos (by simpa using ht),
        termsText, if_neg ht]
      rfl

theorem toList_termsText_cons {front : Bool} {t : ℕ × ℚ} (ht : t.2 ≠ 0) :
    (termsText front (t :: terms)).toList =
      (signText front t.2).toList ++
        ((termText t.1 t.2).toList ++ (termsText false terms).toList) := by
  rw [termsText, if_neg ht, String.toList_append, String.toList_append, List.append_assoc]

/-- Further terms start with a blank, if there are any. -/
theorem ends_termsText {p : Char → Bool} (hp : p ' ' = false) (terms : List (ℕ × ℚ)) :
    Ends p (termsText false terms).toList := by
  induction terms with
  | nil => exact .nil p
  | cons t terms ih =>
    by_cases ht : t.2 = 0
    · rwa [termsText, if_pos ht]
    · rw [toList_termsText_cons ht, toList_signText_false]
      exact .cons hp _

theorem termsText_cons_ne {front : Bool} {t : ℕ × ℚ} (ht : t.2 ≠ 0) :
    termsText front (t :: terms) ≠ "" := by
  obtain ⟨c, tail, hterm, -⟩ := exists_termText_eq_cons t.1 t.2
  intro h
  have hlist := congrArg String.toList h
  rw [toList_termsText_cons ht, hterm] at hlist
  simp at hlist

/-- Terms other than zero are known from their text. -/
theorem termsText_inj {front : Bool} (hterms : ∀ t ∈ terms, t.2 ≠ 0)
    (hterms' : ∀ t ∈ terms', t.2 ≠ 0) (h : termsText front terms = termsText front terms') :
    terms = terms' := by
  induction terms generalizing front terms' with
  | nil =>
    cases terms' with
    | nil => rfl
    | cons t' terms' => exact absurd h.symm (termsText_cons_ne (hterms' t' List.mem_cons_self))
  | cons t terms ih =>
    obtain ⟨ht, hterms⟩ := List.forall_mem_cons.mp hterms
    cases terms' with
    | nil => exact absurd h (termsText_cons_ne ht)
    | cons t' terms' =>
      obtain ⟨ht', hterms'⟩ := List.forall_mem_cons.mp hterms'
      have hlist := congrArg String.toList h
      rw [toList_termsText_cons ht, toList_termsText_cons ht'] at hlist
      obtain ⟨hvar, hcoefficient, hrest⟩ :=
        signedTerm_append_inj (ends_termsText rfl terms) (ends_termsText rfl terms') hlist
      rw [ih hterms hterms' (String.toList_injective hrest), Prod.ext hvar hcoefficient]

/-! ## Expressions -/

/-- Digits that begin a sum without a constant are followed by a dot or the letter of a variable. -/
theorem exists_termsText_eq_append {t : ℕ × ℚ} (ht : t.2 ≠ 0) (terms : List (ℕ × ℚ)) :
    ∃ front c back, (termsText true (t :: terms)).toList = front ++ c :: back ∧
      (∀ d ∈ front, Literal.belongs d = true) ∧ (c = '·' ∨ c = 'x') := by
  have hsign : ∀ d ∈ (signText true t.2).toList, Literal.belongs d = true := by
    rw [toList_signText_true, minus]
    split_ifs
    · exact List.forall_mem_singleton.mpr rfl
    · exact List.forall_mem_nil _
  rw [toList_termsText_cons ht]
  by_cases habs : t.2.abs = 1
  · rw [toList_termText_of_abs_eq_one t.1 habs, toList_variableName]
    exact ⟨_, _, _, rfl, hsign, .inr rfl⟩
  · rw [toList_termText_of_abs_ne_one t.1 habs, List.append_assoc, ← List.append_assoc]
    refine ⟨_, _, _, rfl, fun d hd => ?_, .inl rfl⟩
    obtain hd | hd := List.mem_append.mp hd
    · exact hsign d hd
    · exact Literal.belongs_of_mem_write hd

/-- A sum that starts with a constant is not one that starts with a term. -/
theorem write_append_termsText_ne (r : ℚ) {t : ℕ × ℚ} (ht : t.2 ≠ 0) :
    Literal.write r ++ termsText false terms ≠ termsText true (t :: terms') := by
  obtain ⟨front, c, back, hfront, hbelongs, hc⟩ := exists_termsText_eq_append ht terms'
  have hend : Ends Literal.belongs (c :: back) := .cons (by rcases hc with rfl | rfl <;> rfl) back
  intro h
  have hlist := congrArg String.toList h
  rw [String.toList_append, hfront] at hlist
  obtain ⟨-, hrest⟩ := (ends_termsText rfl terms).append_inj hend
    (fun _ => Literal.belongs_of_mem_write) hbelongs hlist
  have hblank := ends_termsText (p := (· != ' ')) rfl terms c (by rw [hrest]; rfl)
  rcases hc with rfl | rfl <;> cases hblank

/-- An expression that has a constant, or nothing else, prints its constant first. -/
theorem text_eq_write_append {e : AffineExpr} (h : e.constant ≠ 0 ∨ nonzeroTerms e.terms = []) :
    e.text = Literal.write e.constant ++ termsText false (nonzeroTerms e.terms) := by
  unfold text
  dsimp only
  by_cases hconstant : e.constant = 0
  · rw [if_pos hconstant, ← termsText_nonzeroTerms, h.resolve_left (not_not.mpr hconstant),
      hconstant]
    rfl
  · rw [if_neg hconstant, termsText_nonzeroTerms]

theorem text_eq_termsText {e : AffineExpr} (hconstant : e.constant = 0)
    (hterms : nonzeroTerms e.terms ≠ []) : e.text = termsText true (nonzeroTerms e.terms) := by
  obtain ⟨t, terms, hcons⟩ := List.exists_cons_of_ne_nil hterms
  have ht : t.2 ≠ 0 := forall_mem_nonzeroTerms e.terms t (hcons ▸ List.mem_cons_self)
  unfold text
  dsimp only
  rw [if_pos hconstant, ← termsText_nonzeroTerms, hcons]
  exact if_neg (by simpa using termsText_cons_ne ht)

/-- A sum with a constant, or without any term, does not print as one that has only terms. -/
theorem text_ne_text {e e' : AffineExpr} (h : e.constant ≠ 0 ∨ nonzeroTerms e.terms = [])
    (hconstant : e'.constant = 0) (hterms : nonzeroTerms e'.terms ≠ []) : e.text ≠ e'.text := by
  obtain ⟨t, terms, hcons⟩ := List.exists_cons_of_ne_nil hterms
  have ht : t.2 ≠ 0 := forall_mem_nonzeroTerms e'.terms t (hcons ▸ List.mem_cons_self)
  rw [text_eq_write_append h, text_eq_termsText hconstant hterms, hcons]
  exact write_append_termsText_ne e.constant ht

/-- Expressions print alike when they have the same constant and the same terms other than zero. -/
theorem text_eq_text_iff {e e' : AffineExpr} : e.text = e'.text ↔
    e.constant = e'.constant ∧ nonzeroTerms e.terms = nonzeroTerms e'.terms := by
  constructor
  · intro heq
    by_cases h : e.constant ≠ 0 ∨ nonzeroTerms e.terms = [] <;>
      by_cases h' : e'.constant ≠ 0 ∨ nonzeroTerms e'.terms = []
    · rw [text_eq_write_append h, text_eq_write_append h'] at heq
      have hlist := congrArg String.toList heq
      rw [String.toList_append, String.toList_append] at hlist
      obtain ⟨hconstant, hrest⟩ :=
        Literal.write_append_inj (ends_termsText rfl _) (ends_termsText rfl _) hlist
      exact ⟨hconstant, termsText_inj (forall_mem_nonzeroTerms _) (forall_mem_nonzeroTerms _)
        (String.toList_injective hrest)⟩
    · obtain ⟨hconstant, hterms⟩ := not_or.mp h'
      exact absurd heq (text_ne_text h (not_not.mp hconstant) hterms)
    · obtain ⟨hconstant, hterms⟩ := not_or.mp h
      exact absurd heq.symm (text_ne_text h' (not_not.mp hconstant) hterms)
    · obtain ⟨hconstant, hterms⟩ := not_or.mp h
      obtain ⟨hconstant', hterms'⟩ := not_or.mp h'
      rw [text_eq_termsText (not_not.mp hconstant) hterms,
        text_eq_termsText (not_not.mp hconstant') hterms'] at heq
      exact ⟨(not_not.mp hconstant).trans (not_not.mp hconstant').symm,
        termsText_inj (forall_mem_nonzeroTerms _) (forall_mem_nonzeroTerms _) heq⟩
  · rintro ⟨hconstant, hterms⟩
    unfold text
    dsimp only
    rw [hconstant, ← termsText_nonzeroTerms true e.terms, ← termsText_nonzeroTerms false e.terms,
      hterms, termsText_nonzeroTerms, termsText_nonzeroTerms]

/-- Expressions without terms that are zero are known from their texts. -/
theorem text_inj {e e' : AffineExpr} (he : ∀ t ∈ e.terms, t.2 ≠ 0) (he' : ∀ t ∈ e'.terms, t.2 ≠ 0)
    (h : e.text = e'.text) : e = e' := by
  have hall : ∀ {terms : List (ℕ × ℚ)}, (∀ t ∈ terms, t.2 ≠ 0) → nonzeroTerms terms = terms :=
    fun h => List.filter_eq_self.mpr fun t ht => decide_eq_true (h t ht)
  obtain ⟨constant, terms⟩ := e
  obtain ⟨constant', terms'⟩ := e'
  obtain ⟨hconstant, hterms⟩ := text_eq_text_iff.mp h
  rw [hall he, hall he'] at hterms
  exact congrArg₂ AffineExpr.mk hconstant hterms

end AffineExpr

end ExactLinear
