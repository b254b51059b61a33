import ExactLinear.Proofs.SpacedTokens
import ExactLinear.Proofs.TokenForms

/-!
# The language of rational literals

Two readers decide what a literal is, and neither asks the other. `Literal.read` takes off a sign,
cuts what remains at its first slash and looks at the two parts; the scanner of the command language
goes on from character to character as long as they continue a number. `Literal.Form` describes
literals apart from both. A text that has the form is read as the quotient of its digits
(`Form.read_eq`) and scanned as one number (`lex_of_form`); a text that does not have it is refused
as a whole (`read_eq_malformed_iff`), and no scan of it makes it one number (`lex_eq_number_iff`).
-/

namespace ExactLinear.Literal

open Command (IsNumber lex)

variable {text : String} {r : ℚ}

/-! ## Texts without the form -/

theorem minus_append_splitSign (s : List Char) : minus (splitSign s).1 ++ (splitSign s).2 = s := by
  unfold splitSign
  split <;> rfl

/-- What follows the characters before the first slash is a slash or nothing. -/
theorem dropWhile_eq_cons {s denom : List Char} {c : Char}
    (h : s.dropWhile (· != '/') = c :: denom) : c = '/' := by
  have hc := List.head_dropWhile_not (p := (· != '/')) (l := s) (by simp [h])
  simpa [h] using hc

/-- A text that is not refused as malformed has the form of a literal. -/
theorem isNumber_of_read_ne (h : read text ≠ .error (.malformedLiteral text)) : IsNumber text := by
  have htext := minus_append_splitSign text.toList
  unfold read at h
  generalize splitSign text.toList = parts at h htext
  obtain ⟨negative, unsigned⟩ := parts
  dsimp only at h htext
  have hparts := unsigned.takeWhile_append_dropWhile (p := (· != '/'))
  split at h
  · rename_i hdrop
    rw [hdrop] at hparts
    split_ifs at h with hnumer
    · refine ⟨negative, _, none, ?_, hnumer, fun d hd => by cases hd⟩
      rw [← htext, Option.elim_none, hparts]
    · exact absurd rfl h
  · rename_i c denom hdrop
    obtain rfl := dropWhile_eq_cons hdrop
    rw [hdrop] at hparts
    split_ifs at h with hdigits
    · obtain ⟨hnumer, hdenom⟩ := Bool.and_eq_true_iff.mp hdigits
      refine ⟨negative, _, some denom, ?_, hnumer, fun d hd => Option.some.inj hd ▸ hdenom⟩
      rw [← htext, Option.elim_some, hparts]
    · exact absurd rfl h

/-! ## The three answers of the reader -/

/-- A text is refused as malformed when it does not have the form, and the cause names the text. -/
theorem read_eq_malformed_iff : read text = .error (.malformedLiteral text) ↔ ¬ IsNumber text := by
  refine ⟨fun h ⟨_, _, _, hform⟩ => ?_, fun h => ?_⟩
  · rw [hform.read_eq, ratio] at h
    split_ifs at h
    cases h
  · by_contra hne
    exact h (isNumber_of_read_ne hne)

/-- A text is read as the quotient of its two parts. -/
theorem read_eq_ok_iff : read text = .ok r ↔
    ∃ negative numer denom?, Form negative numer denom? text ∧ denominator denom? ≠ 0 ∧
      r = signed negative numer / denominator denom? := by
  constructor
  · intro h
    have hne : read text ≠ .error (.malformedLiteral text) := by rw [h]; nofun
    obtain ⟨negative, numer, denom?, hform⟩ := isNumber_of_read_ne hne
    rw [hform.read_eq] at h
    exact ⟨negative, numer, denom?, hform, ratio_eq_ok_iff.mp h⟩
  · rintro ⟨negative, numer, denom?, hform, h⟩
    rw [hform.read_eq]
    exact ratio_eq_ok_iff.mpr h

/-- A text has no value when it has the form and its denominator is zero. -/
theorem read_eq_divisionByZero_iff : read text = .error .divisionByZero ↔
    ∃ negative numer denom?, Form negative numer denom? text ∧ denominator denom? = 0 := by
  constructor
  · intro h
    have hne : read text ≠ .error (.malformedLiteral text) := by rw [h]; nofun
    obtain ⟨negative, numer, denom?, hform⟩ := isNumber_of_read_ne hne
    rw [hform.read_eq, ratio] at h
    split_ifs at h with hzero
    exact ⟨negative, numer, denom?, hform, hzero⟩
  · rintro ⟨negative, numer, denom?, hform, hzero⟩
    rw [hform.read_eq, ratio, if_pos hzero]

/-! ## The scanner -/

/-- The scanner takes a text for one number when it has the form. -/
theorem lex_eq_number_iff : lex text.toList = some [.number text] ↔ IsNumber text := by
  constructor
  · exact fun h => Command.wellFormed_of_lex h (.number text) List.mem_cons_self
  · rintro ⟨negative, numer, denom?, hform⟩
    have hlex := Command.lex_of_form hform (.nil _)
    rwa [List.append_nil, lex] at hlex

/-- **The language of rational literals.** A text is read as `r` exactly when it is a minus sign or
none, digits and, behind a slash, digits or nothing, when the denominator is not zero, and when `r`
is the quotient. It is a division by zero exactly when it has this form and the denominator is zero,
and refused as malformed, with the whole text, exactly when it does not have it; and these are all
texts that the scanner does not take for one number. What is written for a rational is read back. -/
theorem read_language (text : String) :
    (∀ r, read text = .ok r ↔
        ∃ negative numer denom?, Form negative numer denom? text ∧ denominator denom? ≠ 0 ∧
          r = signed negative numer / denominator denom?) ∧
      (read text = .error .divisionByZero ↔
        ∃ negative numer denom?, Form negative numer denom? text ∧ denominator denom? = 0) ∧
      (read text = .error (.malformedLiteral text) ↔ ¬ IsNumber text) ∧
      (lex text.toList = some [.number text] ↔ read text ≠ .error (.malformedLiteral text)) ∧
      ∀ r, read (write r) = .ok r := by
  refine ⟨fun r => read_eq_ok_iff, read_eq_divisionByZero_iff, read_eq_malformed_iff, ?_,
    read_write⟩
  rw [ne_eq, read_eq_malformed_iff, not_not]
  exact lex_eq_number_iff

end ExactLinear.Literal
