import Mathlib.Data.Rat.Defs
import Mathlib.Tactic.SplitIfs
import ExactLinear.Rational.Literal

/-!
# Numbers are read back as they were written

The digits of a number are read up to the first character that is no digit, so what is written
behind them must not start with one: `Ends` says so for any class of characters. A literal has a
`Literal.Form`: a sign or none, the digits of a numerator and, after a slash, those of a denominator
or nothing. `Literal.read` takes exactly these parts apart (`Literal.Form.read_eq`), and a rational
is written in this form.
-/

namespace ExactLinear

/-! ## Runs of characters -/

/-- No character of the class comes first. -/
def Ends (p : Char → Bool) (rest : List Char) : Prop := ∀ c ∈ rest.head?, p c = false

theorem Ends.nil (p : Char → Bool) : Ends p [] := by
  intro c hc
  cases hc

theorem Ends.cons {p : Char → Bool} {c : Char} (h : p c = false) (rest : List Char) :
    Ends p (c :: rest) := by
  intro d hd
  rw [List.head?_cons, Option.mem_some] at hd
  exact hd ▸ h

theorem Ends.takeWhile_append {p : Char → Bool} {front rest : List Char} (hrest : Ends p rest)
    (hfront : ∀ c ∈ front, p c = true) : (front ++ rest).takeWhile p = front := by
  rw [List.takeWhile_append_of_pos hfront]
  cases rest with
  | nil => rw [List.takeWhile_nil, List.append_nil]
  | cons c rest => rw [List.takeWhile_cons_of_neg (by simp [hrest c rfl]), List.append_nil]

theorem Ends.dropWhile_append {p : Char → Bool} {front rest : List Char} (hrest : Ends p rest)
    (hfront : ∀ c ∈ front, p c = true) : (front ++ rest).dropWhile p = rest := by
  rw [List.dropWhile_append_of_pos hfront]
  cases rest with
  | nil => rfl
  | cons c rest => rw [List.dropWhile_cons_of_neg (by simp [hrest c rfl])]

theorem Ends.takeWhile_eq_nil {p : Char → Bool} {rest : List Char} (hrest : Ends p rest) :
    rest.takeWhile p = [] := by
  rw [← List.nil_append rest, hrest.takeWhile_append (by simp)]

theorem Ends.dropWhile_eq_self {p : Char → Bool} {rest : List Char} (hrest : Ends p rest) :
    rest.dropWhile p = rest := by
  rw [← List.nil_append rest, hrest.dropWhile_append (by simp), List.nil_append]

/-! ## Digits -/

/-- The decimal digits of a number. -/
def digits (n : Nat) : List Char := Nat.toDigits 10 n

theorem isDigit_of_mem_digits {n : Nat} {c : Char} (h : c ∈ digits n) : c.isDigit = true :=
  Nat.isDigit_of_mem_toDigits (by decide) (by decide) h

theorem digits_ne_nil (n : Nat) : digits n ≠ [] := Nat.toDigits_ne_nil

theorem ofDigitChars_digits (n : Nat) : Nat.ofDigitChars 10 (digits n) 0 = n :=
  Nat.ofDigitChars_toDigits (by decide) (by decide)

theorem exists_digits_eq_cons (n : Nat) : ∃ c rest, digits n = c :: rest ∧ c.isDigit = true := by
  obtain ⟨c, rest, h⟩ := List.exists_cons_of_ne_nil (digits_ne_nil n)
  exact ⟨c, rest, h, isDigit_of_mem_digits (h ▸ List.mem_cons_self)⟩

theorem digits_of_lt {n : Nat} (h : n < 10) : digits n = [n.digitChar] := Nat.toDigits_of_lt_base h

/-- The digits of a number start with a zero only if it is zero. -/
theorem eq_zero_of_head?_digits {n : Nat} (h : (digits n).head? = some '0') : n = 0 := by
  induction n using Nat.strongRecOn with
  | ind n ih =>
    by_cases hn : n < 10
    · rw [digits_of_lt hn, List.head?_cons, Option.some.injEq] at h
      exact Nat.digitChar_eq_zero.mp h
    · -- the first digit is that of a tenth of the number, which is not zero
      have hdigits : digits n = digits (n / 10) ++ [(n % 10).digitChar] :=
        Nat.toDigits_of_base_le (by decide) (by omega)
      obtain ⟨c, more, hcons, -⟩ := exists_digits_eq_cons (n / 10)
      have htenth : (digits (n / 10)).head? = some '0' := by
        rw [hdigits, hcons] at h
        rw [hcons]
        exact h
      have := ih (n / 10) (by omega) htenth
      omega

theorem toList_toString_nat (n : Nat) : (toString n).toList = digits n := Nat.toList_repr

/-- The minus sign of a negative number. -/
def minus (negative : Bool) : List Char := if negative then ['-'] else []

theorem toList_toString_int (n : Int) :
    (toString n).toList = minus (n < 0) ++ digits n.natAbs := by
  rw [Int.toString_eq_repr, Int.repr_eq_if, minus]
  by_cases h : 0 ≤ n
  · rw [if_pos h, if_neg (by simpa using h), Nat.toList_repr, List.nil_append,
      ← Int.natAbs_of_nonneg h]
    rfl
  · rw [if_neg h, if_pos (by simpa using h), String.toList_append, Nat.toList_repr,
      ← Int.natAbs_neg, ← Int.natAbs_of_nonneg (a := -n) (by omega)]
    rfl

/-- Two integers have a quotient when the divisor is not zero. -/
theorem ratio_eq_ok_iff {numer denom : Int} {r : Rat} :
    ratio numer denom = .ok r ↔ denom ≠ 0 ∧ r = numer / denom := by
  unfold ratio
  split_ifs with hdenom
  · simp [hdenom]
  · rw [Except.ok.injEq, Rat.divInt_eq_div, eq_comm, and_iff_right hdenom]

namespace Literal

theorem isDigits_iff {s : List Char} : isDigits s = true ↔ s ≠ [] ∧ ∀ c ∈ s, c.isDigit = true := by
  simp only [isDigits, Bool.and_eq_true, Bool.not_eq_true', List.isEmpty_eq_false_iff,
    List.all_eq_true]

theorem isDigits_digits (n : Nat) : isDigits (digits n) = true :=
  isDigits_iff.mpr ⟨digits_ne_nil n, fun _ => isDigit_of_mem_digits⟩

theorem signed_digits (n : Int) : signed (n < 0) (digits n.natAbs) = n := by
  rw [signed, ofDigitChars_digits]
  by_cases h : n < 0
  · simp only [h, decide_true, if_true]
    omega
  · simp only [h, decide_false, Bool.false_eq_true, if_false]
    omega

/-! ## The form of a literal -/

/-- The text is a minus sign or none, then digits, then a slash with digits or nothing. -/
structure Form (negative : Bool) (numer : List Char) (denom? : Option (List Char)) (text : String) :
    Prop where
  toList_eq : text.toList = minus negative ++ (numer ++ denom?.elim [] ('/' :: ·))
  numer_digits : isDigits numer = true
  denom_digits : ∀ denom ∈ denom?, isDigits denom = true

/-- The value of a denominator, which is one if none is written. -/
def denominator (denom? : Option (List Char)) : Int := denom?.elim 1 (signed false)

theorem splitSign_minus_append (negative : Bool) {numer : List Char} (h : isDigits numer = true)
    (rest : List Char) :
    splitSign (minus negative ++ (numer ++ rest)) = (negative, numer ++ rest) := by
  cases negative with
  | true => rfl
  | false =>
    obtain ⟨hne, hdigits⟩ := isDigits_iff.mp h
    obtain ⟨c, tail, rfl⟩ := List.exists_cons_of_ne_nil hne
    rw [minus, if_neg Bool.false_ne_true, List.nil_append, List.cons_append]
    unfold splitSign
    split
    · rename_i heq
      have hc := hdigits c List.mem_cons_self
      rw [(List.cons.inj heq).1] at hc
      cases hc
    · rfl

/-- A text of the form is read as the quotient of its digits. -/
theorem Form.read_eq {negative : Bool} {numer : List Char} {denom? : Option (List Char)}
    {text : String} (h : Form negative numer denom? text) :
    read text = ratio (signed negative numer) (denominator denom?) := by
  have hnoSlash : ∀ c ∈ numer, (c != '/') = true := by
    intro c hc
    have hdigit := (isDigits_iff.mp h.numer_digits).2 c hc
    rw [bne_iff_ne]
    rintro rfl
    cases hdigit
  have hend : Ends (· != '/') (denom?.elim [] ('/' :: ·)) := by
    cases denom? with
    | none => exact .nil _
    | some denom => exact .cons rfl _
  unfold read
  rw [h.toList_eq, splitSign_minus_append negative h.numer_digits]
  dsimp only
  rw [hend.takeWhile_append hnoSlash, hend.dropWhile_append hnoSlash]
  cases denom? with
  | none => exact if_pos h.numer_digits
  | some denom =>
    rw [Option.elim_some]
    dsimp only
    rw [h.numer_digits, h.denom_digits denom rfl]
    rfl

/-- The denominator of a rational as it is written, which is not written if it is one. -/
def denominatorText (r : Rat) : List Char := if r.den = 1 then [] else '/' :: digits r.den

theorem toList_write (r : Rat) :
    (write r).toList = minus (r.num < 0) ++ (digits r.num.natAbs ++ denominatorText r) := by
  rw [write, denominatorText]
  split_ifs with hden
  · rw [toList_toString_int, List.append_nil]
  · rw [String.toList_append, String.toList_append, toList_toString_int, toList_toString_nat,
      List.append_assoc, List.append_assoc]
    rfl

/-- A rational is written with digits, a minus sign and a slash. -/
theorem forall_mem_write {p : Char → Prop} (hdigit : ∀ c, c.isDigit = true → p c) (hminus : p '-')
    (hslash : p '/') (r : Rat) : ∀ c ∈ (write r).toList, p c := by
  have hdigits : ∀ n, ∀ c ∈ digits n, p c := fun n c hc => hdigit c (isDigit_of_mem_digits hc)
  intro c hc
  rw [toList_write, List.mem_append, List.mem_append] at hc
  obtain hc | hc | hc := hc
  · unfold minus at hc
    split_ifs at hc
    · exact List.mem_singleton.mp hc ▸ hminus
    · cases hc
  · exact hdigits _ c hc
  · unfold denominatorText at hc
    split_ifs at hc
    · cases hc
    · obtain rfl | hc := List.mem_cons.mp hc
      · exact hslash
      · exact hdigits _ c hc

/-- A rational is the quotient of its numerator and its denominator. -/
theorem ratio_num_den (r : Rat) : ratio r.num (Int.ofNat r.den) = .ok r := by
  have hden : Int.ofNat r.den ≠ 0 := Int.natCast_ne_zero.mpr r.den_ne_zero
  rw [ratio, if_neg hden]
  exact congrArg Except.ok (Rat.num_divInt_den r)

theorem form_write (r : Rat) :
    Form (r.num < 0) (digits r.num.natAbs) (if r.den = 1 then none else some (digits r.den))
      (write r) := by
  refine ⟨?_, isDigits_digits _, fun denom hdenom => ?_⟩
  · rw [toList_write, denominatorText]
    split_ifs <;> rfl
  · split_ifs at hdenom
    · cases hdenom
    · exact Option.some.inj hdenom ▸ isDigits_digits r.den

/-- A literal that was written is read back. -/
theorem read_write (r : Rat) : read (write r) = .ok r := by
  have hden : denominator (if r.den = 1 then none else some (digits r.den)) = Int.ofNat r.den := by
    split_ifs with hone
    · rw [hone]
      rfl
    · rw [denominator, Option.elim_some, signed, ofDigitChars_digits, if_neg Bool.false_ne_true]
      rfl
  rw [(form_write r).read_eq, signed_digits, hden, ratio_num_den]

end Literal

end ExactLinear
