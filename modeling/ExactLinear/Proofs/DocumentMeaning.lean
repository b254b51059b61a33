import Mathlib.Data.List.Induction
import ExactLinear.Proofs.Literals
import ExactLinear.Proofs.WellFormed
import ExactLinear.Store.Document

/-!
# What a document says

What the parts of a document say is stated here apart from the reader: which number a string of
digits is (`Numeral`), which integer a JSON value stands for in either of its two forms
(`WritesInteger`), which rational a fraction object is, and from there rows, vectors and matrices.
At each of these layers the reader results in a value exactly when this is what the document says
(`matrixOfJson_eq_ok_iff`, `vectorOfJson_eq_ok_iff`). So no entry is dropped, moved, rounded or made
up, and whatever says nothing is refused.

The flag of a matrix is the exception: a member that is no Boolean says nothing, and is read as
false.
-/

namespace ExactLinear

open Json

/-! ## Forms of values -/

theorem string?_eq_some_iff {j : Json} {s : String} : j.string? = some s ↔ j = .string s := by
  cases j <;> simp [string?]

theorem items?_eq_some_iff {j : Json} {items : List Json} :
    j.items? = some items ↔ j = .array items := by
  cases j <;> simp [items?]

theorem bool?_eq_some_iff {j : Json} {b : Bool} : j.bool? = some b ↔ j = .bool b := by
  cases j <;> simp [bool?]

/-- A member has some form if it is there and has this form. -/
theorem bind_eq_some_iff_of_form {α : Type} {form? : Json → Option α} {form : α → Json}
    (h : ∀ {j a}, form? j = some a ↔ j = form a) {found : Option Json} {a : α} :
    found.bind form? = some a ↔ found = some (form a) := by
  simp only [Option.bind_eq_some_iff, h, exists_eq_right]

/-! ## Integers -/

/-- The digits make the number. Between and behind them there may be underscores. -/
inductive Numeral : List Char → ℕ → Prop where
  | digit {c : Char} (hc : c.isDigit = true) : Numeral [c] (c.toNat - '0'.toNat)
  | append_digit {s : List Char} {n : ℕ} {c : Char} (h : Numeral s n) (hc : c.isDigit = true) :
    Numeral (s ++ [c]) (10 * n + (c.toNat - '0'.toNat))
  | append_underscore {s : List Char} {n : ℕ} (h : Numeral s n) : Numeral (s ++ ['_']) n

namespace Numeral

/-- A numeral starts with a digit, and has digits and underscores only. -/
theorem exists_eq_cons {s : List Char} {n : ℕ} (h : Numeral s n) :
    ∃ c rest, s = c :: rest ∧ c.isDigit = true ∧ ∀ d ∈ rest, d.isDigit = true ∨ d = '_' := by
  induction h with
  | digit hc => exact ⟨_, [], rfl, hc, List.forall_mem_nil _⟩
  | append_digit _ hc ih =>
    obtain ⟨c, rest, rfl, hfirst, hrest⟩ := ih
    exact ⟨c, _, rfl, hfirst, List.forall_mem_append.mpr ⟨hrest, by simpa using .inl hc⟩⟩
  | append_underscore _ ih =>
    obtain ⟨c, rest, rfl, hfirst, hrest⟩ := ih
    exact ⟨c, _, rfl, hfirst, List.forall_mem_append.mpr ⟨hrest, by simp⟩⟩

/-- The number of a numeral is the value of its digits. -/
theorem eq_ofDigitChars {s : List Char} {n : ℕ} (h : Numeral s n) :
    n = Nat.ofDigitChars 10 (s.filter Char.isDigit) 0 := by
  induction h with
  | digit hc => simp [hc, Nat.ofDigitChars_cons]
  | append_digit _ hc ih =>
    rw [List.filter_append, Nat.ofDigitChars_append, ← ih]
    simp [hc, Nat.ofDigitChars_cons]
  | append_underscore _ ih =>
    rw [List.filter_append, Nat.ofDigitChars_append, ← ih]
    rfl

/-- Digits and underscores that start with a digit are a numeral. -/
theorem of_isDigit {c : Char} (hc : c.isDigit = true) {rest : List Char}
    (hrest : ∀ d ∈ rest, d.isDigit = true ∨ d = '_') :
    Numeral (c :: rest) (Nat.ofDigitChars 10 ((c :: rest).filter Char.isDigit) 0) := by
  induction rest using List.reverseRecOn with
  | nil =>
    have hvalue := (digit hc).eq_ofDigitChars
    exact hvalue ▸ digit hc
  | append_singleton rest d ih =>
    obtain ⟨hrest, hd⟩ := List.forall_mem_append.mp hrest
    have h := ih hrest
    rw [← List.cons_append, List.filter_append, Nat.ofDigitChars_append]
    obtain hd | rfl := hd d (List.mem_singleton_self d)
    · rw [List.filter_cons_of_pos hd, List.filter_nil]
      exact h.append_digit hd
    · exact h.append_underscore

end Numeral

theorem readDigits?_eq_some_iff {s : List Char} {n : ℕ} :
    readDigits? s = some n ↔ Numeral s n := by
  constructor
  · intro h
    unfold readDigits? at h
    split at h
    · cases h
    · split_ifs at h with hdigits
      obtain ⟨hc, hrest⟩ := Bool.and_eq_true_iff.mp hdigits
      rw [List.all_eq_true] at hrest
      exact Option.some.inj h ▸ .of_isDigit hc fun d hd => by simpa using hrest d hd
  · intro h
    have hvalue := h.eq_ofDigitChars
    obtain ⟨c, rest, rfl, hc, hrest⟩ := h.exists_eq_cons
    have hall : rest.all (fun d => d.isDigit || d = '_') = true :=
      List.all_eq_true.mpr fun d hd => by simpa using hrest d hd
    rw [readDigits?, if_pos (by rw [hc, hall, Bool.and_self]), ← hvalue]

/-- The value stands for the integer: it is the integer itself, if this has 64 bits, or its numeral
with at most one sign. -/
inductive WritesInteger : Json → ℤ → Prop where
  | number {n : ℤ} (hmin : -2 ^ 63 ≤ n) (hmax : n < 2 ^ 63) : WritesInteger (.integer n) n
  | plain {s : String} {n : ℕ} (h : Numeral s.toList n) : WritesInteger (.string s) n
  | plus {s : String} {digits : List Char} {n : ℕ} (hs : s.toList = '+' :: digits)
      (h : Numeral digits n) : WritesInteger (.string s) n
  | minus {s : String} {digits : List Char} {n : ℕ} (hs : s.toList = '-' :: digits)
      (h : Numeral digits n) : WritesInteger (.string s) (-n)

theorem isSigned64_iff {n : ℤ} : isSigned64 n = true ↔ -2 ^ 63 ≤ n ∧ n < 2 ^ 63 := by
  have hpower : Int.ofNat (powerOfTwo 63) = 2 ^ 63 := by decide
  rw [isSigned64, hpower, Bool.and_eq_true, decide_eq_true_iff, decide_eq_true_iff]

theorem readInteger?_eq_some_iff {s : String} {n : ℤ} :
    readInteger? s = some n ↔ WritesInteger (.string s) n := by
  constructor
  · intro h
    unfold readInteger? at h
    split at h
    case h_1 digits hs =>
      obtain ⟨k, hk, rfl⟩ := Option.map_eq_some_iff.mp h
      exact .minus hs (readDigits?_eq_some_iff.mp hk)
    case h_2 digits hs =>
      obtain ⟨k, hk, rfl⟩ := Option.map_eq_some_iff.mp h
      exact .plus hs (readDigits?_eq_some_iff.mp hk)
    case h_3 =>
      obtain ⟨k, hk, rfl⟩ := Option.map_eq_some_iff.mp h
      exact .plain (readDigits?_eq_some_iff.mp hk)
  · intro h
    cases h with
    | plain h =>
      -- a numeral does not start with a sign
      obtain ⟨c, rest, hs, hc, -⟩ := h.exists_eq_cons
      rw [readInteger?, hs]
      rw [hs] at h
      split
      case h_1 heq => cases (List.cons.inj heq).1 ▸ hc
      case h_2 heq => cases (List.cons.inj heq).1 ▸ hc
      case h_3 => exact congrArg (Option.map Int.ofNat) (readDigits?_eq_some_iff.mpr h)
    | plus hs h =>
      rw [readInteger?, hs]
      exact congrArg (Option.map Int.ofNat) (readDigits?_eq_some_iff.mpr h)
    | minus hs h =>
      rw [readInteger?, hs]
      exact congrArg (Option.map fun n => -Int.ofNat n) (readDigits?_eq_some_iff.mpr h)

theorem integerOfJson_eq_ok_iff {j : Json} {n : ℤ} :
    integerOfJson j = .ok n ↔ WritesInteger j n := by
  cases j with
  | integer k =>
    rw [integerOfJson]
    split_ifs with hk
    · rw [Except.ok.injEq]
      refine ⟨?_, fun h => by cases h; rfl⟩
      rintro rfl
      exact .number (isSigned64_iff.mp hk).1 (isSigned64_iff.mp hk).2
    · refine ⟨fun h => (nomatch h), fun h => ?_⟩
      cases h with
      | number hmin hmax => exact absurd (isSigned64_iff.mpr ⟨hmin, hmax⟩) hk
  | string s =>
    rw [← readInteger?_eq_some_iff, integerOfJson]
    cases readInteger? s <;> simp
  | _ => exact ⟨fun h => (nomatch h), fun h => (nomatch h)⟩

/-! ## Fractions, rows and vectors -/

/-- The value has a member that stands for the integer. -/
def WritesPart (part : String) (j : Json) (n : ℤ) : Prop :=
  ∃ found, j.member? part = some found ∧ WritesInteger found n

theorem partOfJson_eq_ok_iff {part : String} {j : Json} {n : ℤ} :
    partOfJson part j = .ok n ↔ WritesPart part j n := by
  unfold partOfJson WritesPart
  cases j.member? part with
  | none => simp
  | some found => simp [integerOfJson_eq_ok_iff]

/-- The value is marked as a fraction, and the rational is its numerator over its denominator. They
need not be coprime, and the denominator may be negative. -/
def WritesFraction (j : Json) (r : ℚ) : Prop :=
  j.member? "__type__" = some (.string "Fraction") ∧
    ∃ numer denom : ℤ, WritesPart "numerator" j numer ∧ WritesPart "denominator" j denom ∧
      denom ≠ 0 ∧ r = numer / denom

theorem fractionOfJson_eq_ok_iff {j : Json} {r : ℚ} :
    fractionOfJson j = .ok r ↔ WritesFraction j r := by
  unfold fractionOfJson WritesFraction
  rw [← bind_eq_some_iff_of_form string?_eq_some_iff]
  split_ifs with hmark
  · refine Iff.trans ?_ (and_iff_right hmark).symm
    simp only [bind_eq_ok_iff, mapError_eq_ok_iff, partOfJson_eq_ok_iff, ratio_eq_ok_iff]
    exact ⟨fun ⟨numer, hnumer, denom, hdenom, h⟩ => ⟨numer, denom, hnumer, hdenom, h⟩,
      fun ⟨numer, denom, hnumer, hdenom, h⟩ => ⟨numer, hnumer, denom, hdenom, h⟩⟩
  · exact ⟨fun h => (nomatch h), fun h => absurd h.1 hmark⟩

/-- The value is an array, with one item for each thing in the list, in the same order. -/
def WritesArray {α : Type} (writes : Json → α → Prop) (j : Json) (xs : List α) : Prop :=
  ∃ items, j = .array items ∧ List.Forall₂ writes items xs

/-- A reader that reads what the items say reads what their array says. -/
theorem mapM_eq_ok_iff_writesArray {α : Type} {read : Json → Except DocumentError α}
    {writes : Json → α → Prop} (h : ∀ j a, read j = .ok a ↔ writes j a) {items : List Json}
    {xs : List α} : items.mapM read = .ok xs ↔ WritesArray writes (.array items) xs := by
  simp only [mapM_eq_ok_iff, h, WritesArray, Json.array.injEq, exists_eq_left']

theorem fractionsOfJson_eq_ok_iff {j : Json} {row : List ℚ} :
    fractionsOfJson j = .ok row ↔ WritesArray WritesFraction j row := by
  cases j with
  | array items => exact mapM_eq_ok_iff_writesArray fun _ _ => fractionOfJson_eq_ok_iff
  | _ => exact ⟨fun h => (nomatch h), fun ⟨_, h, _⟩ => (nomatch h)⟩

theorem RatVector.ofList_eq_ok_iff {entries : List ℚ} {v : RatVector} :
    RatVector.ofList entries = .ok v ↔ v.WellFormed ∧ v.entries = entries := by
  constructor
  · intro h
    refine ⟨yields_ofList entries v h, ?_⟩
    unfold RatVector.ofList at h
    split_ifs at h
    exact Except.ok.inj h ▸ rfl
  · rintro ⟨hv, rfl⟩
    rw [RatVector.ofList, if_neg fun hnil => hv (List.isEmpty_iff.mp hnil)]

/-- The value is an array with the components of the vector, of which there is at least one. -/
def WritesVector (j : Json) (v : RatVector) : Prop :=
  v.WellFormed ∧ WritesArray WritesFraction j v.entries

theorem vectorOfJson_eq_ok_iff {j : Json} {v : RatVector} :
    vectorOfJson j = .ok v ↔ WritesVector j v := by
  simp only [vectorOfJson, bind_eq_ok_iff, mapError_eq_ok_iff, fractionsOfJson_eq_ok_iff,
    RatVector.ofList_eq_ok_iff]
  exact ⟨fun ⟨_, hj, hv, heq⟩ => ⟨hv, heq ▸ hj⟩, fun ⟨hv, hj⟩ => ⟨_, hj, hv, rfl⟩⟩

/-! ## Matrices -/

theorem RatMatrix.ofRows_eq_ok_iff {rows : List (List ℚ)} {flag : Bool} {m : RatMatrix} :
    RatMatrix.ofRows rows flag = .ok m ↔ m.WellFormed ∧ m.rows = rows ∧ m.augmented = flag := by
  constructor
  · intro h
    refine ⟨yields_ofRows rows flag m h, ?_⟩
    unfold RatMatrix.ofRows at h
    split at h
    · cases h
    · cases h
    · split at h
      · cases h
      · obtain rfl := Except.ok.inj h
        exact ⟨rfl, rfl⟩
  · rintro ⟨hm, rfl, rfl⟩
    exact hm.rectangular.ofRows_eq hm.1 hm.2.1 m.augmented

/-- The value is an object with the rows of the matrix. The matrix is augmented if the object says
so, and not if its flag is false, is missing or is no flag. -/
structure WritesMatrix (j : Json) (m : RatMatrix) : Prop where
  wellFormed : m.WellFormed
  values : ∃ found, j.member? "values" = some found ∧
    WritesArray (WritesArray WritesFraction) found m.rows
  augmented : m.augmented = true ↔ j.member? "augmented" = some (.bool true)

theorem matrixOfJson_eq_ok_iff {j : Json} {m : RatMatrix} :
    matrixOfJson j = .ok m ↔ WritesMatrix j m := by
  have hflag : ((j.member? "augmented").bind bool?).getD false = true ↔
      j.member? "augmented" = some (.bool true) := by
    rw [← bind_eq_some_iff_of_form bool?_eq_some_iff]
    cases (j.member? "augmented").bind bool? <;> simp
  unfold matrixOfJson
  dsimp only
  split
  case h_1 items hitems =>
    have hvalues := (bind_eq_some_iff_of_form items?_eq_some_iff).mp hitems
    simp only [bind_eq_ok_iff, mapError_eq_ok_iff, RatMatrix.ofRows_eq_ok_iff,
      mapM_eq_ok_iff_writesArray fun _ _ => fractionsOfJson_eq_ok_iff]
    constructor
    · rintro ⟨rows, hrows, hm, rfl, haugmented⟩
      exact ⟨hm, ⟨_, hvalues, hrows⟩, haugmented ▸ hflag⟩
    · rintro ⟨hm, ⟨found, hfound, hrows⟩, haugmented⟩
      obtain rfl := Option.some.inj (hfound.symm.trans hvalues)
      exact ⟨m.rows, hrows, hm, rfl, Bool.eq_iff_iff.mpr (haugmented.trans hflag.symm)⟩
  case h_2 hitems =>
    refine ⟨fun h => (nomatch h), fun h => ?_⟩
    obtain ⟨found, hfound, items, rfl, -⟩ := h.values
    exact (hitems items ((bind_eq_some_iff_of_form items?_eq_some_iff).mpr hfound)).elim

end ExactLinear
