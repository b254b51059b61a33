import ExactLinear.Proofs.TokenForms

/-!
# Why a text is no program

A text that follows the grammar can still have no meaning, but only for one of the reasons that
`Phrase.Fault` lists: a literal has a denominator that is zero, the rows of a matrix differ in
length or do not agree on the bar, or there is no function of a name. That a number is no literal at
all, or that a matrix or a vector has no entry, is excluded by the grammar, although the functions
that give a phrase its meaning check it once more (`fault_of_toStatement`).
-/

namespace ExactLinear.Command

open Literal (Form signed)

variable {phrase : Phrase} {e : ProgramError}

/-- The numbers of a clause. -/
def Clause.numbers : Clause → List String
  | .scaled factor _ => [factor]
  | _ => []

/-- The numbers of a phrase. -/
def Phrase.numbers : Phrase → List String
  | .matrix _ rows => rows.flatMap (·.numbers)
  | .vector _ numbers => numbers
  | .bind _ clause => clause.numbers
  | .run clause => clause.numbers
  | .list => []

/-- The function that a clause calls. -/
def Clause.function? : Clause → Option String
  | .call function _ => some function
  | _ => none

/-- The function that a phrase calls. -/
def Phrase.function? : Phrase → Option String
  | .bind _ clause => clause.function?
  | .run clause => clause.function?
  | _ => none

/-- The number is a fraction with denominator zero. -/
def ZeroDenominator (n : String) : Prop :=
  ∃ negative numer denom, Form negative numer (some denom) n ∧ signed false denom = 0

/-- What is wrong with a phrase that follows the grammar. -/
inductive Phrase.Fault (phrase : Phrase) : ProgramError → Prop where
  | zeroDenominator {n : String} (hn : n ∈ phrase.numbers) (hzero : ZeroDenominator n) :
    Fault phrase (.linear .divisionByZero)
  | ragged {name : Char} {first row : WrittenRow} {rows : List WrittenRow}
      (hphrase : phrase = .matrix name (first :: rows)) (hrow : row ∈ rows)
      (hne : row.numbers.length ≠ first.numbers.length) :
    Fault phrase (.linear (.dimensionMismatch ⟨1, first.numbers.length⟩ ⟨1, row.numbers.length⟩))
  | mixedBars {name : Char} {first row : WrittenRow} {rows : List WrittenRow}
      (hphrase : phrase = .matrix name (first :: rows)) (hrow : row ∈ rows)
      (hne : row.barred ≠ first.barred) :
    Fault phrase .mixedBars
  | unknownFunction {function : String} (hcall : phrase.function? = some function)
      (hnone : Builtin.ofName? function = none) :
    Fault phrase (.unknownFunction function)

/-! ## Numbers -/

/-- A number is read, unless its denominator is zero. -/
theorem failsOnly_read {n : String} (hn : IsNumber n) :
    FailsOnly (fun e => e = .divisionByZero ∧ ZeroDenominator n) (Literal.read n) := by
  obtain ⟨negative, numer, denom?, hform⟩ := hn
  rw [hform.read_eq, ratio]
  split_ifs with hzero
  · cases denom? with
    | none => cases hzero
    | some denom => exact .error ⟨rfl, negative, numer, denom, hform, hzero⟩
  · exact .ok _

theorem failsOnly_readNumbers {numbers : List String} (h : ∀ n ∈ numbers, IsNumber n) :
    FailsOnly (fun e => e = .divisionByZero ∧ ∃ n ∈ numbers, ZeroDenominator n)
      (readNumbers numbers) :=
  .mapM fun n hn => (failsOnly_read (h n hn)).mono fun _ he => ⟨he.1, n, hn, he.2⟩

/-- Reading keeps the number of numbers. -/
theorem length_of_readNumbers {numbers : List String} {values : List ℚ}
    (h : readNumbers numbers = .ok values) : values.length = numbers.length :=
  (mapM_eq_ok_iff.mp h).length_eq.symm

/-! ## Literals -/

theorem fault_of_readVector {name : Char} {numbers : List String} (h : AreNumbers numbers) :
    FailsOnly (Phrase.vector name numbers).Fault (readVector numbers) := by
  refine .mapError (.bind ?_ fun values hvalues => ?_)
  · rintro e he
    obtain ⟨rfl, n, hn, hzero⟩ := failsOnly_readNumbers h.2 e he
    exact .zeroDenominator hn hzero
  · have hne : values.isEmpty = false := by
      rw [List.isEmpty_eq_false_iff, ← List.length_pos_iff, length_of_readNumbers hvalues]
      exact List.length_pos_iff.mpr h.1
    rw [RatVector.ofList, hne]
    exact .ok _

/-- Rows that start with one that is not empty make a matrix, unless another one has a different
length. -/
theorem failsOnly_ofRows {first : List ℚ} (hfirst : first ≠ []) (rows : List (List ℚ))
    (augmented : Bool) :
    FailsOnly (fun e => ∃ row ∈ rows, row.length ≠ first.length ∧
      e = .dimensionMismatch ⟨1, first.length⟩ ⟨1, row.length⟩)
      (RatMatrix.ofRows (first :: rows) augmented) := by
  obtain ⟨x, first, rfl⟩ := List.exists_cons_of_ne_nil hfirst
  simp only [RatMatrix.ofRows]
  split
  · rename_i bad hbad
    have hne : bad.length ≠ (x :: first).length := by simpa using List.find?_some hbad
    refine .error ⟨bad, ?_, hne, rfl⟩
    obtain rfl | hmem := List.mem_cons.mp (List.mem_of_find?_eq_some hbad)
    · exact absurd rfl hne
    · exact hmem
  · exact .ok _

/-- Reading keeps the lengths of rows. -/
theorem lengths_of_readNumbers {rows : List WrittenRow} {values : List (List ℚ)}
    (h : (rows.mapM fun row => readNumbers row.numbers) = .ok values) :
    values.map List.length = rows.map (·.numbers.length) := by
  rw [mapM_eq_ok_iff] at h
  induction h with
  | nil => rfl
  | cons hrow _ ih => rw [List.map_cons, List.map_cons, length_of_readNumbers hrow, ih]

theorem fault_of_readMatrix {name : Char} {rows : List WrittenRow} (h : AreRows rows) :
    FailsOnly (Phrase.matrix name rows).Fault (readMatrix rows) := by
  obtain ⟨hne, hall⟩ := h
  obtain ⟨first, rows, rfl⟩ := List.exists_cons_of_ne_nil hne
  refine .bind (.mapError (.mapM fun row hrow => ?_)) fun values hvalues => ?_
  · rintro e he
    obtain ⟨rfl, n, hn, hzero⟩ := failsOnly_readNumbers (hall row hrow).2 e he
    exact .zeroDenominator (List.mem_flatMap.mpr ⟨row, hrow, hn⟩) hzero
  dsimp only
  split_ifs with hbars
  · obtain ⟨row, hrow, hbarred⟩ := List.any_eq_true.mp hbars
    have hbarred : row.barred ≠ first.barred := by simpa using hbarred
    obtain rfl | hrow := List.mem_cons.mp hrow
    · exact absurd rfl hbarred
    · exact .error (.mixedBars rfl hrow hbarred)
  · have hlengths := lengths_of_readNumbers (mapError_eq_ok_iff.mp hvalues)
    cases values with
    | nil => cases hlengths
    | cons values rest =>
      simp only [List.map_cons, List.cons.injEq] at hlengths
      obtain ⟨hfirst, hrest⟩ := hlengths
      have hvaluesne : values ≠ [] := by
        rw [← List.length_pos_iff, hfirst]
        exact List.length_pos_iff.mpr (hall first List.mem_cons_self).1
      refine .mapError fun e he => ?_
      obtain ⟨row, hrow, hne, rfl⟩ := failsOnly_ofRows hvaluesne rest _ e he
      obtain ⟨written, hwritten, hlength⟩ :=
        List.mem_map.mp (hrest ▸ List.mem_map_of_mem (f := List.length) hrow)
      rw [hfirst, ← hlength] at hne ⊢
      exact .ragged rfl hwritten hne

/-! ## Clauses and phrases -/

/-- A clause has a meaning, unless its factor has denominator zero or there is no such function. -/
theorem fault_of_toOperation {clause : Clause} (h : clause.WellFormed)
    (hnumbers : phrase.numbers = clause.numbers) (hfunction : phrase.function? = clause.function?) :
    FailsOnly phrase.Fault clause.toOperation := by
  cases clause with
  | binary op left right => exact .ok _
  | «show» name => exact .ok _
  | scaled factor name =>
    refine .bind (.mapError fun e he => ?_) fun k _ => .ok _
    obtain ⟨rfl, hzero⟩ := failsOnly_read h.1 e he
    exact .zeroDenominator (hnumbers ▸ List.mem_singleton_self factor) hzero
  | call function args =>
    rw [Clause.toOperation]
    split
    · exact .ok _
    · rename_i hnone
      exact .error (.unknownFunction hfunction hnone)

/-- A phrase has a meaning, unless something is wrong with it. -/
theorem fault_of_toStatement (h : phrase.WellFormed) :
    FailsOnly phrase.Fault phrase.toStatement := by
  cases phrase with
  | list => exact .ok _
  | matrix name rows => exact (fault_of_readMatrix h.2).bind fun _ _ => .ok _
  | vector name numbers => exact (fault_of_readVector h.2).bind fun _ _ => .ok _
  | bind name clause => exact (fault_of_toOperation h.2 rfl rfl).bind fun _ _ => .ok _
  | run clause => exact (fault_of_toOperation h rfl rfl).bind fun _ _ => .ok _

/-! ## Programs -/

/-- Why a text is no program: it does not follow the grammar, or something is wrong with one of its
phrases. -/
inductive Unreadable (text : String) : ProgramError → Prop where
  | ungrammatical (h : accepts text = false) : Unreadable text .ungrammatical
  | fault {phrases : List Phrase} {phrase : Phrase} {e : ProgramError}
      (hphrases : phrases? text = some phrases) (hphrase : phrase ∈ phrases)
      (hfault : phrase.Fault e) : Unreadable text e

theorem unreadable_of_readProgram (text : String) :
    FailsOnly (Unreadable text) (readProgram text) := by
  unfold readProgram
  split
  · rename_i hnone
    exact .error (.ungrammatical (by rw [accepts, hnone]; rfl))
  · rename_i phrases hphrases
    refine .mapM fun phrase hphrase => ?_
    exact (fault_of_toStatement (wellFormed_of_phrases? hphrases phrase hphrase)).mono
      fun e he => .fault hphrases hphrase he

end ExactLinear.Command
