import ExactLinear.Proofs.LoadedStores

/-!
# Stores are read back from their documents

Every part of a store has a JSON form and is read back from it: integers on both sides of the 64-bit
range, fractions, rows, matrices with either flag, vectors. So a store reflects its document and is
the one that is read from it (`Store.ofJson_toJson`). The document is `Exact`, so it also survives
the way through its text (`Store.read?_pretty_toJson`).
-/

namespace ExactLinear

open Json

/-! ## Integers and fractions -/

theorem readDigits?_digits (n : Nat) : readDigits? (digits n) = some n := by
  have hfilter : (digits n).filter Char.isDigit = digits n :=
    List.filter_eq_self.mpr fun c hc => isDigit_of_mem_digits hc
  obtain ⟨c, rest, hdigits, hc⟩ := exists_digits_eq_cons n
  have hrest : rest.all (fun c => c.isDigit || c = '_') = true := by
    rw [List.all_eq_true]
    intro d hd
    rw [isDigit_of_mem_digits (hdigits ▸ List.mem_cons_of_mem c hd), Bool.true_or]
  unfold readDigits?
  rw [hdigits]
  dsimp only
  rw [hc, hrest, Bool.and_self, if_pos rfl, ← hdigits, hfilter, ofDigitChars_digits]

theorem readInteger?_toString (n : Int) : readInteger? (toString n) = some n := by
  have hdigits := readDigits?_digits n.natAbs
  rw [readInteger?, toList_toString_int]
  cases hn : decide (n < 0) with
  | true =>
    show (readDigits? (digits n.natAbs)).map _ = _
    rw [hdigits]
    exact congrArg some (show -(n.natAbs : Int) = n by have := of_decide_eq_true hn; omega)
  | false =>
    have hvalue : (n.natAbs : Int) = n := by have := of_decide_eq_false hn; omega
    obtain ⟨c, rest, hcons, hc⟩ := exists_digits_eq_cons n.natAbs
    rw [minus, if_neg Bool.false_ne_true, List.nil_append]
    rw [hcons] at hdigits ⊢
    split
    · rename_i heq
      obtain ⟨rfl, -⟩ := List.cons.inj heq
      cases hc
    · rename_i heq
      obtain ⟨rfl, -⟩ := List.cons.inj heq
      cases hc
    · rw [hdigits]
      exact congrArg some hvalue

/-- An integer is read back, whether it is written as a number or as a string. -/
theorem integerOfJson_integerToJson (n : Int) : integerOfJson (integerToJson n) = .ok n := by
  unfold integerToJson
  split_ifs with hn
  · rw [integerOfJson, if_pos hn]
  · rw [integerOfJson, readInteger?_toString]

theorem fractionOfJson_fractionToJson (r : Rat) : fractionOfJson (fractionToJson r) = .ok r := by
  have hnum := integerOfJson_integerToJson r.num
  have hden := integerOfJson_integerToJson (Int.ofNat r.den)
  show (do
    let numer ← integerOfJson (integerToJson r.num)
    let denom ← integerOfJson (integerToJson (Int.ofNat r.den))
    (ratio numer denom).mapError DocumentError.linear) = _
  rw [hnum, hden]
  show (ratio r.num (Int.ofNat r.den)).mapError DocumentError.linear = _
  rw [Literal.ratio_num_den]
  rfl

theorem fractionsOfJson_map (row : List Rat) :
    fractionsOfJson (.array (row.map fractionToJson)) = .ok row :=
  mapM_map_eq_ok fun r _ => fractionOfJson_fractionToJson r

/-! ## Matrices and vectors -/

theorem vectorOfJson_vectorToJson {v : RatVector} (h : v.WellFormed) :
    vectorOfJson (vectorToJson v) = .ok v := by
  have hne : v.entries.isEmpty = false := List.isEmpty_eq_false_iff.mpr h
  rw [vectorOfJson, vectorToJson, fractionsOfJson_map]
  show (RatVector.ofList v.entries).mapError DocumentError.linear = _
  rw [RatVector.ofList, hne]
  rfl

theorem matrixOfJson_matrixToJson {m : RatMatrix} (h : m.WellFormed) :
    matrixOfJson (matrixToJson m) = .ok m := by
  let rowToJson (row : List Rat) : Json := .array (row.map fractionToJson)
  have hrows : (m.rows.map rowToJson).mapM fractionsOfJson = .ok m.rows :=
    mapM_map_eq_ok fun row _ => fractionsOfJson_map row
  show (do
    let rows ← (m.rows.map rowToJson).mapM fractionsOfJson
    (RatMatrix.ofRows rows m.augmented).mapError DocumentError.linear) = _
  rw [hrows]
  show (RatMatrix.ofRows m.rows m.augmented).mapError DocumentError.linear = _
  rw [h.rectangular.ofRows_eq h.1 h.2.1]
  rfl

/-! ## Stores -/

theorem exact_integerToJson (depth : Nat) (n : Int) : Exact depth (integerToJson n) := by
  unfold integerToJson
  split_ifs with hn
  · obtain ⟨hmin, hmax⟩ := Bool.and_eq_true_iff.mp hn
    have hlt : Int.ofNat (powerOfTwo 63) < Int.ofNat (powerOfTwo 64) := by decide
    exact .integer (of_decide_eq_true hmin) (Int.lt_trans (of_decide_eq_true hmax) hlt)
  · exact .string _

theorem exact_fractionToJson (depth : Nat) (r : Rat) : Exact (depth + 1) (fractionToJson r) := by
  have hsorted : ["__type__", "denominator", "numerator"].Pairwise (· < ·) := by decide +kernel
  refine .object hsorted ?_
  simp only [List.forall_mem_cons]
  exact ⟨.string _, exact_integerToJson _ _, exact_integerToJson _ _, by simp⟩

theorem exact_vectorToJson (depth : Nat) (v : RatVector) : Exact (depth + 2) (vectorToJson v) :=
  .array (List.forall_mem_map.mpr fun r _ => exact_fractionToJson depth r)

theorem exact_matrixToJson (depth : Nat) (m : RatMatrix) : Exact (depth + 4) (matrixToJson m) := by
  have hsorted : ["augmented", "values"].Pairwise (· < ·) := by decide +kernel
  refine .object hsorted ?_
  simp only [List.forall_mem_cons]
  refine ⟨.bool _, .array (List.forall_mem_map.mpr fun row _ => ?_), by simp⟩
  exact .array (List.forall_mem_map.mpr fun r _ => exact_fractionToJson depth r)

/-- The members for a kind are sorted by their names. -/
theorem exact_namedSlots {α : Type} {kind : Kind} {slot : Fin 26 → Option α} {encode : α → Json}
    {depth : Nat} (h : ∀ a, Exact depth (encode a)) :
    Exact (depth + 1) (.object ((namedSlots kind slot).map fun e => (e.1, encode e.2))) := by
  refine .object ?_ (List.forall_mem_map.mpr fun e _ => h e.2)
  rw [List.map_map]
  exact List.pairwise_map.mpr namedSlots_sorted

namespace Store

variable {s : Store}

theorem exact_toJson (s : Store) (depth : Nat) : Exact (depth + 6) s.toJson := by
  have hsorted : ["matrices", "vectors"].Pairwise (· < ·) := by decide +kernel
  refine .object hsorted ?_
  simp only [List.forall_mem_cons]
  exact ⟨exact_namedSlots (exact_matrixToJson depth),
    exact_namedSlots (exact_vectorToJson (depth + 2)), by simp⟩

/-- A store is read back from its document. -/
theorem ofJson_toJson (h : s.WellFormed) : ofJson s.toJson = .ok s := by
  have hmatrices : s.toJson.entriesOf "matrices" =
      s.namedMatrices.map fun e => (e.1, matrixToJson e.2) := rfl
  have hvectors : s.toJson.entriesOf "vectors" =
      s.namedVectors.map fun e => (e.1, vectorToJson e.2) := rfl
  refine (ofJson_eq_ok_iff (exact_toJson s 0).sorted).mpr ⟨⟨?_, ?_⟩, ?_, ?_, ?_⟩
  · exact fun found hfound => ⟨_, (Option.some.inj hfound).symm⟩
  · exact fun found hfound => ⟨_, (Option.some.inj hfound).symm⟩
  · rw [hmatrices, hvectors, List.map_map, List.map_map]
    rfl
  · rw [hmatrices]
    refine List.forall_mem_map.mpr fun e he => ?_
    obtain ⟨i, hi, -⟩ := mem_namedSlots.mp he
    exact ⟨e.2, mem_namedMatrices_iff.mp he,
      matrixOfJson_eq_ok_iff.mp (matrixOfJson_matrixToJson (h.matrixAt i e.2 hi))⟩
  · rw [hvectors]
    refine List.forall_mem_map.mpr fun e he => ?_
    obtain ⟨i, hi, -⟩ := mem_namedSlots.mp he
    exact ⟨e.2, mem_namedVectors_iff.mp he,
      vectorOfJson_eq_ok_iff.mp (vectorOfJson_vectorToJson (h.vectorAt i e.2 hi))⟩

/-- What is read from the text of a store is its document. -/
theorem read?_pretty_toJson (s : Store) : read? s.toJson.pretty = some s.toJson :=
  read?_text (exact_toJson s 121) _

end Store

end ExactLinear
