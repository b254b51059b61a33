import Mathlib.Data.List.FinRange
import ExactLinear.Store.Basic

/-!
# Names and the slots of a store

A name is the letter of one slot: `Kind.ofName?` reads off the kind and the place in the alphabet
that `Kind.nameAt` writes, and reads nothing else. So the names of a store and its 52 slots are the
same thing, and `Store.find?_insert` can say what binding one name does to all of them. A store is
determined by what its names stand for (`Store.eq_of_find?`), and lists them in the order of the
alphabet.
-/

namespace ExactLinear

/-! ## Letters -/

theorem Kind.nameAt_eq_of_ofLetter? {c : Char} {kind : Kind} {i : Fin 26}
    (h : Kind.ofLetter? c = some (kind, i)) : kind.nameAt i = String.singleton c := by
  unfold Kind.ofLetter? at h
  split_ifs at h with hupper hlower
  all_goals
    obtain ⟨rfl, rfl⟩ := Prod.mk.inj (Option.some.inj h)
    unfold Kind.nameAt
    dsimp only
    rw [Nat.add_sub_cancel' (by omega), Char.ofNat_toNat]

theorem Kind.ofName?_nameAt (kind : Kind) (i : Fin 26) :
    Kind.ofName? (kind.nameAt i) = some (kind, i) := by
  cases kind <;> revert i <;> decide

/-- A name of a kind at a place is the letter there, and no other text. -/
theorem Kind.ofName?_eq_some_iff {name : String} {kind : Kind} {i : Fin 26} :
    Kind.ofName? name = some (kind, i) ↔ name = kind.nameAt i := by
  constructor
  · intro h
    unfold Kind.ofName? at h
    split at h
    · rename_i c hname
      rw [Kind.nameAt_eq_of_ofLetter? h, ← String.ofList_toList (s := name), hname]
      rfl
    · cases h
  · rintro rfl
    exact Kind.ofName?_nameAt kind i

theorem Kind.ne_nameAt_of_ofName? {name : String} (h : Kind.ofName? name = none) (kind : Kind)
    (i : Fin 26) : name ≠ kind.nameAt i := by
  rintro rfl
  rw [Kind.ofName?_nameAt] at h
  cases h

theorem Kind.nameAt_inj {kind kind' : Kind} {i i' : Fin 26} :
    kind.nameAt i = kind'.nameAt i' ↔ kind = kind' ∧ i = i' := by
  rw [← Kind.ofName?_eq_some_iff, Kind.ofName?_nameAt, Option.some.injEq, Prod.mk.injEq]

theorem checkName_eq_ok_iff {kind : Kind} {name : String} {i : Fin 26} :
    checkName kind name = .ok i ↔ name = kind.nameAt i := by
  rw [← Kind.ofName?_eq_some_iff]
  unfold checkName
  cases Kind.ofName? name with
  | none => simp
  | some found =>
    obtain ⟨kind', i'⟩ := found
    by_cases hkind : kind' = kind
    · simp [hkind]
    · simp [hkind]

/-! ## Slots -/

namespace Store

variable {s t : Store} {name : String} {value : Stored}

theorem matrixAt_set (s : Store) (i k : Fin 26) (m? : Option RatMatrix) :
    matrixAt { s with matrices := s.matrices.set i m? i.isLt } k =
      if k = i then m? else s.matrixAt k := by
  rw [matrixAt, matrixAt, Fin.getElem_fin, Fin.getElem_fin, Vector.getElem_set]
  simp only [Fin.ext_iff, eq_comm]

theorem vectorAt_set (s : Store) (i k : Fin 26) (v? : Option RatVector) :
    vectorAt { s with vectors := s.vectors.set i v? i.isLt } k =
      if k = i then v? else s.vectorAt k := by
  rw [vectorAt, vectorAt, Fin.getElem_fin, Fin.getElem_fin, Vector.getElem_set]
  simp only [Fin.ext_iff, eq_comm]

theorem find?_matrix_nameAt (s : Store) (i : Fin 26) :
    s.find? (Kind.matrix.nameAt i) = (s.matrixAt i).map .matrix := by
  rw [find?, Kind.ofName?_nameAt]

theorem find?_vector_nameAt (s : Store) (i : Fin 26) :
    s.find? (Kind.vector.nameAt i) = (s.vectorAt i).map .vector := by
  rw [find?, Kind.ofName?_nameAt]

/-- What is no letter stands for nothing. -/
theorem find?_eq_none_of_ofName? (s : Store) (h : Kind.ofName? name = none) :
    s.find? name = none := by
  rw [find?, h]

/-- A value is bound to a letter of its kind, and fills the slot of the letter. -/
theorem insert_eq_ok_iff : s.insert name value = .ok t ↔
    (∃ m i, value = .matrix m ∧ name = Kind.matrix.nameAt i ∧
        t = { s with matrices := s.matrices.set i (some m) i.isLt }) ∨
      ∃ v i, value = .vector v ∧ name = Kind.vector.nameAt i ∧
        t = { s with vectors := s.vectors.set i (some v) i.isLt } := by
  simp_rw [← checkName_eq_ok_iff]
  cases value with
  | matrix m =>
    rw [Store.insert]
    cases checkName .matrix name <;> simp [bind, Except.bind, pure, Except.pure, eq_comm]
  | vector v =>
    rw [Store.insert]
    cases checkName .vector name <;> simp [bind, Except.bind, pure, Except.pure, eq_comm]

/-- A change of one matrix slot is seen under its letter only. -/
theorem find?_setMatrix (s : Store) (i : Fin 26) (m? : Option RatMatrix) (name : String) :
    find? { s with matrices := s.matrices.set i m? i.isLt } name =
      if name = Kind.matrix.nameAt i then m?.map .matrix else s.find? name := by
  cases hname : Kind.ofName? name with
  | none =>
    rw [find?_eq_none_of_ofName? _ hname, find?_eq_none_of_ofName? _ hname,
      if_neg (Kind.ne_nameAt_of_ofName? hname _ i)]
  | some found =>
    obtain ⟨kind, k⟩ := found
    obtain rfl := Kind.ofName?_eq_some_iff.mp hname
    cases kind with
    | matrix =>
      simp only [find?_matrix_nameAt, matrixAt_set, Kind.nameAt_inj, true_and]
      split_ifs <;> rfl
    | vector =>
      rw [find?_vector_nameAt, find?_vector_nameAt, if_neg (by simp [Kind.nameAt_inj])]
      rfl

/-- A change of one vector slot is seen under its letter only. -/
theorem find?_setVector (s : Store) (i : Fin 26) (v? : Option RatVector) (name : String) :
    find? { s with vectors := s.vectors.set i v? i.isLt } name =
      if name = Kind.vector.nameAt i then v?.map .vector else s.find? name := by
  cases hname : Kind.ofName? name with
  | none =>
    rw [find?_eq_none_of_ofName? _ hname, find?_eq_none_of_ofName? _ hname,
      if_neg (Kind.ne_nameAt_of_ofName? hname _ i)]
  | some found =>
    obtain ⟨kind, k⟩ := found
    obtain rfl := Kind.ofName?_eq_some_iff.mp hname
    cases kind with
    | matrix =>
      rw [find?_matrix_nameAt, find?_matrix_nameAt, if_neg (by simp [Kind.nameAt_inj])]
      rfl
    | vector =>
      simp only [find?_vector_nameAt, vectorAt_set, Kind.nameAt_inj, true_and]
      split_ifs <;> rfl

/-- After a value was bound to a name, the name stands for it, and all other names stand for what
they stood for. -/
theorem find?_insert (h : s.insert name value = .ok t) (other : String) :
    t.find? other = if other = name then some value else s.find? other := by
  obtain ⟨m, i, rfl, rfl, rfl⟩ | ⟨v, i, rfl, rfl, rfl⟩ := insert_eq_ok_iff.mp h
  · exact find?_setMatrix s i (some m) other
  · exact find?_setVector s i (some v) other

/-- After a name was erased, it stands for nothing, and all other names stand for what they stood
for. -/
theorem find?_erase (s : Store) (name other : String) :
    (s.erase name).find? other = if other = name then none else s.find? other := by
  unfold erase
  split
  · rename_i i hname
    obtain rfl := Kind.ofName?_eq_some_iff.mp hname
    exact find?_setMatrix s i none other
  · rename_i i hname
    obtain rfl := Kind.ofName?_eq_some_iff.mp hname
    exact find?_setVector s i none other
  · rename_i hname
    split_ifs with hother
    · rw [hother, find?_eq_none_of_ofName? s hname]
    · rfl

/-! ## What a name stands for -/

theorem find?_eq_some_matrix_iff {m : RatMatrix} : s.find? name = some (.matrix m) ↔
    ∃ i, s.matrixAt i = some m ∧ name = Kind.matrix.nameAt i := by
  simp_rw [← Kind.ofName?_eq_some_iff]
  unfold find?
  cases Kind.ofName? name with
  | none => simp
  | some found =>
    obtain ⟨kind, i⟩ := found
    cases kind <;> simp

theorem find?_eq_some_vector_iff {v : RatVector} : s.find? name = some (.vector v) ↔
    ∃ i, s.vectorAt i = some v ∧ name = Kind.vector.nameAt i := by
  simp_rw [← Kind.ofName?_eq_some_iff]
  unfold find?
  cases Kind.ofName? name with
  | none => simp
  | some found =>
    obtain ⟨kind, i⟩ := found
    cases kind <;> simp

/-- No name stands for a matrix in one store and for a vector in another. -/
theorem find?_ne_vector {m : RatMatrix} (h : s.find? name = some (.matrix m)) (t : Store)
    (v : RatVector) : t.find? name ≠ some (.vector v) := by
  intro hvector
  obtain ⟨i, -, rfl⟩ := find?_eq_some_matrix_iff.mp h
  obtain ⟨i', -, hname⟩ := find?_eq_some_vector_iff.mp hvector
  cases (Kind.nameAt_inj.mp hname).1

/-- What a name stands for in one store can be bound to it in any other. -/
theorem exists_insert_of_find? {x : Stored} (h : t.find? name = some x) (s : Store) :
    ∃ next, s.insert name x = .ok next := by
  cases x with
  | matrix m =>
    obtain ⟨i, -, rfl⟩ := find?_eq_some_matrix_iff.mp h
    exact ⟨_, insert_eq_ok_iff.mpr (.inl ⟨m, i, rfl, rfl, rfl⟩)⟩
  | vector v =>
    obtain ⟨i, -, rfl⟩ := find?_eq_some_vector_iff.mp h
    exact ⟨_, insert_eq_ok_iff.mpr (.inr ⟨v, i, rfl, rfl, rfl⟩)⟩

theorem find?_empty (name : String) : empty.find? name = none := by
  unfold find? matrixAt vectorAt empty
  split <;> simp

/-- Stores in which every name stands for the same value are equal. -/
theorem eq_of_find? (h : ∀ name, s.find? name = t.find? name) : s = t := by
  have hmatrices : s.matrices = t.matrices := by
    refine Vector.ext fun i hi => ?_
    have hname := h (Kind.matrix.nameAt ⟨i, hi⟩)
    rw [find?_matrix_nameAt, find?_matrix_nameAt] at hname
    exact Option.map_injective (fun _ _ => Stored.matrix.inj) hname
  have hvectors : s.vectors = t.vectors := by
    refine Vector.ext fun i hi => ?_
    have hname := h (Kind.vector.nameAt ⟨i, hi⟩)
    rw [find?_vector_nameAt, find?_vector_nameAt] at hname
    exact Option.map_injective (fun _ _ => Stored.vector.inj) hname
  cases s
  cases t
  exact congrArg₂ Store.mk hmatrices hvectors

end Store

/-! ## Names in their order -/

theorem Kind.nameAt_lt (kind : Kind) {i i' : Fin 26} (h : i < i') :
    kind.nameAt i < kind.nameAt i' := by
  revert i i'
  cases kind <;> decide +kernel

/-- What stands in the slots of a kind, with its names, in the order of the alphabet. -/
def namedSlots {α : Type} (kind : Kind) (slot : Fin 26 → Option α) : List (String × α) :=
  (List.finRange 26).filterMap fun i => (slot i).map (kind.nameAt i, ·)

section NamedSlots

variable {α : Type} {kind : Kind} {slot : Fin 26 → Option α}

theorem mem_namedSlots {name : String} {a : α} :
    (name, a) ∈ namedSlots kind slot ↔ ∃ i, slot i = some a ∧ name = kind.nameAt i := by
  simp only [namedSlots, List.mem_filterMap, List.mem_finRange, true_and, Option.map_eq_some_iff,
    Prod.mk.injEq]
  constructor
  · rintro ⟨i, b, hslot, rfl, rfl⟩
    exact ⟨i, hslot, rfl⟩
  · rintro ⟨i, hslot, rfl⟩
    exact ⟨i, a, hslot, rfl, rfl⟩

theorem namedSlots_sorted : (namedSlots kind slot).Pairwise fun e e' => e.1 < e'.1 := by
  rw [namedSlots, List.pairwise_filterMap]
  refine (List.pairwise_lt_finRange 26).imp fun hlt e he e' he' => ?_
  obtain ⟨a, -, rfl⟩ := Option.map_eq_some_iff.mp he
  obtain ⟨a', -, rfl⟩ := Option.map_eq_some_iff.mp he'
  exact kind.nameAt_lt hlt

end NamedSlots

namespace Store

variable {s : Store} {name : String}

theorem namedMatrices_sorted (s : Store) : (s.namedMatrices.map (·.1)).Pairwise (· < ·) :=
  List.pairwise_map.mpr namedSlots_sorted

theorem namedVectors_sorted (s : Store) : (s.namedVectors.map (·.1)).Pairwise (· < ·) :=
  List.pairwise_map.mpr namedSlots_sorted

theorem mem_namedMatrices_iff {m : RatMatrix} :
    (name, m) ∈ s.namedMatrices ↔ s.find? name = some (.matrix m) :=
  mem_namedSlots.trans find?_eq_some_matrix_iff.symm

theorem mem_namedVectors_iff {v : RatVector} :
    (name, v) ∈ s.namedVectors ↔ s.find? name = some (.vector v) :=
  mem_namedSlots.trans find?_eq_some_vector_iff.symm

/-- The names of a store are those that stand for something. -/
theorem mem_names_iff : name ∈ s.names ↔ ∃ x, s.find? name = some x := by
  simp only [names, List.mem_append, List.mem_map, Prod.exists, exists_and_right, exists_eq_right,
    mem_namedMatrices_iff, mem_namedVectors_iff]
  constructor
  · rintro (⟨m, h⟩ | ⟨v, h⟩)
    · exact ⟨_, h⟩
    · exact ⟨_, h⟩
  · rintro ⟨x, h⟩
    cases x with
    | matrix m => exact .inl ⟨m, h⟩
    | vector v => exact .inr ⟨v, h⟩

end Store

end ExactLinear
