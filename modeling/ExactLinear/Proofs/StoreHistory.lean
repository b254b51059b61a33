import Mathlib.Data.List.Induction
import ExactLinear.Proofs.Kinds

/-!
# A store is a finite map

What a name stands for after any inserts and removals can be read off the calls alone: it is the
value of the last insert of the name that succeeded, unless the name was removed later (`Stands`).
An insert succeeds for one letter of the case that the kind of the value has, and for no other name.

One call decides what its own name stands for and leaves all other names alone
(`Store.find?_perform_eq_some_iff`). The history says the same of the last call in it
(`Store.stands_concat_iff`), so the two agree by induction on the calls
(`Store.find?_after_eq_some_iff`).
-/

namespace ExactLinear

/-! ## Names that are refused -/

/-- A letter of the other case is refused as such, and what is no letter is no name. -/
theorem checkName_eq_error_iff {kind : Kind} {name : String} {e : NameError} :
    checkName kind name = .error e ↔
      (∃ other ≠ kind, Kind.ofCase? name = some other) ∧ e = .kindMismatch name kind ∨
        Kind.ofCase? name = none ∧ e = .invalidName name := by
  rw [← Kind.map_fst_ofName?, checkName]
  cases Kind.ofName? name with
  | none => simp [eq_comm]
  | some found =>
    obtain ⟨other, i⟩ := found
    by_cases hkind : other = kind
    · simp [hkind]
    · simp [hkind, Ne.symm hkind, eq_comm]

namespace Store

variable {s t : Store} {name : String} {value : Stored} {e : NameError}

theorem exists_insert_eq_ok_iff :
    (∃ t, s.insert name value = .ok t) ↔ Kind.ofCase? name = some value.kind := by
  rw [Kind.ofCase?_eq_some_iff]
  cases value <;> simp [insert_eq_ok_iff, Stored.kind]

theorem insert_eq_error_iff :
    s.insert name value = .error e ↔ checkName value.kind name = .error e := by
  cases value with
  | matrix m =>
    rw [Stored.kind, Store.insert]
    cases checkName .matrix name <;> simp [bind, Except.bind, pure, Except.pure]
  | vector v =>
    rw [Stored.kind, Store.insert]
    cases checkName .vector name <;> simp [bind, Except.bind, pure, Except.pure]

theorem insert_eq_kindMismatch_iff :
    s.insert name value = .error (.kindMismatch name value.kind) ↔
      ∃ kind ≠ value.kind, Kind.ofCase? name = some kind := by
  simp [insert_eq_error_iff, checkName_eq_error_iff]

theorem insert_eq_invalidName_iff :
    s.insert name value = .error (.invalidName name) ↔ Kind.ofCase? name = none := by
  simp [insert_eq_error_iff, checkName_eq_error_iff]

/-! ## Looking up a kind of value -/

theorem matrix?_eq_some_iff {m : RatMatrix} :
    s.matrix? name = some m ↔ s.find? name = some (.matrix m) := by
  simp_rw [find?_eq_some_matrix_iff, ← checkName_eq_ok_iff]
  unfold matrix?
  cases checkName .matrix name <;> simp

theorem vector?_eq_some_iff {v : RatVector} :
    s.vector? name = some v ↔ s.find? name = some (.vector v) := by
  simp_rw [find?_eq_some_vector_iff, ← checkName_eq_ok_iff]
  unfold vector?
  cases checkName .vector name <;> simp

theorem matrix?_congr (h : s.find? name = t.find? name) : s.matrix? name = t.matrix? name :=
  Option.ext fun m => by rw [matrix?_eq_some_iff, matrix?_eq_some_iff, h]

theorem vector?_congr (h : s.find? name = t.find? name) : s.vector? name = t.vector? name :=
  Option.ext fun v => by rw [vector?_eq_some_iff, vector?_eq_some_iff, h]

/-! ## One call -/

/-- A call that may change a store. -/
inductive Call where
  | insert (name : String) (value : Stored)
  | remove (name : String)
deriving DecidableEq, Repr

/-- The name that a call is about. -/
def Call.target : Call → String
  | .insert name _ => name
  | .remove name => name

/-- What its name stands for after a call that is not refused. -/
def Call.outcome : Call → Option Stored
  | .insert _ value => some value
  | .remove _ => none

/-- The call is not refused. -/
def Call.Admitted : Call → Prop
  | .insert name value => Kind.ofCase? name = some value.kind
  | .remove _ => True

/-- The call is about the name and takes effect. -/
def Call.Touches (c : Call) (name : String) : Prop := c.target = name ∧ c.Admitted

instance Call.decidableAdmitted : DecidablePred Call.Admitted
  | .insert name value => inferInstanceAs (Decidable (Kind.ofCase? name = some value.kind))
  | .remove _ => inferInstanceAs (Decidable True)

instance Call.decidableTouches (c : Call) (name : String) : Decidable (c.Touches name) :=
  inferInstanceAs (Decidable (c.target = name ∧ c.Admitted))

/-- The store after a call. An insert that fails changes nothing. -/
def perform (s : Store) : Call → Store
  | .insert name value => (s.insert name value).toOption.getD s
  | .remove name => (s.remove name).2

theorem perform_of_not_admitted {c : Call} (h : ¬c.Admitted) (s : Store) : s.perform c = s := by
  cases c with
  | insert name value =>
    cases hinsert : s.insert name value with
    | ok t => exact absurd (exists_insert_eq_ok_iff.mp ⟨t, hinsert⟩) h
    | error e => rw [perform, hinsert]; rfl
  | remove name => exact absurd trivial h

theorem find?_perform_of_admitted {c : Call} (h : c.Admitted) (s : Store) (name : String) :
    (s.perform c).find? name = if name = c.target then c.outcome else s.find? name := by
  cases c with
  | insert target value =>
    obtain ⟨t, ht⟩ := (exists_insert_eq_ok_iff (s := s)).mpr h
    rw [perform, ht]
    exact find?_insert ht name
  | remove target => exact find?_erase s target name

/-- A call leaves the names alone that it does not touch. -/
theorem find?_perform_of_not_touches {c : Call} (h : ¬c.Touches name) (s : Store) :
    (s.perform c).find? name = s.find? name := by
  by_cases hc : c.Admitted
  · have hname : name ≠ c.target := fun heq => h ⟨heq.symm, hc⟩
    rw [find?_perform_of_admitted hc, if_neg hname]
  · rw [perform_of_not_admitted hc]

theorem Call.touches_and_outcome_iff {c : Call} :
    c.Touches name ∧ c.outcome = some value ↔
      c = .insert name value ∧ Kind.ofCase? name = some value.kind := by
  constructor
  · rintro ⟨⟨rfl, hc⟩, hvalue⟩
    cases c with
    | insert target x =>
      obtain rfl := Option.some.inj hvalue
      exact ⟨rfl, hc⟩
    | remove target => cases hvalue
  · rintro ⟨rfl, hkind⟩
    exact ⟨⟨rfl, hkind⟩, rfl⟩

/-- A name stands for a value after a call that binds it to the value, or after one that does not
touch it, if it stood for the value before. -/
theorem find?_perform_eq_some_iff (s : Store) (c : Call) :
    (s.perform c).find? name = some value ↔
      c = .insert name value ∧ Kind.ofCase? name = some value.kind ∨
        ¬c.Touches name ∧ s.find? name = some value := by
  rw [← Call.touches_and_outcome_iff]
  by_cases h : c.Touches name
  · rw [find?_perform_of_admitted h.2, if_pos h.1.symm]
    simp [h]
  · rw [find?_perform_of_not_touches h]
    simp [h]

/-! ## Calls one after the other -/

/-- The store after calls, from the empty store on. -/
def after (calls : List Call) : Store := calls.foldl perform empty

theorem after_concat (calls : List Call) (c : Call) :
    after (calls ++ [c]) = (after calls).perform c := by
  rw [after, List.foldl_append]
  rfl

/-- The value was bound to the name by an insert that succeeded, and no later call binds the name
again or removes it. -/
def Stands (calls : List Call) (name : String) (value : Stored) : Prop :=
  ∃ before later, calls = before ++ .insert name value :: later ∧
    Kind.ofCase? name = some value.kind ∧ ∀ c ∈ later, ¬c.Touches name

theorem not_stands_nil : ¬Stands [] name value := by
  rintro ⟨before, later, heq, -⟩
  exact List.append_ne_nil_of_right_ne_nil before (List.cons_ne_nil _ _) heq.symm

theorem stands_concat_iff (calls : List Call) (c : Call) :
    Stands (calls ++ [c]) name value ↔
      c = .insert name value ∧ Kind.ofCase? name = some value.kind ∨
        ¬c.Touches name ∧ Stands calls name value := by
  constructor
  · rintro ⟨before, later, heq, hkind, hlater⟩
    -- the insert is the last call, or the last call is one of the later ones
    obtain rfl | ⟨later, last, rfl⟩ := List.eq_nil_or_concat' later
    · obtain ⟨-, hlast⟩ := List.append_inj' heq rfl
      exact .inl ⟨List.singleton_inj.mp hlast, hkind⟩
    · rw [← List.cons_append, ← List.append_assoc] at heq
      obtain ⟨rfl, hlast⟩ := List.append_inj' heq rfl
      obtain rfl := List.singleton_inj.mp hlast
      obtain ⟨hlater, hc⟩ := List.forall_mem_append.mp hlater
      exact .inr ⟨hc _ (List.mem_singleton_self _), before, later, rfl, hkind, hlater⟩
  · rintro (⟨rfl, hkind⟩ | ⟨hc, before, later, rfl, hkind, hlater⟩)
    · exact ⟨calls, [], rfl, hkind, fun c hc => absurd hc List.not_mem_nil⟩
    · refine ⟨before, later ++ [c], by rw [List.append_assoc, List.cons_append], hkind, ?_⟩
      exact List.forall_mem_append.mpr ⟨hlater, List.forall_mem_singleton.mpr hc⟩

/-- A name stands for the value that the calls say. -/
theorem find?_after_eq_some_iff (calls : List Call) :
    (after calls).find? name = some value ↔ Stands calls name value := by
  induction calls using List.reverseRecOn with
  | nil => exact iff_of_false (by simp [after, find?_empty]) not_stands_nil
  | append_singleton calls c ih =>
    rw [after_concat, find?_perform_eq_some_iff, stands_concat_iff, ih]

/-- A call changes nothing for the names that it is not about. -/
theorem find?_after_concat_of_ne {c : Call} (h : c.target ≠ name) (calls : List Call) :
    (after (calls ++ [c])).find? name = (after calls).find? name := by
  rw [after_concat, find?_perform_of_not_touches fun htouches => h htouches.1]

theorem nodup_of_ascending {l : List String} (h : l.Pairwise (· < ·)) : l.Nodup :=
  h.imp fun {a b} (hlt : a < b) (heq : a = b) => String.lt_irrefl b (heq ▸ hlt)

theorem names_nodup (s : Store) : s.names.Nodup := by
  refine List.nodup_append.mpr ⟨?_, ?_, ?_⟩
  · exact nodup_of_ascending (namedMatrices_sorted s)
  · exact nodup_of_ascending (namedVectors_sorted s)
  · simp only [List.mem_map, Prod.exists, exists_and_right, exists_eq_right]
    rintro n ⟨m, hm⟩ _ ⟨v, hv⟩ rfl
    exact find?_ne_vector (mem_namedMatrices_iff.mp hm) s v (mem_namedVectors_iff.mp hv)

/-- **The store is a finite map from names to values.** After any calls from the empty store on, an
insert succeeds exactly for one letter of the case that the kind of its value has; for a letter of
the other case and for everything else it is refused, each in its way, and changes nothing. The
look-ups find the value of the last insert of the name that succeeded and that no removal followed,
and nothing otherwise; a removal tells whether there was such a value. A call about one name changes
nothing for another. The names are listed once each, those of matrices before those of vectors, and
alphabetically in both groups. -/
theorem after_refines_map (calls : List Call) :
    (∀ name value,
      ((∃ t, (after calls).insert name value = .ok t) ↔ Kind.ofCase? name = some value.kind) ∧
      ((after calls).insert name value = .error (.kindMismatch name value.kind) ↔
        ∃ kind ≠ value.kind, Kind.ofCase? name = some kind) ∧
      ((after calls).insert name value = .error (.invalidName name) ↔
        Kind.ofCase? name = none) ∧
      (Kind.ofCase? name ≠ some value.kind →
        after (calls ++ [.insert name value]) = after calls)) ∧
    (∀ name m, (after calls).matrix? name = some m ↔ Stands calls name (.matrix m)) ∧
    (∀ name v, (after calls).vector? name = some v ↔ Stands calls name (.vector v)) ∧
    (∀ name, ((after calls).remove name).1 = true ↔ ∃ value, Stands calls name value) ∧
    (∀ (c : Call) (name : String), c.target ≠ name →
      (after (calls ++ [c])).matrix? name = (after calls).matrix? name ∧
        (after (calls ++ [c])).vector? name = (after calls).vector? name) ∧
    (after calls).names.Nodup ∧
    ∃ upper lower, (after calls).names = upper ++ lower ∧
      upper.Pairwise (· < ·) ∧ lower.Pairwise (· < ·) ∧
      (∀ name, name ∈ upper ↔ ∃ m, (after calls).matrix? name = some m) ∧
      ∀ name, name ∈ lower ↔ ∃ v, (after calls).vector? name = some v := by
  refine ⟨fun name value => ⟨exists_insert_eq_ok_iff, insert_eq_kindMismatch_iff,
      insert_eq_invalidName_iff, fun hkind => ?_⟩,
    fun name m => ?_, fun name v => ?_, fun name => ?_, fun c name hne => ?_, names_nodup _,
    _, _, rfl, namedMatrices_sorted _, namedVectors_sorted _, fun name => ?_, fun name => ?_⟩
  · have hrefused : ¬(Call.insert name value).Admitted := hkind
    rw [after_concat, perform_of_not_admitted hrefused]
  · rw [matrix?_eq_some_iff, find?_after_eq_some_iff]
  · rw [vector?_eq_some_iff, find?_after_eq_some_iff]
  · simp_rw [← find?_after_eq_some_iff]
    exact Option.isSome_iff_exists
  · have hfind := find?_after_concat_of_ne hne calls
    exact ⟨matrix?_congr hfind, vector?_congr hfind⟩
  · simp only [List.mem_map, Prod.exists, exists_and_right, exists_eq_right,
      mem_namedMatrices_iff, matrix?_eq_some_iff]
  · simp only [List.mem_map, Prod.exists, exists_and_right, exists_eq_right,
      mem_namedVectors_iff, vector?_eq_some_iff]

/-- A matrix is bound twice under one letter and a vector under the small letter; two inserts are
refused, and a name is removed again. -/
def overwriting : List Call :=
  [.insert "A" (.matrix ⟨⟨1, 1⟩, [[1]], false⟩), .insert "a" (.vector ⟨[5]⟩),
    .insert "A" (.matrix ⟨⟨1, 2⟩, [[2, 3]], true⟩), .insert "A" (.vector ⟨[7]⟩),
    .insert "Ä" (.matrix ⟨⟨1, 1⟩, [[1]], false⟩), .insert "B" (.matrix ⟨⟨1, 1⟩, [[1]], false⟩),
    .remove "B"]

/-- The later matrix counts, the refused vector does not, and the small letter is another name. -/
theorem after_refines_map_of_overwriting :
    (after overwriting).matrix? "A" = some ⟨⟨1, 2⟩, [[2, 3]], true⟩ ∧
      (Kind.ofCase? "A" ≠ some .vector ∧
        after (overwriting ++ [.insert "A" (.vector ⟨[7]⟩)]) = after overwriting) ∧
      ¬Stands overwriting "B" (.matrix ⟨⟨1, 1⟩, [[1]], false⟩) ∧
      ((Call.remove "A").target ≠ "a" ∧
        (after (overwriting ++ [.remove "A"])).vector? "a" = (after overwriting).vector? "a") ∧
      (after overwriting).names = ["A", "a"] := by
  obtain ⟨hinsert, hmatrix, -, hremove, hother, -⟩ := after_refines_map overwriting
  have hstands : Stands overwriting "A" (.matrix ⟨⟨1, 2⟩, [[2, 3]], true⟩) :=
    ⟨overwriting.take 2, overwriting.drop 3, rfl, by decide, by decide⟩
  have hkind : Kind.ofCase? "A" ≠ some .vector := by decide
  have hremoved : ((after overwriting).remove "B").1 = false := by decide
  refine ⟨(hmatrix "A" _).mpr hstands, ⟨hkind, (hinsert "A" (.vector ⟨[7]⟩)).2.2.2 hkind⟩,
    fun hB => ?_, ⟨by decide, (hother (.remove "A") "a" (by decide)).2⟩, by decide⟩
  exact Bool.false_ne_true (hremoved.symm.trans ((hremove "B").mpr ⟨_, hB⟩))

end Store

end ExactLinear
