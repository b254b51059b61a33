import Mathlib.Data.List.Forall2

/-!
# Computations that may fail

`Yields P x` says that whatever `x` results in has the property `P`, `Fails x` that `x` results in
nothing, and `FailsOnly P x` that whatever `x` fails with has the property. `Agree R x y` says that
`x` and `y` both fail, with one error, or both succeed, with results that stand in the relation `R`.
Each has one rule for every way in which a computation is built, so that a proof follows the code.
-/

namespace ExactLinear

variable {ε ε' α α' β β' : Type}

theorem toOption_eq_some_iff {x : Except ε α} {a : α} : x.toOption = some a ↔ x = .ok a := by
  cases x with
  | error e => exact ⟨fun h => (nomatch h), fun h => (nomatch h)⟩
  | ok b => exact ⟨fun h => congrArg _ (Option.some.inj h), fun h => congrArg _ (Except.ok.inj h)⟩

theorem map_eq_ok_iff {x : Except ε α} {f : α → β} {b : β} :
    x.map f = .ok b ↔ ∃ a, x = .ok a ∧ f a = b := by
  cases x with
  | error e => simp [Except.map]
  | ok a => simp [Except.map]

theorem bind_eq_ok_iff {x : Except ε α} {f : α → Except ε β} {b : β} :
    x >>= f = .ok b ↔ ∃ a, x = .ok a ∧ f a = .ok b := by
  cases x with
  | error e => simp [bind, Except.bind]
  | ok a => simp [bind, Except.bind]

theorem mapError_eq_ok_iff {x : Except ε α} {f : ε → ε'} {a : α} :
    x.mapError f = .ok a ↔ x = .ok a := by
  cases x with
  | error e => simp [Except.mapError]
  | ok b => simp [Except.mapError]

/-- A loop results in the results for the items, one after the other. -/
theorem mapM_eq_ok_iff {f : α → Except ε β} {l : List α} {bs : List β} :
    l.mapM f = .ok bs ↔ List.Forall₂ (fun a b => f a = .ok b) l bs := by
  induction l generalizing bs with
  | nil => simp [pure, Except.pure, eq_comm]
  | cons a l ih =>
    rw [List.mapM_cons, bind_eq_ok_iff, List.forall₂_cons_left_iff]
    refine exists_congr fun b => ?_
    simp only [bind_eq_ok_iff, ih, pure, Except.pure, Except.ok.injEq, eq_comm (b := bs)]
    exact exists_and_left.symm

/-- A loop that renames the cause of its failure. -/
theorem mapM_mapError (f : α → Except ε β) (g : ε → ε') (l : List α) :
    l.mapM (fun a => (f a).mapError g) = (l.mapM f).mapError g := by
  induction l with
  | nil => rfl
  | cons a l ih =>
    rw [List.mapM_cons, List.mapM_cons, ih]
    cases f a with
    | error e => rfl
    | ok b => cases l.mapM f <;> rfl

/-- What holds of every result for an item holds of all results of a loop. -/
theorem forall_mem_of_mapM_eq_some {P : β → Prop} {f : α → Option β} {l : List α} {bs : List β}
    (hf : ∀ a b, f a = some b → P b) (h : l.mapM f = some bs) : ∀ b ∈ bs, P b := by
  induction l generalizing bs with
  | nil => cases h; nofun
  | cons a l ih =>
    rw [List.mapM_cons] at h
    obtain ⟨b, hb, h⟩ := Option.bind_eq_some_iff.mp h
    obtain ⟨bs, hbs, h⟩ := Option.bind_eq_some_iff.mp h
    cases h
    exact List.forall_mem_cons.mpr ⟨hf a b hb, ih hbs⟩

/-- A loop over two lists succeeds where both loops do. -/
theorem mapM_append_eq_ok_iff {f : α → Except ε β} {l l' : List α} {bs : List β} :
    (l ++ l').mapM f = .ok bs ↔
      ∃ xs ys, l.mapM f = .ok xs ∧ l'.mapM f = .ok ys ∧ bs = xs ++ ys := by
  rw [List.mapM_append]
  cases l.mapM f with
  | error e => simp [bind, Except.bind]
  | ok xs =>
    cases l'.mapM f with
    | error e => simp [bind, Except.bind]
    | ok ys => simp [bind, Except.bind, pure, Except.pure, eq_comm]

/-- A loop that undoes what was done to each item gives the items back. -/
theorem mapM_map_eq_ok {f : β → Except ε α} {g : α → β} {l : List α}
    (h : ∀ a ∈ l, f (g a) = .ok a) : (l.map g).mapM f = .ok l := by
  induction l with
  | nil => rfl
  | cons a l ih =>
    obtain ⟨ha, hl⟩ := List.forall_mem_cons.mp h
    rw [List.map_cons, List.mapM_cons, ha, ih hl]
    rfl

/-! ## Properties of results -/

/-- Whatever the computation results in has the property. -/
def Yields (P : α → Prop) (x : Except ε α) : Prop := ∀ a, x = .ok a → P a

namespace Yields

variable {P : α → Prop} {x : Except ε α}

theorem ok {a : α} (h : P a) : Yields P (.ok a : Except ε α) :=
  fun _ ha => Except.ok.inj ha ▸ h

theorem error (e : ε) : Yields P (.error e : Except ε α) := by
  intro a ha
  cases ha

theorem trivial (x : Except ε α) : Yields (fun _ => True) x := fun _ _ => .intro

/-- A computation yields what it results in. -/
theorem self (x : Except ε α) : Yields (fun a => x = .ok a) x := fun _ h => h

theorem bind {f : α → Except ε β} {Q : β → Prop} (h : Yields P x)
    (hf : ∀ a, P a → Yields Q (f a)) : Yields Q (x >>= f) := by
  cases x with
  | error e => exact error e
  | ok a => exact hf a (h a rfl)

/-- What is done with the results matters only for results with the property. -/
theorem bind_congr {f g : α → Except ε β} (h : Yields P x) (hfg : ∀ a, P a → f a = g a) :
    x >>= f = x >>= g := by
  cases x with
  | error e => rfl
  | ok a => exact hfg a (h a rfl)

theorem map {f : α → β} {Q : β → Prop} (h : Yields P x) (hf : ∀ a, P a → Q (f a)) :
    Yields Q (x.map f) := by
  cases x with
  | error e => exact error e
  | ok a => exact ok (hf a (h a rfl))

theorem mapError {f : ε → ε'} (h : Yields P x) : Yields P (x.mapError f) := by
  cases x with
  | error e => exact error (f e)
  | ok a => exact ok (h a rfl)

/-- A loop yields a list of results that all have the property. -/
theorem mapM {Q : β → Prop} {f : α → Except ε β} {l : List α} (h : ∀ a ∈ l, Yields Q (f a)) :
    Yields (fun bs => ∀ b ∈ bs, Q b) (l.mapM f) := by
  induction l with
  | nil => exact ok (List.forall_mem_nil _)
  | cons a l ih =>
    obtain ⟨ha, hl⟩ := List.forall_mem_cons.mp h
    rw [List.mapM_cons]
    exact ha.bind fun b hb => (ih hl).bind fun bs hbs => ok (List.forall_mem_cons.mpr ⟨hb, hbs⟩)

/-- A loop over a state yields what each of its steps keeps. -/
theorem foldlM {Q : β → Prop} {f : β → α → Except ε β} {l : List α} {b : β} (hb : Q b)
    (h : ∀ b a, Q b → Yields Q (f b a)) : Yields Q (l.foldlM f b) := by
  induction l generalizing b with
  | nil => exact ok hb
  | cons a l ih =>
    rw [List.foldlM_cons]
    exact (h b a hb).bind fun _ => ih

end Yields

/-! ## Failure -/

/-- The computation fails. -/
def Fails (x : Except ε α) : Prop := ∃ e, x = .error e

namespace Fails

variable {x : Except ε α}

theorem bind (h : Fails x) (f : α → Except ε β) : Fails (x >>= f) := by
  obtain ⟨e, rfl⟩ := h
  exact ⟨e, rfl⟩

/-- What is done with a result fails, if nothing has failed before. -/
theorem bind_right (x : Except ε α) {f : α → Except ε β} (h : ∀ a, x = .ok a → Fails (f a)) :
    Fails (x >>= f) := by
  cases x with
  | error e => exact ⟨e, rfl⟩
  | ok a => exact h a rfl

theorem mapError (h : Fails x) (f : ε → ε') : Fails (x.mapError f) := by
  obtain ⟨e, rfl⟩ := h
  exact ⟨f e, rfl⟩

/-- A loop fails where it fails for one item. -/
theorem mapM {f : α → Except ε β} {l : List α} (h : ∃ a ∈ l, Fails (f a)) : Fails (l.mapM f) := by
  induction l with
  | nil => simp at h
  | cons a l ih =>
    rw [List.mapM_cons]
    obtain ⟨b, hb, hfails⟩ := h
    obtain rfl | hb := List.mem_cons.mp hb
    · exact hfails.bind _
    · exact bind_right _ fun _ _ => (ih ⟨b, hb, hfails⟩).bind _

end Fails

/-! ## Causes of failure -/

/-- Whatever the computation fails with has the property. -/
def FailsOnly (P : ε → Prop) (x : Except ε α) : Prop := ∀ e, x = .error e → P e

namespace FailsOnly

variable {P : ε → Prop} {x : Except ε α}

theorem ok (a : α) : FailsOnly P (.ok a : Except ε α) := by
  intro e he
  cases he

theorem error {e : ε} (h : P e) : FailsOnly P (.error e : Except ε α) :=
  fun _ he => Except.error.inj he ▸ h

theorem mono {Q : ε → Prop} (h : FailsOnly P x) (hPQ : ∀ e, P e → Q e) : FailsOnly Q x :=
  fun e he => hPQ e (h e he)

theorem bind {f : α → Except ε β} (h : FailsOnly P x) (hf : ∀ a, x = .ok a → FailsOnly P (f a)) :
    FailsOnly P (x >>= f) := by
  cases x with
  | error e => exact error (h e rfl)
  | ok a => exact hf a rfl

theorem mapError {Q : ε' → Prop} {f : ε → ε'} (h : FailsOnly (fun e => Q (f e)) x) :
    FailsOnly Q (x.mapError f) := by
  cases x with
  | error e => exact error (h e rfl)
  | ok a => exact ok a

theorem mapM {f : α → Except ε β} {l : List α} (h : ∀ a ∈ l, FailsOnly P (f a)) :
    FailsOnly P (l.mapM f) := by
  induction l with
  | nil => exact ok []
  | cons a l ih =>
    obtain ⟨ha, hl⟩ := List.forall_mem_cons.mp h
    rw [List.mapM_cons]
    exact ha.bind fun b _ => (ih hl).bind fun bs _ => ok (b :: bs)

end FailsOnly

/-! ## Agreement of two computations -/

/-- Both computations fail, with one error, or both succeed, with related results. -/
inductive Agree (R : α → β → Prop) : Except ε α → Except ε β → Prop where
  | ok {a : α} {b : β} (h : R a b) : Agree R (.ok a) (.ok b)
  | error (e : ε) : Agree R (.error e) (.error e)

namespace Agree

variable {R : α → β → Prop} {x : Except ε α} {y : Except ε β}

theorem refl (x : Except ε α) : Agree Eq x x := by
  cases x with
  | error e => exact .error e
  | ok a => exact .ok rfl

/-- What the first computation yields holds of the related results. -/
theorem and_yields {P : α → Prop} (h : Agree R x y) (hx : Yields P x) :
    Agree (fun a b => R a b ∧ P a) x y := by
  cases h with
  | ok h => exact .ok ⟨h, hx _ rfl⟩
  | error e => exact .error e

/-- To agree on a function of the results is to have one image under it. -/
theorem map_eq_iff {f : α → α'} {g : β → α'} :
    Agree (fun a b => f a = g b) x y ↔ x.map f = y.map g := by
  constructor
  · intro h
    cases h with
    | ok h => exact congrArg Except.ok h
    | error e => rfl
  · intro h
    cases x with
    | error e =>
      cases y with
      | error e' => exact Except.error.inj h ▸ .error e
      | ok b => cases h
    | ok a =>
      cases y with
      | error e' => cases h
      | ok b => exact .ok (Except.ok.inj h)

theorem bind {R' : α' → β' → Prop} {f : α → Except ε α'} {g : β → Except ε β'} (h : Agree R x y)
    (hfg : ∀ a b, R a b → Agree R' (f a) (g b)) : Agree R' (x >>= f) (y >>= g) := by
  cases h with
  | ok h => exact hfg _ _ h
  | error e => exact .error e

theorem map {R' : α' → β' → Prop} {f : α → α'} {g : β → β'} (h : Agree R x y)
    (hfg : ∀ a b, R a b → R' (f a) (g b)) : Agree R' (x.map f) (y.map g) := by
  cases h with
  | ok h => exact .ok (hfg _ _ h)
  | error e => exact .error e

theorem mapError {f : ε → ε'} (h : Agree R x y) : Agree R (x.mapError f) (y.mapError f) := by
  cases h with
  | ok h => exact .ok h
  | error e => exact .error (f e)

theorem mono {R' : α → β → Prop} (h : Agree R x y) (hR : ∀ a b, R a b → R' a b) :
    Agree R' x y := by
  cases h with
  | ok h => exact .ok (hR _ _ h)
  | error e => exact .error e

end Agree

end ExactLinear
