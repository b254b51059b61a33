/-!
# Computations in place

An `InPlace` computation reads and writes a state. What it has written stays when it fails
afterwards, unlike in a function from states to states that may fail. `run_bind` says how two such
computations follow each other; `within` has a computation on a part of the state act on the whole.
-/

namespace ExactLinear

/-- A computation on a state, which may have changed when the computation fails. -/
abbrev InPlace (σ ε : Type) := ExceptT ε (StateM σ)

namespace InPlace

variable {σ τ ε ε' α β : Type}

/-- Acts on a part of the state, and on nothing else. -/
def within (part : σ → τ) (replace : σ → τ → σ) (f : ε → ε') (x : InPlace τ ε α) :
    InPlace σ ε' α := do
  let done := x.run.run (part (← get))
  modify (replace · done.2)
  ofExcept (done.1.mapError f)

@[simp] theorem run_pure (a : α) (s : σ) :
    (pure a : InPlace σ ε α).run.run s = (.ok a, s) := rfl

@[simp] theorem run_get (s : σ) : (get : InPlace σ ε σ).run.run s = (.ok s, s) := rfl

@[simp] theorem run_modify (f : σ → σ) (s : σ) :
    (modify f : InPlace σ ε Unit).run.run s = (.ok (), f s) := rfl

@[simp] theorem run_ofExcept (x : Except ε α) (s : σ) :
    (ofExcept x : InPlace σ ε α).run.run s = (x, s) := by
  cases x <;> rfl

/-- The second of two computations starts in the state that the first one leaves, if that one does
not fail. -/
theorem run_bind (x : InPlace σ ε α) (f : α → InPlace σ ε β) (s : σ) :
    (x >>= f).run.run s =
      match x.run.run s with
      | (.ok a, s') => (f a).run.run s'
      | (.error e, s') => (.error e, s') := by
  unfold ExceptT.run StateT.run
  simp only [bind, ExceptT.bind, ExceptT.mk, StateT.bind]
  rcases x s with ⟨e | a, s'⟩ <;> rfl

theorem run_bind_of_ok {x : InPlace σ ε α} {a : α} {s s' : σ} (h : x.run.run s = (.ok a, s'))
    (f : α → InPlace σ ε β) : (x >>= f).run.run s = (f a).run.run s' := by
  rw [run_bind, h]

theorem run_bind_of_error {x : InPlace σ ε α} {e : ε} {s s' : σ}
    (h : x.run.run s = (.error e, s')) (f : α → InPlace σ ε β) :
    (x >>= f).run.run s = (.error e, s') := by
  rw [run_bind, h]

/-- What a computation does on a part of the state it does to the whole. -/
theorem run_within (part : σ → τ) (replace : σ → τ → σ) (f : ε → ε') (x : InPlace τ ε α) (s : σ) :
    (within part replace f x).run.run s =
      ((x.run.run (part s)).1.mapError f, replace s (x.run.run (part s)).2) := by
  simp only [within, run_bind, run_get, run_modify, run_ofExcept]

end InPlace

end ExactLinear
