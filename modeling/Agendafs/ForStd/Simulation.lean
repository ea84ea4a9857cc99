import Agendafs.ForStd.Prog

/-!
# Programs that follow each other

A program follows another one, in a relation between their states, if it returns
whenever the other one does, with a related value and in a related state. A
resource that the other one uses up may be bounded: then this is asked of the runs
that stay within the bound. The rules follow the constructors of a `do` block, so
that a program is shown to follow another one of the same shape part by part.

## Key results

- `Follows.bind`, `Follows.skip`: the rules for sequences
- `Follows.forM`, `Follows.mapM`: the rules for loops
-/

namespace Prog

variable {ε ε' σ σ' α α' β β' : Type}

/-- What two states have to do with each other, and how much of a resource may be used. -/
structure Pairing (σ' σ : Type) where
  rel : σ' → σ → Prop
  used : σ → Nat
  limit : Nat

/-- `m` never gives back what it has used up, and whenever it returns within the limit, `m'` returns
    a related value. -/
def Follows (R : Pairing σ' σ) (V : α' → α → Prop) (m' : Prog ε' σ' α') (m : Prog ε σ α) : Prop :=
  ∀ s a s', m s = .ok (a, s') → R.used s ≤ R.used s' ∧
    (R.used s' ≤ R.limit → ∀ c, R.rel c s →
      ∃ a' c', m' c = .ok (a', c') ∧ V a' a ∧ R.rel c' s')

namespace Follows

variable {R : Pairing σ' σ} {V : α' → α → Prop} {W : β' → β → Prop} {m' : Prog ε' σ' α'}
  {m : Prog ε σ α}

theorem pure {a' : α'} {a : α} (h : V a' a) :
    Follows R V (Pure.pure a' : Prog ε' σ' α') (Pure.pure a : Prog ε σ α) := by
  rintro s _ _ ⟨⟩
  exact ⟨Nat.le_refl _, fun _ c hc => ⟨a', c, rfl, h, hc⟩⟩

/-- A program that stops need not be followed. -/
theorem throw {e : ε} : Follows R V m' (MonadExcept.throw e : Prog ε σ α) := fun _ _ _ => nofun

/-- The rule for a sequence, where each value that may be returned has a related one. -/
theorem bind {f' : α' → Prog ε' σ' β'} {f : α → Prog ε σ β} (hV : ∀ a, ∃ a', V a' a)
    (hm : Follows R V m' m) (hf : ∀ a' a, V a' a → Follows R W (f' a') (f a)) :
    Follows R W (m' >>= f') (m >>= f) := by
  intro s b s' hrun
  rw [bind_run] at hrun
  split at hrun
  · rename_i a t hfirst
    obtain ⟨hst, hgoes⟩ := hm s a t hfirst
    have hrest : R.used t ≤ R.used s' := by
      obtain ⟨a', ha'⟩ := hV a
      exact (hf a' a ha' t b s' hrun).1
    refine ⟨Nat.le_trans hst hrest, fun hlimit c hc => ?_⟩
    obtain ⟨a', c₁, hrun₁, ha', hc₁⟩ := hgoes (Nat.le_trans hrest hlimit) c hc
    obtain ⟨b', c', hrun', hb', hc'⟩ := (hf a' a ha' t b s' hrun).2 hlimit c₁ hc₁
    exact ⟨b', c', by rw [bind_run_ok hrun₁, hrun'], hb', hc'⟩
  · cases hrun

/-- The rule for a sequence whose first parts return the same. -/
theorem bind_eq {m' : Prog ε' σ' α} {f' : α → Prog ε' σ' β'} {f : α → Prog ε σ β}
    (hm : Follows R Eq m' m) (hf : ∀ a, Follows R W (f' a) (f a)) :
    Follows R W (m' >>= f') (m >>= f) :=
  hm.bind (fun a => ⟨a, rfl⟩) fun _ a h => h ▸ hf a

/-- The rule for a step that only the following program takes, and that changes nothing. -/
theorem skip {γ : Type} {step : Prog ε' σ' γ} {x : γ} {f' : γ → Prog ε' σ' α'}
    (hstep : ∀ c, step c = .ok (x, c)) (h : Follows R V (f' x) m) :
    Follows R V (step >>= f') m := by
  intro s a s' hrun
  obtain ⟨hused, hgoes⟩ := h s a s' hrun
  refine ⟨hused, fun hlimit c hc => ?_⟩
  rw [bind_run_ok (hstep c)]
  exact hgoes hlimit c hc

/-- The rule for a loop. -/
theorem forM {γ : Type} {f' : γ → Prog ε' σ' PUnit} {f : γ → Prog ε σ PUnit} {xs : List γ}
    (h : ∀ x, Follows R Eq (f' x) (f x)) : Follows R Eq (xs.forM f') (xs.forM f) := by
  induction xs with
  | nil => exact pure rfl
  | cons x xs ih => exact (h x).bind_eq fun _ => ih

/-- The rule for a loop that collects. -/
theorem mapM {γ : Type} {f' : γ → Prog ε' σ' α} {f : γ → Prog ε σ α} {xs : List γ}
    (h : ∀ x, Follows R Eq (f' x) (f x)) : Follows R Eq (xs.mapM f') (xs.mapM f) := by
  induction xs with
  | nil => exact pure rfl
  | cons x xs ih =>
    rw [List.mapM_cons, List.mapM_cons]
    exact (h x).bind_eq fun _ => ih.bind_eq fun _ => pure rfl

end Follows

end Prog
