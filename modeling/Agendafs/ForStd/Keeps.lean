import Agendafs.ForStd.Prog
import Mathlib.Order.Defs.Unbundled

/-!
# What every run of a program keeps

A program keeps a relation if each of its runs that returns leaves a state related to the
state before. For a reflexive and transitive relation (an invariant, a part of the state
that does not change, both at once) it is enough that the steps keep it.

## Key results

- `Keeps.bind`, `Keeps.forM`: the rules for sequences and loops
- `Keeps.zoom`: programs on a part of the state
-/

namespace Prog

variable {ε σ τ α β : Type}

/-- Whenever the program returns, the states before and after are related. -/
def Keeps (R : σ → σ → Prop) (m : Prog ε σ α) : Prop :=
  ∀ ⦃s : σ⦄ ⦃a : α⦄ ⦃s' : σ⦄, m s = .ok (a, s') → R s s'

namespace Keeps

variable {R : σ → σ → Prop}

@[grind ←] theorem throw (e : ε) : Keeps R (MonadExcept.throw e : Prog ε σ α) := fun _ _ _ => nofun

@[grind ←] theorem modify {f : σ → σ} (h : ∀ s, R s (f s)) :
    Keeps R (modify f : Prog ε σ PUnit) := by
  rintro s _ _ ⟨⟩
  exact h s

section

variable [Std.Refl R]

@[grind ←] theorem pure (a : α) : Keeps R (Pure.pure a : Prog ε σ α) := by
  rintro s _ _ ⟨⟩
  exact Std.Refl.refl s

@[grind ←] theorem get : Keeps R (MonadState.get : Prog ε σ σ) := by
  rintro s _ _ ⟨⟩
  exact Std.Refl.refl s

end

/-- The rule for a sequence, where the second part may use what the first one has returned. -/
theorem bind_of [IsTrans σ R] {m : Prog ε σ α} {f : α → Prog ε σ β} (hm : Keeps R m)
    (hf : ∀ s a s', m s = .ok (a, s') → ∀ b s'', f a s' = .ok (b, s'') → R s' s'') :
    Keeps R (m >>= f) := by
  intro s b s'' hrun
  rw [bind_run] at hrun
  split at hrun
  · rename_i a s' hfirst
    exact Trans.trans (hm hfirst) (hf s a s' hfirst b s'' hrun)
  · cases hrun

/-- The rule for a sequence. -/
@[grind ←] theorem bind [IsTrans σ R] {m : Prog ε σ α} {f : α → Prog ε σ β} (hm : Keeps R m)
    (hf : ∀ a, Keeps R (f a)) : Keeps R (m >>= f) :=
  hm.bind_of fun _ a _ _ _ _ hrun => hf a hrun

/-- The rule for a loop. -/
theorem forM [Std.Refl R] [IsTrans σ R] {f : α → Prog ε σ PUnit} {xs : List α}
    (h : ∀ x ∈ xs, Keeps R (f x)) : Keeps R (xs.forM f) := by
  induction xs with
  | nil => exact pure _
  | cons x xs ih =>
    exact (h x List.mem_cons_self).bind fun _ => ih fun y hy => h y (List.mem_cons_of_mem _ hy)

/-- The rule for a program on a part of the state. -/
theorem zoom {S : τ → τ → Prop} {get : σ → τ} {set : τ → σ → σ} {m : Prog ε τ α} (h : Keeps S m)
    (hR : ∀ s t, S (get s) t → R s (set t s)) : Keeps R (Prog.zoom get set m) := by
  intro s a s' hrun
  cases hpart : m (get s) with
  | ok r =>
    rw [zoom_ok hpart] at hrun
    cases hrun
    exact hR s _ (h hpart)
  | error e =>
    rw [zoom_error hpart] at hrun
    cases hrun

end Keeps

end Prog
