import Mathlib.Data.List.Basic

/-!
# State programs that may stop

`Prog ε σ α` is a program over a state `σ` that either returns an `α` or stops
with an `ε`. This file gives the weakest-precondition rules for such programs:
`wp m Q E s` says that `m` started in `s` either returns with `Q` or stops with
an `E`. Rules are stated once per constructor of a `do` block, so that a proof
about a program follows the program.
-/

/-- A program over a state `σ` that returns an `α` or stops with an `ε`. -/
abbrev Prog (ε σ α : Type) := StateT σ (Except ε) α

namespace Prog

variable {ε σ τ α β : Type}

/-- Weakest precondition: run from `s`, the program returns with `Q` or stops with `E`. -/
def wp (m : Prog ε σ α) (Q : α → σ → Prop) (E : ε → Prop) (s : σ) : Prop :=
  match m s with
  | .ok (a, s') => Q a s'
  | .error e => E e

/-! ## Running one constructor -/

@[simp] theorem pure_run (a : α) (s : σ) : (pure a : Prog ε σ α) s = .ok (a, s) := rfl

@[simp] theorem get_run (s : σ) : (get : Prog ε σ σ) s = .ok (s, s) := rfl

@[simp] theorem modify_run (f : σ → σ) (s : σ) :
    (modify f : Prog ε σ PUnit) s = .ok (⟨⟩, f s) := rfl

/-- A sequence runs its first part and hands value and state to the second. -/
theorem bind_run (m : Prog ε σ α) (f : α → Prog ε σ β) (s : σ) :
    (m >>= f) s =
      match m s with
      | .ok (a, s') => f a s'
      | .error e => .error e := by
  change (m s >>= fun p => f p.1 p.2) = _
  cases m s <;> rfl

/-- A sequence whose first part returns goes on with the second part. -/
theorem bind_run_ok {m : Prog ε σ α} {f : α → Prog ε σ β} {s s' : σ} {a : α}
    (h : m s = .ok (a, s')) : (m >>= f) s = f a s' := by
  rw [bind_run, h]

/-- A sequence whose first part stops. -/
theorem bind_run_error {m : Prog ε σ α} {f : α → Prog ε σ β} {s : σ} {e : ε}
    (h : m s = .error e) : (m >>= f) s = .error e := by
  rw [bind_run, h]

/-! ## Returning -/

/-- Run from `s`, the program does not stop. -/
def Returns (m : Prog ε σ α) (s : σ) : Prop := ∃ r, m s = .ok r

theorem returns_of_ok {m : Prog ε σ α} {s : σ} {r : α × σ} (h : m s = .ok r) : m.Returns s :=
  ⟨r, h⟩

theorem not_returns_of_error {m : Prog ε σ α} {s : σ} {e : ε} (h : m s = .error e) :
    ¬ m.Returns s := by
  rintro ⟨r, hr⟩
  rw [h] at hr
  cases hr

/-- A sequence whose first part returns does so with its second part. -/
theorem returns_bind_ok {m : Prog ε σ α} {f : α → Prog ε σ β} {s s' : σ} {a : α}
    (h : m s = .ok (a, s')) : (m >>= f).Returns s ↔ (f a).Returns s' := by
  unfold Returns
  rw [bind_run_ok h]

theorem not_returns_bind_error {m : Prog ε σ α} {f : α → Prog ε σ β} {s : σ} {e : ε}
    (h : m s = .error e) : ¬ (m >>= f).Returns s := not_returns_of_error (bind_run_error h)

/-! ## Stops that do not happen -/

/-- From no state does the program stop with this. -/
def Avoids (e : ε) (m : Prog ε σ α) : Prop := ∀ s, m s ≠ .error e

namespace Avoids

variable {e e' : ε}

@[grind .] theorem pure (a : α) : Avoids e (Pure.pure a : Prog ε σ α) := fun _ => nofun

@[grind .] theorem get : Avoids e (MonadState.get : Prog ε σ σ) := fun _ => nofun

@[grind .] theorem modify (f : σ → σ) : Avoids e (modify f : Prog ε σ PUnit) := fun _ => nofun

@[grind ←] theorem throw (h : e' ≠ e) : Avoids e (MonadExcept.throw e' : Prog ε σ α) :=
  fun _ hs => h (Except.error.inj hs)

/-- The rule for a sequence. -/
@[grind ←] theorem bind {m : Prog ε σ α} {f : α → Prog ε σ β} (hm : Avoids e m)
    (hf : ∀ a, Avoids e (f a)) : Avoids e (m >>= f) := by
  intro s hs
  cases hrun : m s with
  | ok p =>
    rw [bind_run_ok hrun] at hs
    exact hf p.1 p.2 hs
  | error e' =>
    rw [bind_run_error hrun] at hs
    exact hm s (hrun.trans (congrArg _ (Except.error.inj hs)))

/-- The rule for a loop over a list. -/
theorem forM {f : α → Prog ε σ PUnit} {xs : List α} (h : ∀ x, Avoids e (f x)) :
    Avoids e (xs.forM f) := by
  induction xs with
  | nil => exact pure _
  | cons x xs ih => exact bind (h x) fun _ => ih

/-- The rule for a loop that collects. -/
theorem mapM {f : α → Prog ε σ β} {xs : List α} (h : ∀ x, Avoids e (f x)) :
    Avoids e (xs.mapM f) := by
  induction xs with
  | nil => exact pure _
  | cons x xs ih =>
    rw [List.mapM_cons]
    exact bind (h x) fun _ => bind ih fun _ => pure _

end Avoids

/-! ## Weakest-precondition rules -/

/-- The rule for a sequence. -/
theorem wp_bind (m : Prog ε σ α) (f : α → Prog ε σ β) (Q : β → σ → Prop) (E : ε → Prop)
    (s : σ) : wp (m >>= f) Q E s ↔ wp m (fun a s' => wp (f a) Q E s') E s := by
  unfold wp
  rw [bind_run]
  cases m s <;> rfl

/-- The rule for a sequence whose first part is known to return. -/
theorem wp_bind_ok {m : Prog ε σ α} {f : α → Prog ε σ β} {Q : β → σ → Prop} {E : ε → Prop}
    {s s' : σ} {a : α} (h : m s = .ok (a, s')) : wp (m >>= f) Q E s ↔ wp (f a) Q E s' := by
  unfold wp
  rw [bind_run_ok h]

/-- The rule for a sequence whose first part is known to stop. -/
theorem wp_bind_error {m : Prog ε σ α} {f : α → Prog ε σ β} {Q : β → σ → Prop} {E : ε → Prop}
    {s : σ} {e : ε} (h : m s = .error e) : wp (m >>= f) Q E s ↔ E e := by
  unfold wp
  rw [bind_run, h]

/-- The rule of consequence. -/
theorem wp_mono {m : Prog ε σ α} {Q Q' : α → σ → Prop} {E E' : ε → Prop} {s : σ}
    (h : wp m Q E s) (hQ : ∀ a s', Q a s' → Q' a s') (hE : ∀ e, E e → E' e) :
    wp m Q' E' s := by
  unfold wp at h ⊢
  cases hm : m s with
  | ok p => simp only [hm] at h ⊢; exact hQ _ _ h
  | error e => simp only [hm] at h ⊢; exact hE _ h

/-- A known run decides the weakest precondition. -/
theorem wp_of_ok {m : Prog ε σ α} {Q : α → σ → Prop} {E : ε → Prop} {s s' : σ} {a : α}
    (h : m s = .ok (a, s')) : wp m Q E s ↔ Q a s' := by
  unfold wp
  rw [h]

/-- What holds of every run that returns, if stopping is allowed. -/
theorem wp_of_forall_ok {m : Prog ε σ α} {Q : α → σ → Prop} {s : σ}
    (h : ∀ a s', m s = .ok (a, s') → Q a s') : wp m Q (fun _ => True) s := by
  unfold wp
  cases hm : m s with
  | ok p => exact h p.1 p.2 hm
  | error e => trivial

/-- What a weakest precondition says about a run that returns. -/
theorem wp_and {m : Prog ε σ α} {Q Q' : α → σ → Prop} {E E' : ε → Prop} {s : σ}
    (h : wp m Q E s) (h' : wp m Q' E' s) : wp m (fun a s' => Q a s' ∧ Q' a s') E s := by
  unfold wp at *
  cases hm : m s with
  | ok p =>
    rw [hm] at h h'
    exact ⟨h, h'⟩
  | error e =>
    rw [hm] at h
    exact h

theorem wp.ok {m : Prog ε σ α} {Q : α → σ → Prop} {E : ε → Prop} {s s' : σ} {a : α}
    (h : wp m Q E s) (hm : m s = .ok (a, s')) : Q a s' := (wp_of_ok hm).1 h

/-- What a weakest precondition says about a run that stops. -/
theorem wp.error {m : Prog ε σ α} {Q : α → σ → Prop} {E : ε → Prop} {s : σ} {e : ε}
    (h : wp m Q E s) (hm : m s = .error e) : E e := by
  unfold wp at h
  rw [hm] at h
  exact h

/-- A program that never stops returns. -/
theorem wp.returns {m : Prog ε σ α} {Q : α → σ → Prop} {s : σ}
    (h : wp m Q (fun _ => False) s) : ∃ a s', m s = .ok (a, s') ∧ Q a s' := by
  unfold wp at h
  cases hm : m s with
  | ok p =>
    rw [hm] at h
    exact ⟨p.1, p.2, rfl, h⟩
  | error e =>
    rw [hm] at h
    exact h.elim

/-- The rule for a loop over a list: `I` holds of the part done and the state. -/
theorem wp_forM {f : α → Prog ε σ PUnit} {E : ε → Prop} (I : List α → σ → Prop)
    (xs : List α)
    (step : ∀ (pre : List α) (x : α) (post : List α) (s : σ), xs = pre ++ x :: post → I pre s →
      wp (f x) (fun _ s' => I (pre ++ [x]) s') E s) :
    ∀ (pre post : List α) (s : σ), xs = pre ++ post → I pre s →
      wp (post.forM f) (fun _ s' => I xs s') E s := by
  -- The part still to do becomes shorter, the part done longer.
  intro pre post
  induction post generalizing pre with
  | nil =>
    intro s hxs hI
    rw [List.append_nil] at hxs
    subst hxs
    exact hI
  | cons x post ih =>
    intro s hxs hI
    change wp (f x >>= fun _ => post.forM f) _ E s
    rw [wp_bind]
    refine wp_mono (step pre x post s hxs hI) (fun _ s' hI' => ?_) (fun _ he => he)
    exact ih (pre ++ [x]) s' (by rw [hxs, List.append_assoc]; rfl) hI'

/-- A loop over one element more goes on where the loop has ended. -/
theorem forM_concat_run {f : α → Prog ε σ PUnit} {xs : List α} {x : α} {s s' s'' : σ}
    (h : xs.forM f s = .ok (⟨⟩, s')) (hx : f x s' = .ok (⟨⟩, s'')) :
    (xs ++ [x]).forM f s = .ok (⟨⟩, s'') := by
  change (forM xs f : Prog ε σ PUnit) s = _ at h
  change (forM (xs ++ [x]) f : Prog ε σ PUnit) s = _
  rw [List.forM_append, bind_run_ok h]
  change (f x >>= fun _ => pure PUnit.unit) s' = _
  rw [bind_run_ok hx]
  rfl

/-- The rule for a loop whose step may use the run of the part done. -/
theorem wp_forM_run {f : α → Prog ε σ PUnit} {E : ε → Prop} (I : List α → σ → Prop)
    {xs : List α} {s₀ : σ} (h : I [] s₀)
    (step : ∀ (pre : List α) (x : α) (post : List α) (s : σ), xs = pre ++ x :: post →
      pre.forM f s₀ = .ok (⟨⟩, s) → I pre s → wp (f x) (fun _ s' => I (pre ++ [x]) s') E s) :
    wp (xs.forM f) (fun _ s' => I xs s') E s₀ := by
  refine wp_mono (wp_forM (fun pre s => pre.forM f s₀ = .ok (⟨⟩, s) ∧ I pre s) xs ?_ [] xs s₀ rfl
    ⟨rfl, h⟩) (fun _ _ hI => hI.2) fun _ he => he
  rintro pre x post s hxs ⟨hrun, hI⟩
  have hstep := step pre x post s hxs hrun hI
  unfold wp at hstep ⊢
  cases hm : f x s with
  | ok p =>
    rw [hm] at hstep
    exact ⟨forM_concat_run hrun hm, hstep⟩
  | error e =>
    rw [hm] at hstep
    exact hstep

/-- The rule for a loop that collects: each round returns `g x` and leaves the state. -/
theorem wp_mapM {f : α → Prog ε σ β} {g : α → β} {E : ε → Prop} {s : σ} {xs : List α}
    (h : ∀ x ∈ xs, wp (f x) (fun b s' => b = g x ∧ s' = s) E s) :
    wp (xs.mapM f) (fun bs s' => bs = xs.map g ∧ s' = s) E s := by
  induction xs with
  | nil => exact ⟨rfl, rfl⟩
  | cons x xs ih =>
    rw [List.mapM_cons, wp_bind]
    refine wp_mono (h x List.mem_cons_self) (fun b s' hb => ?_) fun _ he => he
    obtain ⟨rfl, rfl⟩ := hb
    have hrest := ih fun y hy => h y (List.mem_cons_of_mem _ hy)
    rw [wp_bind]
    refine wp_mono hrest (fun bs s' hbs => ?_) fun _ he => he
    obtain ⟨rfl, rfl⟩ := hbs
    exact ⟨rfl, rfl⟩

/-! ## Running to an observation -/

/-- Run from `s` and test the result with `f`; a program that stops fails. -/
def check (m : Prog ε σ α) (s : σ) (f : α → σ → Bool) : Bool :=
  match m s with
  | .ok (a, s') => f a s'
  | .error _ => false

/-- The state a run ends in; a program that stops leaves the one it started in. -/
def final (m : Prog ε σ α) (s : σ) : σ :=
  match m s with
  | .ok (_, s') => s'
  | .error _ => s

/-- A test that succeeds comes from a run that returns. -/
theorem run_of_check {m : Prog ε σ α} {s : σ} {f : α → σ → Bool} (h : check m s f = true) :
    ∃ a, m s = .ok (a, final m s) ∧ f a (final m s) = true := by
  unfold check at h
  unfold final
  cases hm : m s with
  | error e => rw [hm] at h; exact nomatch h
  | ok p => rw [hm] at h; exact ⟨p.1, rfl, h⟩

theorem check_run {m : Prog ε σ α} {s s' : σ} {a : α} (h : m s = .ok (a, s'))
    (f : α → σ → Bool) : check m s f = f a s' := by
  unfold check
  rw [h]

/-! ## Programs on a part of the state -/

/-- Run a program on the part of the state that `get` reads and `set` writes back. -/
def zoom (get : σ → τ) (set : τ → σ → σ) (m : Prog ε τ α) : Prog ε σ α := fun s =>
  match m (get s) with
  | .ok (a, t) => .ok (a, set t s)
  | .error e => .error e

/-- A known run of the part is a known run of the whole. -/
theorem zoom_ok {get : σ → τ} {set : τ → σ → σ} {m : Prog ε τ α} {s : σ} {a : α} {t : τ}
    (h : m (get s) = .ok (a, t)) : zoom get set m s = .ok (a, set t s) := by
  unfold zoom
  rw [h]

/-- A known stop of the part is a known stop of the whole. -/
theorem zoom_error {get : σ → τ} {set : τ → σ → σ} {m : Prog ε τ α} {s : σ} {e : ε}
    (h : m (get s) = .error e) : zoom get set m s = .error e := by
  unfold zoom
  rw [h]

theorem Avoids.zoom {get : σ → τ} {set : τ → σ → σ} {m : Prog ε τ α} {e : ε} (h : Avoids e m) :
    Avoids e (Prog.zoom get set m) := by
  intro s hs
  cases hrun : m (get s) with
  | ok p =>
    rw [zoom_ok hrun] at hs
    cases hs
  | error e' =>
    rw [zoom_error hrun] at hs
    exact h _ (hrun.trans (congrArg _ (Except.error.inj hs)))

end Prog
