import Agendafs.ForStd.Prog

/-!
# Programs in steps

A `Task` is a program that has been cut into steps, so that other programs can run
in between. Run in one go it is the program it has been cut from. A program that
`Observes` never writes the state; it can be cut so finely that each step reads once.

## Key results

- `Task.prog`: the steps in one go
- `Observes.exists_fine`: a program that only reads can be cut into single reads
-/

namespace Prog

variable {ε σ τ α β : Type}

/-! ## Tasks -/

/-- A program in steps. -/
inductive Task (ε σ α : Type) : Type 1
  | done (a : α)
  | step {β : Type} (m : Prog ε σ β) (next : β → Task ε σ α)

/-- The program leaves the state as it is. -/
def Reads (m : Prog ε σ α) : Prop := ∀ s a s', m s = .ok (a, s') → s' = s

namespace Task

/-- The steps one after the other. -/
def prog : Task ε σ α → Prog ε σ α
  | done a => Pure.pure a
  | step m next => m >>= fun b => (next b).prog

/-- The program as a single step. -/
def whole (m : Prog ε σ α) : Task ε σ α := step m done

@[simp] theorem prog_whole (m : Prog ε σ α) : (whole m).prog = m := bind_pure m

/-- Go on with another task. -/
def andThen : Task ε σ α → (α → Task ε σ β) → Task ε σ β
  | done a, f => f a
  | step m next, f => step m fun b => (next b).andThen f

theorem prog_andThen (t : Task ε σ α) (f : α → Task ε σ β) :
    (t.andThen f).prog = t.prog >>= fun a => (f a).prog := by
  induction t with
  | done a => rfl
  | step m next ih =>
    rw [andThen, prog, prog, bind_assoc]
    exact congrArg (m >>= ·) (funext ih)

/-- No step changes the state. -/
def Reads : Task ε σ α → Prop
  | done _ => True
  | step m next => Prog.Reads m ∧ ∀ b, (next b).Reads

theorem Reads.prog {t : Task ε σ α} (h : t.Reads) : Prog.Reads t.prog := by
  induction t with
  | done a =>
    rintro s _ _ ⟨⟩
    rfl
  | step m next ih =>
    intro s a s' hrun
    rw [Task.prog, bind_run] at hrun
    split at hrun
    · rename_i b t hm
      rw [ih b (h.2 b) _ _ _ hrun, h.1 _ _ _ hm]
    · cases hrun

/-- Every step reads the state once, or stops. -/
inductive Fine : Task ε σ α → Prop
  | done (a : α) : Fine (.done a)
  | get {next : σ → Task ε σ α} (h : ∀ s, Fine (next s)) : Fine (.step MonadState.get next)
  | throw {β : Type} (e : ε) {next : β → Task ε σ α} (h : ∀ b, Fine (next b)) :
    Fine (.step (MonadExcept.throw e) next)

theorem Fine.andThen {t : Task ε σ α} (ht : t.Fine) {f : α → Task ε σ β}
    (hf : ∀ a, (f a).Fine) : (t.andThen f).Fine := by
  induction ht with
  | done a => exact hf a
  | get _ ih => exact .get ih
  | throw e _ ih => exact .throw e ih

end Task

theorem Reads.get : Reads (MonadState.get : Prog ε σ σ) := by
  rintro s _ _ ⟨⟩
  rfl

theorem Reads.throw (e : ε) : Reads (MonadExcept.throw e : Prog ε σ α) := fun _ _ _ => nofun

/-! ## Programs that only read -/

/-- A program that is made of reads. -/
inductive Observes {ε σ : Type} : {α : Type} → Prog ε σ α → Prop
  | pure {α : Type} (a : α) : Observes (Pure.pure a)
  | get : Observes MonadState.get
  | throw {α : Type} (e : ε) : Observes (MonadExcept.throw e : Prog ε σ α)
  | bind {α β : Type} {m : Prog ε σ α} {f : α → Prog ε σ β} (hm : Observes m)
      (hf : ∀ a, Observes (f a)) : Observes (m >>= f)

attribute [grind .] Observes.pure Observes.get Observes.throw
attribute [grind ←] Observes.bind

namespace Observes

/-- A program that only reads can be cut into single reads. -/
theorem exists_fine {m : Prog ε σ α} (h : Observes m) : ∃ t : Task ε σ α, t.Fine ∧ t.prog = m := by
  induction h with
  | pure a => exact ⟨.done a, .done a, rfl⟩
  | get => exact ⟨.step MonadState.get .done, .get .done, bind_pure _⟩
  | throw e => exact ⟨.step (MonadExcept.throw e) .done, .throw e .done, bind_pure _⟩
  | bind _ _ ihm ihf =>
    obtain ⟨t, ht, rfl⟩ := ihm
    choose u hu hprog using ihf
    refine ⟨t.andThen u, ht.andThen hu, ?_⟩
    rw [Task.prog_andThen]
    exact congrArg (t.prog >>= ·) (funext hprog)

/-- The rule for a loop that collects. -/
theorem mapM {f : α → Prog ε σ β} {xs : List α} (h : ∀ x, Observes (f x)) :
    Observes (xs.mapM f) := by
  induction xs with
  | nil => exact pure _
  | cons x xs ih =>
    rw [List.mapM_cons]
    exact bind (h x) fun _ => bind ih fun _ => pure _

/-- Reading a part of the state, through accessors that are lawful. -/
theorem zoom {get : σ → τ} {set : τ → σ → σ} (hset : ∀ s, set (get s) s = s)
    (hget : ∀ t s, get (set t s) = t) (htwice : ∀ t t' s, set t' (set t s) = set t' s)
    {m : Prog ε τ α} (h : Observes m) : Observes (Prog.zoom get set m : Prog ε σ α) := by
  induction h with
  | pure a =>
    have hpure : (Prog.zoom get set (Pure.pure a) : Prog ε σ _) = Pure.pure a := by
      funext s
      exact congrArg (fun s' => Except.ok (a, s')) (hset s)
    rw [hpure]
    exact pure a
  | get =>
    have hread : (Prog.zoom get set MonadState.get : Prog ε σ τ) =
        MonadState.get >>= fun s => Pure.pure (get s) := by
      funext s
      exact congrArg (fun s' => Except.ok (get s, s')) (hset s)
    rw [hread]
    exact bind .get fun s => pure _
  | throw e => exact throw e
  | @bind α β m f _ _ ihm ihf =>
    have hseq : (Prog.zoom get set (m >>= f) : Prog ε σ β) =
        Prog.zoom get set m >>= fun a => Prog.zoom get set (f a) := by
      funext s
      rw [bind_run]
      unfold Prog.zoom
      rw [bind_run]
      cases m (get s) with
      | ok p => simp only [hget, htwice]
      | error e => rfl
    rw [hseq]
    exact bind ihm ihf

end Observes

/-- No step of a fine cut writes. -/
theorem Task.Fine.reads {t : Task ε σ α} (h : t.Fine) : t.Reads := by
  induction h with
  | done a => trivial
  | get _ ih => exact ⟨.get, ih⟩
  | throw e _ ih => exact ⟨.throw e, ih⟩

theorem Observes.reads {m : Prog ε σ α} (h : Observes m) : Reads m := by
  obtain ⟨t, ht, rfl⟩ := h.exists_fine
  exact ht.reads.prog

end Prog
