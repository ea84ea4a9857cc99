import Agendafs.ForStd.Sessions
import Agendafs.ForStd.Tasks
import Mathlib.Logic.Function.Basic
import Mathlib.Logic.Relation

/-!
# Calls under a readers-writer lock

Any number of threads make calls on one state. A call takes a lock, shared or
exclusive, runs step by step while the others run, and returns when it gives the
lock back. If the calls with the shared lock do not write, and those without a lock
do not look at the state, then every interleaving is serial: the calls that have
returned are, in the order of their returns, a run of whole calls one after the
other, with the same results, and what a call with a lock sees is a state of that
run.

## Key results

- `Serial.step`: what one step of one thread does to the serial run
- `Serial.steps`: the serial run only grows, so its order is that of the returns
- `exists_serial`: every interleaving is serial
- `Serial.progress`: if the calls return, there is no deadlock
-/

namespace Locks

open Prog

universe u v

variable {ε σ ρ : Type} {κ : Type u} {ι : Type v}

/-! ## The lock -/

/-- The lock that a call takes. -/
inductive Access
  | none | shared | exclusive
deriving DecidableEq

/-- Two calls that may be inside at the same time. -/
def Access.With (a b : Access) : Prop := a = .none ∨ b = .none ∨ a = .shared ∧ b = .shared

theorem Access.With.symm {a b : Access} (h : a.With b) : b.With a :=
  h.elim (fun h => .inr (.inl h)) fun h => h.elim .inl fun h => .inr (.inr h.symm)

/-- Nothing is with an exclusive call but calls without a lock. -/
theorem Access.With.eq_none {a b : Access} (h : a.With b) (ha : a = .exclusive) : b = .none := by
  subst ha
  rcases h with h | h | h
  · cases h
  · exact h
  · cases h.1

/-- The calls, cut into steps: without a lock there are none, and under the shared lock
    none of them writes. -/
structure Cut (run : κ → Prog ε σ ρ) (access : κ → Access) where
  task : κ → Task ε σ ρ
  prog_eq : ∀ a, (task a).prog = run a
  reads : ∀ a, access a = .shared → (task a).Reads
  apart : ∀ a, access a = .none → ∃ r, task a = .done r

/-- Calls can be cut if those under the shared lock are made of reads. Each step of these then
    reads once, and the others are a single step. -/
theorem Cut.exists_fine (run : κ → Prog ε σ ρ) {access : κ → Access}
    (hshared : ∀ a, access a = .shared → Observes (run a))
    (hnone : ∀ a, access a = .none → ∃ r, run a = pure r) :
    ∃ cut : Cut run access, (∀ a, access a = .shared → (cut.task a).Fine) ∧
      ∀ a, access a = .exclusive → cut.task a = .whole (run a) := by
  have hcut : ∀ a, ∃ t : Task ε σ ρ, t.prog = run a ∧ (access a = .shared → t.Fine) ∧
      (access a = .none → ∃ r, t = .done r) ∧ (access a = .exclusive → t = .whole (run a)) := by
    intro a
    cases ha : access a with
    | none =>
      obtain ⟨r, hr⟩ := hnone a ha
      exact ⟨.done r, hr.symm, nofun, fun _ => ⟨r, rfl⟩, nofun⟩
    | shared =>
      obtain ⟨t, ht, hprog⟩ := (hshared a ha).exists_fine
      exact ⟨t, hprog, fun _ => ht, nofun, nofun⟩
    | exclusive => exact ⟨.whole (run a), Task.prog_whole _, nofun, nofun, fun _ => rfl⟩
  choose task hprog hfine hapart hwhole using hcut
  exact ⟨⟨task, hprog, fun a ha => (hfine a ha).reads, hapart⟩, hfine, hwhole⟩

/-! ## The threads -/

/-- Where a thread is. -/
inductive Phase (ε σ ρ : Type) (κ : Type u)
  | idle
  | waiting (a : κ)
  /-- The thread has the lock, and this is left of its call. -/
  | inside (a : κ) (t : Task ε σ ρ)

/-- The threads with the state they share, and the calls that have returned. -/
structure Pool (ε σ ρ : Type) (κ : Type u) (ι : Type v) where
  state : σ
  phase : ι → Phase ε σ ρ κ
  returned : List (κ × ρ)

/-- No thread has made a call. -/
def Pool.start (s : σ) : Pool ε σ ρ κ ι := ⟨s, fun _ => .idle, []⟩

section

variable [DecidableEq ι]

/-- The pool with one thread somewhere else. -/
def Pool.set (P : Pool ε σ ρ κ ι) (i : ι) (phase : Phase ε σ ρ κ) : Pool ε σ ρ κ ι :=
  { P with phase := Function.update P.phase i phase }

variable {run : κ → Prog ε σ ρ} {access : κ → Access} {cut : Cut run access}
  {guard : σ → κ → Prop} {P P' : Pool ε σ ρ κ ι} {s₀ s s' : σ} {ms : List (Made κ ρ σ)}

/-- One step of the thread `i`. A call is let in if the lock is free for it, and if it may be
    made in the state it finds. -/
inductive Step (cut : Cut run access) (guard : σ → κ → Prop) (i : ι) :
    Pool ε σ ρ κ ι → Pool ε σ ρ κ ι → Prop
  | invoke {P : Pool ε σ ρ κ ι} {a : κ} (hi : P.phase i = .idle) :
      Step cut guard i P (P.set i (.waiting a))
  | acquire {P : Pool ε σ ρ κ ι} {a : κ} (hi : P.phase i = .waiting a)
      (hfree : ∀ j b t, P.phase j = .inside b t → (access a).With (access b))
      (hguard : access a ≠ .none → guard P.state a) :
      Step cut guard i P (P.set i (.inside a (cut.task a)))
  | act {P : Pool ε σ ρ κ ι} {a : κ} {β : Type} {m : Prog ε σ β} {next : β → Task ε σ ρ} {b : β}
      {s' : σ} (hi : P.phase i = .inside a (.step m next)) (hm : m P.state = .ok (b, s')) :
      Step cut guard i P { P.set i (.inside a (next b)) with state := s' }
  | release {P : Pool ε σ ρ κ ι} {a : κ} {r : ρ} (hi : P.phase i = .inside a (.done r)) :
      Step cut guard i P { P.set i .idle with returned := P.returned ++ [(a, r)] }

/-- The threads come from one pool to the other. -/
abbrev Steps (cut : Cut run access) (guard : σ → κ → Prop) :
    Pool ε σ ρ κ ι → Pool ε σ ρ κ ι → Prop :=
  Relation.ReflTransGen fun P P' => ∃ i, Step cut guard i P P'

theorem inside_set {i j : ι} {phase : Phase ε σ ρ κ} {b : κ} {u : Task ε σ ρ} :
    (P.set i phase).phase j = .inside b u ↔
      j = i ∧ phase = .inside b u ∨ j ≠ i ∧ P.phase j = .inside b u := by
  unfold Pool.set
  by_cases hj : j = i
  · subst hj
    simp
  · simp [hj]

/-! ## The serial run -/

/-- What is known of a call inside, when the serial run has come to `s`. -/
structure Inside (cut : Cut run access) (guard : σ → κ → Prop) (state s : σ) (a : κ)
    (t : Task ε σ ρ) : Prop where
  /-- What is left of the call does what the call does after the serial run. -/
  rest : access a ≠ .none → t.prog state = run a s
  admitted : access a ≠ .none → guard s a
  reads : access a = .shared → t.Reads
  apart : access a = .none → ∃ r, t = .done r ∧ cut.task a = .done r

/-- A call without a lock does not look at the state. -/
theorem Inside.of_none {a : κ} {t : Task ε σ ρ} {state : σ} (h : Inside cut guard state s a t)
    (ha : access a = .none) (state' s' : σ) : Inside cut guard state' s' a t where
  rest hne := absurd ha hne
  admitted hne := absurd ha hne
  reads hshared := nomatch ha.symm.trans hshared
  apart := h.apart

/-- The calls `ms`, which lead to `s`, are the calls that have returned. -/
structure Serial (cut : Cut run access) (guard : σ → κ → Prop) (s₀ : σ) (P : Pool ε σ ρ κ ι)
    (ms : List (Made κ ρ σ)) (s : σ) : Prop where
  calls : Calls run s₀ ms s
  returned : P.returned = ms.map Made.seen
  guarded : ∀ m ∈ ms, access m.call ≠ .none → guard m.before m.call
  apart : ∀ i j a b t u, i ≠ j → P.phase i = .inside a t → P.phase j = .inside b u →
    (access a).With (access b)
  inside : ∀ i a t, P.phase i = .inside a t → Inside cut guard P.state s a t
  quiet : (∀ i a t, P.phase i = .inside a t → access a ≠ .exclusive) → P.state = s

omit [DecidableEq ι] in
theorem serial_start (cut : Cut run access) (guard : σ → κ → Prop) (s : σ) :
    Serial (ι := ι) cut guard s (.start s) [] s where
  calls := .nil s
  returned := rfl
  guarded _ hm := nomatch hm
  apart _ _ _ _ _ _ _ hi := nomatch hi
  inside _ _ _ hi := nomatch hi
  quiet _ := rfl

namespace Serial

/-- A thread that is not inside goes on elsewhere outside. -/
theorem stay (h : Serial cut guard s₀ P ms s) {i : ι} {phase : Phase ε σ ρ κ}
    (hi : ∀ a t, P.phase i ≠ .inside a t) (hphase : ∀ a t, phase ≠ .inside a t) :
    Serial cut guard s₀ (P.set i phase) ms s := by
  have hsame : ∀ j b u, (P.set i phase).phase j = .inside b u ↔ P.phase j = .inside b u := by
    intro j b u
    rw [inside_set]
    constructor
    · rintro (⟨_, hinside⟩ | ⟨_, hj⟩)
      · exact absurd hinside (hphase b u)
      · exact hj
    · exact fun hj => .inr ⟨fun heq => hi b u (heq ▸ hj), hj⟩
  exact {
    calls := h.calls
    returned := h.returned
    guarded := h.guarded
    apart := fun j k b c t u hne hj hk =>
      h.apart j k b c t u hne ((hsame ..).1 hj) ((hsame ..).1 hk)
    inside := fun j b u hj => h.inside j b u ((hsame ..).1 hj)
    quiet := fun hquiet => h.quiet fun j b u hj => hquiet j b u ((hsame ..).2 hj) }

omit [DecidableEq ι] in
/-- A call with a lock that is let in finds the state of the serial run. -/
theorem state_eq (h : Serial cut guard s₀ P ms s) {a : κ} (ha : access a ≠ .none)
    (hfree : ∀ j b t, P.phase j = .inside b t → (access a).With (access b)) : P.state = s :=
  h.quiet fun j b t hj hb => ha ((hfree j b t hj).symm.eq_none hb)

theorem acquire (h : Serial cut guard s₀ P ms s) {i : ι} {a : κ} (hi : P.phase i = .waiting a)
    (hfree : ∀ j b t, P.phase j = .inside b t → (access a).With (access b))
    (hguard : access a ≠ .none → guard P.state a) :
    Serial cut guard s₀ (P.set i (.inside a (cut.task a))) ms s where
  calls := h.calls
  returned := h.returned
  guarded := h.guarded
  apart j k b c t u hne hj hk := by
    rcases inside_set.1 hj with ⟨hji, hb⟩ | ⟨_, hj⟩ <;>
      rcases inside_set.1 hk with ⟨hki, hc⟩ | ⟨_, hk⟩
    · exact absurd (hji.trans hki.symm) hne
    · cases hb
      exact hfree k c u hk
    · cases hc
      exact (hfree j b t hj).symm
    · exact h.apart j k b c t u hne hj hk
  inside j b t hj := by
    rcases inside_set.1 hj with ⟨_, hb⟩ | ⟨_, hj⟩
    · cases hb
      refine ⟨fun ha => ?_, fun ha => ?_, cut.reads a, fun ha => ?_⟩
      · change (cut.task a).prog P.state = _
        rw [cut.prog_eq, h.state_eq ha hfree]
      · exact h.state_eq ha hfree ▸ hguard ha
      · obtain ⟨r, hr⟩ := cut.apart a ha
        exact ⟨r, hr, hr⟩
    · exact h.inside j b t hj
  quiet hquiet := h.quiet fun j b t hj => by
    refine hquiet j b t (inside_set.2 (.inr ⟨?_, hj⟩))
    rintro rfl
    cases hi.symm.trans hj

/-- A step of a call under the shared lock is a read, and under the exclusive lock nobody looks
    at the state in between. -/
theorem act (h : Serial cut guard s₀ P ms s) {i : ι} {a : κ} {β : Type} {m : Prog ε σ β}
    {next : β → Task ε σ ρ} {b : β} (hi : P.phase i = .inside a (.step m next))
    (hm : m P.state = .ok (b, s')) :
    Serial cut guard s₀ { P.set i (.inside a (next b)) with state := s' } ms s := by
  have hin := h.inside i a _ hi
  have hnone : access a ≠ .none := fun ha => by
    obtain ⟨r, hr, _⟩ := hin.apart ha
    cases hr
  have hothers : ∀ j c u, j ≠ i → P.phase j = .inside c u → Inside cut guard s' s c u := by
    intro j c u hne hj
    cases ha : access a with
    | none => exact absurd ha hnone
    | shared =>
      obtain rfl : s' = P.state := (hin.reads ha).1 _ _ _ hm
      exact h.inside j c u hj
    | exclusive =>
      have hc := (h.apart i j a c _ u hne.symm hi hj).eq_none ha
      exact (h.inside j c u hj).of_none hc s' s
  refine ⟨h.calls, h.returned, h.guarded, fun j k c d t u hne hj hk => ?_, fun j c u hj => ?_,
    fun hquiet => ?_⟩
  · rcases inside_set.1 hj with ⟨hji, hc⟩ | ⟨_, hj⟩ <;>
      rcases inside_set.1 hk with ⟨hki, hd⟩ | ⟨_, hk⟩
    · exact absurd (hji.trans hki.symm) hne
    · cases hc
      exact h.apart j k a d _ u hne (hji ▸ hi) hk
    · cases hd
      exact h.apart j k c a t _ hne hj (hki ▸ hi)
    · exact h.apart j k c d t u hne hj hk
  · rcases inside_set.1 hj with ⟨_, hc⟩ | ⟨hne, hj⟩
    · cases hc
      refine ⟨fun ha => ?_, hin.admitted, fun ha => (hin.reads ha).2 b, fun ha => absurd ha hnone⟩
      rw [← hin.rest ha]
      exact (bind_run_ok (f := fun b => (next b).prog) hm).symm
    · exact hothers j c u hne hj
  · have ha := hquiet i a _ (inside_set.2 (.inl ⟨rfl, rfl⟩))
    have hshared : access a = .shared := by
      cases haccess : access a with
      | none => exact absurd haccess hnone
      | shared => rfl
      | exclusive => exact absurd haccess ha
    obtain rfl : s' = P.state := (hin.reads hshared).1 _ _ _ hm
    refine h.quiet fun j c u hj => ?_
    by_cases hne : j = i
    · subst hne
      cases hi.symm.trans hj
      exact ha
    · exact hquiet j c u (inside_set.2 (.inr ⟨hne, hj⟩))

/-- The call of a thread that is done is the next one of the serial run. -/
theorem release (h : Serial cut guard s₀ P ms s) {i : ι} {a : κ} {r : ρ}
    (hi : P.phase i = .inside a (.done r)) :
    ∃ s', Serial cut guard s₀ { P.set i .idle with returned := P.returned ++ [(a, r)] }
      (ms ++ [⟨s, a, r, s'⟩]) s' := by
  have hin := h.inside i a _ hi
  -- The state after the call, which the others that are still inside see as well.
  obtain ⟨s', hrun, hothers, hquiet⟩ : ∃ s', run a s = .ok (r, s') ∧
      (∀ j c u, j ≠ i → P.phase j = .inside c u → Inside cut guard P.state s' c u) ∧
      ((∀ j c u, j ≠ i → P.phase j = .inside c u → access c ≠ .exclusive) → P.state = s') := by
    have hdone : access a ≠ .none → run a s = .ok (r, P.state) := fun ha => (hin.rest ha).symm
    cases ha : access a with
    | none =>
      obtain ⟨r', hr, hcut⟩ := hin.apart ha
      cases hr
      refine ⟨s, ?_, fun j c u _ hj => h.inside j c u hj, fun hquiet => h.quiet fun j c u hj => ?_⟩
      · rw [← cut.prog_eq, hcut]
        rfl
      · by_cases hne : j = i
        · subst hne
          cases hi.symm.trans hj
          exact fun hexclusive => nomatch ha.symm.trans hexclusive
        · exact hquiet j c u hne hj
    | shared =>
      have hstate : P.state = s := h.quiet fun j c u hj hc => by
        by_cases hne : i = j
        · subst hne
          cases hi.symm.trans hj
          exact nomatch ha.symm.trans hc
        · have := (h.apart i j a c _ u hne hi hj).symm.eq_none hc
          exact nomatch ha.symm.trans this
      refine ⟨s, hstate ▸ hdone (by rw [ha]; decide), fun j c u _ hj => h.inside j c u hj,
        fun _ => hstate⟩
    | exclusive =>
      refine ⟨P.state, hdone (by rw [ha]; decide), fun j c u hne hj => ?_, fun _ => rfl⟩
      exact (h.inside j c u hj).of_none ((h.apart i j a c _ u hne.symm hi hj).eq_none ha) _ _
  have hstill : ∀ {j c u}, (P.set i .idle).phase j = .inside c u →
      j ≠ i ∧ P.phase j = .inside c u := fun hj => by
    rcases inside_set.1 hj with ⟨_, hc⟩ | hj
    · cases hc
    · exact hj
  refine ⟨s', h.calls.append (.one hrun), ?_, fun m hm hne => ?_, fun j k c d t u hne hj hk => ?_,
    fun j c u hj => hothers j c u (hstill hj).1 (hstill hj).2, fun hq => ?_⟩
  · rw [List.map_append, ← h.returned]
    rfl
  · rcases List.mem_append.1 hm with hm | hm
    · exact h.guarded m hm hne
    · obtain rfl := List.mem_singleton.1 hm
      exact hin.admitted hne
  · exact h.apart j k c d t u hne (hstill hj).2 (hstill hk).2
  · exact hquiet fun j c u hne hj => hq j c u (inside_set.2 (.inr ⟨hne, hj⟩))

/-- One step of one thread goes on with the serial run, or leaves it. -/
theorem step (h : Serial cut guard s₀ P ms s) {i : ι} (hstep : Step cut guard i P P') :
    ∃ ms' s', Serial cut guard s₀ P' (ms ++ ms') s' := by
  cases hstep with
  | invoke hi =>
    refine ⟨[], s, ?_⟩
    rw [List.append_nil]
    exact h.stay (fun a t hin => nomatch hi.symm.trans hin) fun _ _ => nofun
  | acquire hi hfree hguard =>
    refine ⟨[], s, ?_⟩
    rw [List.append_nil]
    exact h.acquire hi hfree hguard
  | act hi hm =>
    refine ⟨[], s, ?_⟩
    rw [List.append_nil]
    exact h.act hi hm
  | release hi =>
    obtain ⟨s', h'⟩ := h.release hi
    exact ⟨_, s', h'⟩

end Serial

/-- The serial run goes on with the threads. -/
theorem Serial.steps (h : Serial cut guard s₀ P ms s) (hsteps : Steps cut guard P P') :
    ∃ ms' s', Serial cut guard s₀ P' (ms ++ ms') s' := by
  induction hsteps with
  | refl => exact ⟨[], s, by rwa [List.append_nil]⟩
  | tail _ hstep ih =>
    obtain ⟨i, hstep⟩ := hstep
    obtain ⟨ms', s', h'⟩ := ih
    obtain ⟨ms'', s'', h''⟩ := h'.step hstep
    exact ⟨ms' ++ ms'', s'', by rwa [← List.append_assoc]⟩

/-- Every interleaving is serial. -/
theorem exists_serial (h : Steps cut guard (.start s₀) P) : ∃ ms s, Serial cut guard s₀ P ms s :=
  (serial_start cut guard s₀).steps h

/-- A thread inside goes on, if its call does not stop in the serial run. -/
theorem Serial.goes_on (h : Serial cut guard s₀ P ms s) {i : ι} {a : κ} {t : Task ε σ ρ}
    (hi : P.phase i = .inside a t)
    (hreturns : access a ≠ .none → guard s a → (run a).Returns s) :
    ∃ P', Step cut guard i P P' := by
  have hin := h.inside i a t hi
  cases t with
  | done r => exact ⟨_, .release hi⟩
  | step m next =>
    have hnone : access a ≠ .none := fun ha => by
      obtain ⟨r, hr, _⟩ := hin.apart ha
      cases hr
    obtain ⟨p, hp⟩ := hreturns hnone (hin.admitted hnone)
    rw [← hin.rest hnone] at hp
    cases hm : m P.state with
    | error e =>
      rw [Task.prog, bind_run_error hm] at hp
      cases hp
    | ok q => exact ⟨_, .act hi hm⟩

/-- There is no deadlock: while a thread has a call to make, a thread with a call goes on. -/
theorem Serial.progress (h : Serial cut guard s₀ P ms s)
    (hreturns : ∀ a, access a ≠ .none → guard s a → (run a).Returns s) {i : ι}
    (hi : P.phase i ≠ .idle)
    (hguard : ∀ a, P.phase i = .waiting a → access a ≠ .none → guard P.state a) :
    ∃ j P', P.phase j ≠ .idle ∧ Step cut guard j P P' := by
  by_cases hinside : ∃ j a t, P.phase j = .inside a t
  · obtain ⟨j, a, t, hj⟩ := hinside
    obtain ⟨P', hstep⟩ := h.goes_on hj (hreturns a)
    exact ⟨j, P', fun hidle => (nomatch hj.symm.trans hidle), hstep⟩
  -- Nobody has the lock, so it is free for the call that waits.
  · cases hphase : P.phase i with
    | idle => exact absurd hphase hi
    | waiting a =>
      refine ⟨i, _, hi, .acquire hphase (fun j b t hj => ?_) (hguard a hphase)⟩
      exact absurd ⟨j, b, t, hj⟩ hinside
    | inside a t => exact absurd ⟨i, a, t, hphase⟩ hinside

end

end Locks
