import Mathlib.Algebra.BigOperators.Ring.Finset

/-!
# Queues whose tasks make tasks

A queue of tasks, named by keys. Taking the first task off may put up to `B` new
tasks of one key at the end. Either that key is idle, so that its own tasks make
none, or it pays with one unit of a credit. Such a queue runs empty: a potential
that weighs tasks and credits falls with every step.

## Key results

- `Step.potential_lt`: every step lowers the potential
- `length_le_of_potential`: the potential at the start bounds the number of steps
-/

universe u v

namespace WorkQueue

/-- A run of a relation that keeps an invariant and lowers a potential is no longer than the
    potential at its start. -/
theorem length_le_of_potential {σ : Type u} {step : σ → σ → Prop} {I : σ → Prop} {Φ : σ → ℕ}
    (hstep : ∀ s s', I s → step s s' → I s' ∧ Φ s' < Φ s) {run : ℕ → σ} (hstart : I (run 0))
    (n : ℕ) (hrun : ∀ i < n, step (run i) (run (i + 1))) :
    I (run n) ∧ n + Φ (run n) ≤ Φ (run 0) := by
  induction n with
  | zero => exact ⟨hstart, (Nat.zero_add _).le⟩
  | succ n ih =>
    obtain ⟨hinv, hle⟩ := ih fun i hi => hrun i (Nat.lt_succ_of_lt hi)
    obtain ⟨hinv', hlt⟩ := hstep _ _ hinv (hrun n (Nat.lt_succ_self n))
    exact ⟨hinv', by omega⟩

variable {κ : Type v} [DecidableEq κ]

/-- Credits and tasks after the first task has been taken off. -/
inductive Step (keys : Finset κ) (busy : κ → Bool) (B : ℕ) :
    (κ → ℕ) × List κ → (κ → ℕ) × List κ → Prop
  /-- The task makes none. -/
  | done {credit : κ → ℕ} {k : κ} {tasks : List κ} :
      Step keys busy B (credit, k :: tasks) (credit, tasks)
  /-- A task of a busy key makes tasks of an idle one. -/
  | feed {credit : κ → ℕ} {k p : κ} {tasks : List κ} {b : ℕ} (hk : busy k = true)
      (hp : busy p = false) (hb : b ≤ B) :
      Step keys busy B (credit, k :: tasks) (credit, tasks ++ List.replicate b p)
  /-- The new tasks are paid for. -/
  | spend {credit credit' : κ → ℕ} {k p : κ} {tasks : List κ} {b : ℕ} (hp : p ∈ keys)
      (hpaid : credit' p + 1 = credit p) (hothers : ∀ q, q ≠ p → credit' q = credit q)
      (hb : b ≤ B) :
      Step keys busy B (credit, k :: tasks) (credit', tasks ++ List.replicate b p)

/-- A task of a busy key can make `B` tasks of an idle one. -/
def weight (busy : κ → Bool) (B : ℕ) (k : κ) : ℕ := if busy k then 1 + B else 1

/-- The weights of the tasks, and for each unit of credit that of the tasks it pays for. -/
def potential (keys : Finset κ) (busy : κ → Bool) (B : ℕ) (s : (κ → ℕ) × List κ) : ℕ :=
  (s.2.map (weight busy B)).sum + ∑ k ∈ keys, s.1 k * (B * (1 + B))

omit [DecidableEq κ] in
theorem one_le_weight (busy : κ → Bool) (B : ℕ) (k : κ) : 1 ≤ weight busy B k := by
  unfold weight
  split <;> omega

omit [DecidableEq κ] in
theorem weight_le (busy : κ → Bool) (B : ℕ) (k : κ) : weight busy B k ≤ 1 + B := by
  unfold weight
  split <;> omega

omit [DecidableEq κ] in
/-- The weight of a queue to which tasks of one key have been added. -/
theorem sum_weight_append (busy : κ → Bool) (B b : ℕ) (p : κ) (tasks : List κ) :
    ((tasks ++ List.replicate b p).map (weight busy B)).sum =
      (tasks.map (weight busy B)).sum + b * weight busy B p := by
  rw [List.map_append, List.sum_append, List.map_replicate, List.sum_replicate_nat]

/-- Spending one unit lowers the value of all credits by what it pays for. -/
theorem sum_spend {keys : Finset κ} {credit credit' : κ → ℕ} {p : κ} (hp : p ∈ keys)
    (hpaid : credit' p + 1 = credit p) (hothers : ∀ q, q ≠ p → credit' q = credit q) (C : ℕ) :
    ∑ k ∈ keys, credit' k * C + C = ∑ k ∈ keys, credit k * C := by
  rw [← Finset.add_sum_erase keys _ hp, ← Finset.add_sum_erase keys (fun k => credit k * C) hp,
    ← hpaid, Finset.sum_congr rfl fun q hq => by rw [hothers q (Finset.ne_of_mem_erase hq)]]
  rw [Nat.add_mul, Nat.one_mul, Nat.add_right_comm]

theorem Step.potential_lt {keys : Finset κ} {busy : κ → Bool} {B : ℕ} {s s' : (κ → ℕ) × List κ}
    (h : Step keys busy B s s') : potential keys busy B s' < potential keys busy B s := by
  unfold potential
  cases h with
  | @done credit k tasks =>
    have hk := one_le_weight busy B k
    simp only [List.map_cons, List.sum_cons]
    omega
  | @feed credit k p tasks b hk hp hb =>
    simp only [sum_weight_append, List.map_cons, List.sum_cons, weight, hk, hp, if_true,
      Bool.false_eq_true, if_false]
    omega
  | @spend credit credit' k p tasks b hp hpaid hothers hb =>
    have hk := one_le_weight busy B k
    have htasks : b * weight busy B p ≤ B * (1 + B) := Nat.mul_le_mul hb (weight_le busy B p)
    have hcredit := sum_spend hp hpaid hothers (B * (1 + B))
    simp only [sum_weight_append, List.map_cons, List.sum_cons]
    omega

end WorkQueue
