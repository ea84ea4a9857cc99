import Agendafs.ForStd.Prog

/-!
# Histories of calls

A history is the list of the calls that a run makes, each with the states before
and after it and with its result. What a step shows of one call, under an
invariant that the good calls keep, the run shows of all of them.

## Key results

- `Calls.invariant`: an invariant of the calls holds before each of them
- `Calls.forall_iff`: a property of all calls is decided by a condition on each
- `Calls.foldl_rel`: what is known at the end, folded over the calls
-/

namespace Prog

universe u

variable {ε σ ρ : Type} {κ : Type u}

/-- A call that has been made. -/
structure Made (κ : Type u) (ρ σ : Type) where
  before : σ
  call : κ
  result : ρ
  after : σ

/-- The calls `ms` lead from one state to the other. -/
inductive Calls (run : κ → Prog ε σ ρ) : σ → List (Made κ ρ σ) → σ → Prop
  | nil (s : σ) : Calls run s [] s
  | cons {s t u : σ} {a : κ} {b : ρ} {ms : List (Made κ ρ σ)} (hrun : run a s = .ok (b, t))
      (h : Calls run t ms u) : Calls run s (⟨s, a, b, t⟩ :: ms) u

variable {run : κ → Prog ε σ ρ} {s u : σ} {ms : List (Made κ ρ σ)}

/-- A single call is a history. -/
theorem Calls.one {a : κ} {b : ρ} (hrun : run a s = .ok (b, u)) :
    Calls run s [⟨s, a, b, u⟩] u := .cons hrun (.nil u)

/-- A history can be continued. -/
theorem Calls.append {t : σ} {ms' : List (Made κ ρ σ)} (h : Calls run s ms t)
    (h' : Calls run t ms' u) : Calls run s (ms ++ ms') u := by
  induction h with
  | nil => exact h'
  | cons hrun _ ih => exact .cons hrun (ih h')

/-- What each call keeps holds before every call, and in the end. -/
theorem Calls.invariant {I : σ → Prop} (h : Calls run s ms u) (hs : I s)
    (hkeep : ∀ m ∈ ms, run m.call m.before = .ok (m.result, m.after) → I m.before → I m.after) :
    (∀ m ∈ ms, I m.before) ∧ I u := by
  induction h with
  | nil => exact ⟨fun m hm => (nomatch hm), hs⟩
  | cons hrun _ ih =>
    have hfirst := hkeep _ List.mem_cons_self hrun hs
    obtain ⟨hall, hu⟩ := ih hfirst fun m hm => hkeep m (List.mem_cons_of_mem _ hm)
    exact ⟨List.forall_mem_cons.2 ⟨hs, hall⟩, hu⟩

/-- A property of all calls, decided call by call: under the invariant a call has it exactly under
    a condition, and the condition keeps the invariant for the next call. -/
theorem Calls.forall_iff {I : σ → Prop} {P C : Made κ ρ σ → Prop} (h : Calls run s ms u)
    (hs : I s)
    (hiff : ∀ m ∈ ms, run m.call m.before = .ok (m.result, m.after) → I m.before → (P m ↔ C m))
    (hkeep : ∀ m ∈ ms, run m.call m.before = .ok (m.result, m.after) → I m.before → C m →
      I m.after) :
    (∀ m ∈ ms, P m) ↔ ∀ m ∈ ms, C m := by
  induction h with
  | nil => exact iff_of_true (fun m hm => nomatch hm) fun m hm => nomatch hm
  | @cons s t u a b ms hrun _ ih =>
    rw [List.forall_mem_cons, List.forall_mem_cons, hiff _ List.mem_cons_self hrun hs]
    -- The first call decides whether the invariant holds before the others.
    refine and_congr_right fun hc => ?_
    exact ih (hkeep _ List.mem_cons_self hrun hs hc)
      (fun m hm => hiff m (List.mem_cons_of_mem _ hm))
      fun m hm => hkeep m (List.mem_cons_of_mem _ hm)

/-- What is known of the state in the end, if each call tells how it changes what is known. -/
theorem Calls.foldl_rel {α : Type} {R : σ → α → Prop} {next : α → Made κ ρ σ → α}
    (h : Calls run s ms u) (hnext : ∀ m ∈ ms, ∀ v, R m.before v → R m.after (next v m)) {v : α}
    (hv : R s v) : R u (ms.foldl next v) := by
  induction h generalizing v with
  | nil => exact hv
  | cons _ _ ih =>
    rw [List.foldl_cons]
    exact ih (fun m hm => hnext m (List.mem_cons_of_mem _ hm)) (hnext _ List.mem_cons_self v hv)

end Prog
