import Agendafs.ForStd.Calls

/-!
# Sessions with a specified system

A specification says of a system in a state what a call may answer and in which
state it may leave the system. A session is a sequence of calls with answers the
specification allows. A program whose every call is answered as specified, seen
through a relation between its states and those of the specification, answers
whole sequences of calls like the specified system.

## Key results

- `Calls.session`: calls that are answered as specified make a session
-/

namespace Prog

universe u

variable {ε σ ρ τ : Type} {κ : Type u}

/-- These calls with these answers lead the specified system from one state to the other. -/
inductive Session (answers : τ → κ → ρ → τ → Prop) : τ → List (κ × ρ) → τ → Prop
  | nil (t : τ) : Session answers t [] t
  | cons {t u v : τ} {a : κ} {b : ρ} {cs : List (κ × ρ)} (hanswer : answers t a b u)
      (h : Session answers u cs v) : Session answers t ((a, b) :: cs) v

/-- What a client sees of a call. -/
def Made.seen (m : Made κ ρ σ) : κ × ρ := (m.call, m.result)

variable {run : κ → Prog ε σ ρ} {answers : τ → κ → ρ → τ → Prop} {R : σ → τ → Prop} {s u : σ}
  {ms : List (Made κ ρ σ)}

/-- Calls that are each answered as specified are answered so as a whole. -/
theorem Calls.session (h : Calls run s ms u)
    (hstep : ∀ m ∈ ms, run m.call m.before = .ok (m.result, m.after) → ∀ t, R m.before t →
      ∃ t', answers t m.call m.result t' ∧ R m.after t') {t : τ} (hs : R s t) :
    ∃ t', Session answers t (ms.map Made.seen) t' ∧ R u t' := by
  induction h generalizing t with
  | nil => exact ⟨t, .nil t, hs⟩
  | cons hrun _ ih =>
    obtain ⟨t₁, hanswer, ht₁⟩ := hstep _ List.mem_cons_self hrun t hs
    obtain ⟨t', hsession, ht'⟩ := ih (fun m hm => hstep m (List.mem_cons_of_mem _ hm)) ht₁
    exact ⟨t', .cons hanswer hsession, ht'⟩

end Prog
