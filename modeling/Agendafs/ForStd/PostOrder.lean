import Mathlib.Data.List.Basic

/-!
# Visiting a tree from below

A recursion that frees a tree visits the trees below a node before the node. `Visits`
relates the nodes it is called for to the nodes it visits, in order, over any pointer
structure: where there is a cycle nothing is related. Since no node is visited before
what is below it, a node is not met again while the nodes below it are visited.

## Key results

- `Visits.not_mem_self`: a node is not below itself
-/

universe u

variable {ι : Type u}

/-- Starting from the nodes of the first list, those of the second one are visited in this order. A
    node without children list cannot be visited. -/
inductive Visits (kids : ι → Option (List ι)) : List ι → List ι → Prop
  | nil : Visits kids [] []
  | cons {x : ι} {cs xs ms ns : List ι} : kids x = some cs → Visits kids cs ms →
    Visits kids xs ns → Visits kids (x :: xs) (ms ++ x :: ns)

namespace Visits

variable {kids kids' : ι → Option (List ι)} {x : ι} {cs xs ms ns : List ι}

theorem mono (h : Visits kids xs ns) (hsub : ∀ n cs, kids n = some cs → kids' n = some cs) :
    Visits kids' xs ns := by
  induction h with
  | nil => exact .nil
  | cons hx _ _ ihbelow ihrest => exact .cons (hsub _ _ hx) ihbelow ihrest

/-- Which nodes are visited is determined. -/
theorem unique {ns' : List ι} (h : Visits kids xs ns) (h' : Visits kids xs ns') : ns = ns' := by
  induction h generalizing ns' with
  | nil => cases h'; rfl
  | cons hx _ _ ihbelow ihrest =>
    cases h' with
    | cons hx' hbelow hrest =>
      obtain rfl := Option.some.inj (hx.symm.trans hx')
      rw [ihbelow hbelow, ihrest hrest]

/-- Where a node is visited, fewer nodes are visited below it. -/
theorem exists_below (h : Visits kids xs ns) (hmem : x ∈ ns) :
    ∃ cs ms, kids x = some cs ∧ Visits kids cs ms ∧ ms.length < ns.length := by
  induction h with
  | nil => cases hmem
  | @cons y cs xs ms ns hy hbelow _ ihbelow ihrest =>
    rw [List.mem_append, List.mem_cons] at hmem
    rw [List.length_append, List.length_cons]
    rcases hmem with hmem | rfl | hmem
    · obtain ⟨cs', ms', hx, hvisits, hlt⟩ := ihbelow hmem
      exact ⟨cs', ms', hx, hvisits, by omega⟩
    · exact ⟨cs, ms, hy, hbelow, by omega⟩
    · obtain ⟨cs', ms', hx, hvisits, hlt⟩ := ihrest hmem
      exact ⟨cs', ms', hx, hvisits, by omega⟩

/-- A node is not among those that are visited below it. -/
theorem not_mem_self (hx : kids x = some cs) (h : Visits kids cs ms) : x ∉ ms := by
  intro hmem
  obtain ⟨cs', ms', hx', hvisits, hlt⟩ := h.exists_below hmem
  -- The visit inside would be the same visit again.
  obtain rfl := Option.some.inj (hx.symm.trans hx')
  rw [h.unique hvisits] at hlt
  exact absurd hlt (Nat.lt_irrefl _)

end Visits
