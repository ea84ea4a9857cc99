import Agendafs.ForStd.Descent
import Agendafs.ForStd.PostOrder
import Agendafs.Spec.StoreCorrect

/-!
# Freeing a tree

`free_tree` frees the nodes of a tree from below. Whenever it returns, it has freed
each node that it has visited, and it does not come back to a node while it frees the
nodes below it. On a store that keeps its invariant it returns and frees the nodes
below the node it is called for, and no others.

## Key results

- `freeTree_frees`: what is left when the recursion returns
- `freeTree_below`: the recursion on the tree of a store
-/

namespace Agendafs

open Prog

namespace Store

variable {s : Store}

/-- The store without the memory of these nodes. -/
def freeAll (s : Store) (ns : List NodeId) : Store :=
  { s with heap := fun n => if n ∈ ns then none else s.heap n }

/-- The children of a node that is allocated. -/
def kids (s : Store) (n : NodeId) : Option (List NodeId) := (s.heap n).map (·.children)

theorem freeAll_heap {ns : List NodeId} {n : NodeId} (hn : n ∉ ns) :
    (s.freeAll ns).heap n = s.heap n := if_neg hn

theorem heap_freeAll {ns : List NodeId} {n : NodeId} {t : TreeNode}
    (h : (s.freeAll ns).heap n = some t) : s.heap n = some t := by
  change (if n ∈ ns then none else s.heap n) = _ at h
  split at h
  · cases h
  · exact h

theorem freeAll_nil (s : Store) : s.freeAll [] = s := by
  unfold freeAll
  simp only [List.not_mem_nil, if_false]

theorem freeAll_freeAll (s : Store) (ms ns : List NodeId) :
    (s.freeAll ms).freeAll ns = s.freeAll (ms ++ ns) := by
  unfold freeAll
  simp only [List.mem_append, Store.mk.injEq, and_true]
  funext n
  by_cases hms : n ∈ ms <;> by_cases hns : n ∈ ns <;> simp [hms, hns]

theorem freeAll_append_singleton (s : Store) (ns : List NodeId) (n : NodeId) :
    s.freeAll (ns ++ [n]) = (s.freeAll ns).free n := by
  rw [← freeAll_freeAll]
  unfold free freeAll
  simp only [List.mem_singleton]

theorem kids_freeAll {ns : List NodeId} {n : NodeId} {cs : List NodeId}
    (h : (s.freeAll ns).kids n = some cs) : s.kids n = some cs := by
  obtain ⟨t, ht, rfl⟩ := Option.map_eq_some_iff.1 h
  rw [kids, heap_freeAll ht]
  rfl

end Store

variable {s s' : Store} {fuel : Nat} {n : NodeId}

theorem deref_some {r : TreeNode × Store} (hrun : deref n s = .ok r) :
    s.heap n = some r.1 ∧ r.2 = s := by
  unfold deref at hrun
  rw [bind_run_ok (get_run _)] at hrun
  cases hu : s.heap n with
  | none => rw [hu] at hrun; cases hrun
  | some u => rw [hu] at hrun; cases hrun; exact ⟨rfl, rfl⟩

theorem writeNode_some {f : TreeNode → TreeNode} {r : Unit × Store}
    (hrun : writeNode n f s = .ok r) : ∃ u, s.heap n = some u ∧ r.2 = s.modifyNode n f := by
  unfold writeNode at hrun
  rw [bind_run] at hrun
  split at hrun
  · rename_i u s₁ hderef
    obtain ⟨hu, rfl⟩ := deref_some hderef
    cases hrun
    exact ⟨u, hu, rfl⟩
  · cases hrun

/-- The loop over the children, for a recursion that frees what it visits. -/
theorem forM_freeTree_frees {xs : List NodeId}
    (ih : ∀ {s s' : Store} {n : NodeId}, freeTree fuel n s = .ok ((), s') →
      ∃ t ms, s.heap n = some t ∧ Visits s.kids t.children ms ∧ s' = s.freeAll (ms ++ [n]))
    (hrun : xs.forM (freeTree fuel) s = .ok ((), s')) :
    ∃ ns, Visits s.kids xs ns ∧ s' = s.freeAll ns := by
  induction xs generalizing s with
  | nil =>
    cases hrun
    exact ⟨[], .nil, (Store.freeAll_nil _).symm⟩
  | cons x xs ihxs =>
    change (freeTree fuel x >>= fun _ => xs.forM (freeTree fuel)) s = _ at hrun
    rw [bind_run] at hrun
    split at hrun
    · rename_i s₁ hfirst
      obtain ⟨t, ms, ht, hvisits, rfl⟩ := ih hfirst
      obtain ⟨ns, hrest, rfl⟩ := ihxs hrun
      refine ⟨ms ++ x :: ns, .cons (by rw [Store.kids, ht]; rfl) hvisits
        (hrest.mono fun _ _ => Store.kids_freeAll), ?_⟩
      rw [Store.freeAll_freeAll, List.append_assoc, List.singleton_append]
    · cases hrun

/-- When `free_tree` returns, it has freed the nodes that it has visited. -/
theorem freeTree_frees (hrun : freeTree fuel n s = .ok ((), s')) :
    ∃ t ms, s.heap n = some t ∧ Visits s.kids t.children ms ∧ s' = s.freeAll (ms ++ [n]) := by
  induction fuel generalizing s s' n with
  | zero => cases hrun
  | succ fuel ih =>
    unfold freeTree at hrun
    cases ht : s.heap n with
    | none =>
      rw [bind_run_error (e := .useAfterFree)] at hrun
      · cases hrun
      · unfold deref
        rw [bind_run_ok (get_run _), ht]
        rfl
    | some t =>
      rw [bind_run_ok (deref_run ht), bind_run] at hrun
      split at hrun
      · rename_i s₁ hloop
        obtain ⟨ms, hvisits, rfl⟩ := forM_freeTree_frees ih hloop
        refine ⟨t, ms, rfl, hvisits, ?_⟩
        rw [modify_run] at hrun
        cases hrun
        rw [Store.freeAll_append_singleton]
        rfl
      · cases hrun

/-- After the loop over its children a node is still there. -/
theorem forM_freeTree_keeps {t : TreeNode} (ht : s.heap n = some t)
    (hrun : t.children.forM (freeTree fuel) s = .ok ((), s')) : s'.heap n = some t := by
  obtain ⟨ms, hvisits, rfl⟩ := forM_freeTree_frees freeTree_frees hrun
  rw [Store.freeAll_heap (hvisits.not_mem_self (by rw [Store.kids, ht]; rfl)), ht]

/-- On a store that keeps its invariant `free_tree` returns, and frees what is below the node. -/
theorem freeTree_below (fuel : Nat) (h : s.Inv) (hn : s.links.Below s.fuseRoot n)
    (hfuel : s.nextId ≤ fuel) :
    ∃ ms, freeTree fuel n s = .ok ((), s.freeAll ms) ∧ ∀ m, m ∈ ms ↔ s.links.Below n m := by
  -- Some other trees may have been freed before.
  suffices hgo : ∀ gone : List NodeId, (∀ m ∈ gone, ¬ s.links.Below n m) →
      ∃ ms, freeTree fuel n (s.freeAll gone) = .ok ((), s.freeAll (gone ++ ms)) ∧
        ∀ m, m ∈ ms ↔ s.links.Below n m by
    simpa only [Store.freeAll_nil, List.nil_append] using hgo [] nofun
  refine h.wf.induction_down h.root_parent (Finset.range s.nextId)
    (fun m hm => Finset.mem_range.2 (h.lt_nextId m (h.live_of_below hm)))
    (motive := fun fuel n => ∀ gone : List NodeId, (∀ m ∈ gone, ¬ s.links.Below n m) →
      ∃ ms, freeTree fuel n (s.freeAll gone) = .ok ((), s.freeAll (gone ++ ms)) ∧
        ∀ m, m ∈ ms ↔ s.links.Below n m)
    (fun fuel n hn ih gone hgone => ?_) hn (by rwa [Finset.card_range])
  obtain ⟨t, ht⟩ := exists_heap (h.live_of_below hn)
  have hchildren : t.children = s.links.children n := (links_children_eq ht).symm
  -- The children, one after the other: no node is below two of them.
  have hloop : ∀ cs gone, cs.Nodup → cs ⊆ s.links.children n →
      (∀ m ∈ gone, ∀ c ∈ cs, ¬ s.links.Below c m) →
      ∃ ms, cs.forM (freeTree fuel) (s.freeAll gone) = .ok ((), s.freeAll (gone ++ ms)) ∧
        ∀ m, m ∈ ms ↔ ∃ c ∈ cs, s.links.Below c m := by
    intro cs
    induction cs with
    | nil => exact fun gone _ _ _ => ⟨[], by rw [List.append_nil]; rfl, by simp⟩
    | cons c cs ihcs =>
      intro gone hnodup hsub hgone
      have hc := hsub List.mem_cons_self
      obtain ⟨ms, hrun, hms⟩ := ih c hc gone fun m hm => hgone m hm c List.mem_cons_self
      obtain ⟨ns, hrest, hns⟩ := ihcs (gone ++ ms) hnodup.of_cons
        (fun d hd => hsub (List.mem_cons_of_mem _ hd)) fun m hm d hd hdm => by
          rcases List.mem_append.1 hm with hm | hm
          · exact hgone m hm d (List.mem_cons_of_mem _ hd) hdm
          · have heq := h.wf.eq_of_below_children h.root_parent hn hc
              (hsub (List.mem_cons_of_mem _ hd)) ((hms m).1 hm) hdm
            exact (List.nodup_cons.1 hnodup).1 (heq ▸ hd)
      refine ⟨ms ++ ns, ?_, fun m => by simp [hms, hns]⟩
      change (freeTree fuel c >>= fun _ => cs.forM (freeTree fuel)) _ = _
      rw [bind_run_ok hrun, hrest, List.append_assoc]
  obtain ⟨ms, hrun, hms⟩ := hloop _ gone (h.wf.nodup n) (List.Subset.refl _) fun m hm c hc hcm =>
    hgone m hm (.trans (.step (h.wf.mem_children.1 hc) .refl) hcm)
  refine ⟨ms ++ [n], ?_, fun m => ?_⟩
  · have hderef : (s.freeAll gone).heap n = some t := by
      rw [Store.freeAll_heap fun hm => hgone n hm .refl, ht]
    unfold freeTree
    rw [bind_run_ok (deref_run hderef), hchildren, bind_run_ok hrun, modify_run,
      ← List.append_assoc, Store.freeAll_append_singleton]
    rfl
  · rw [List.mem_append, hms, List.mem_singleton, h.wf.below_iff_children, or_comm]

end Agendafs
