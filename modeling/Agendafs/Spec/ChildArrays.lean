import Agendafs.ForStd.Simulation
import Agendafs.Native.StoreMemory
import Agendafs.Spec.BucketRuns
import Mathlib.Data.Option.Basic

/-!
# Arrays of children

The array of a node begins with its children, in order; what comes behind them is
room for more. This file says what the loops over such arrays do.

## Key results

- `shows_grow`: there is room for another child
- `findIndex_run`, `shift_run`: the loops of `detach_tree_node`
-/

namespace Agendafs

open Prog Linked

/-- The fields of a node in memory are those of a node with a list of children. -/
structure Shows (t : NodeData) (u : TreeNode) : Prop where
  data : t.data = u.data
  parent : t.parent = u.parent
  count : t.childCount = u.children.length
  capacity : t.childCapacity = t.children.length
  children : ∃ spare, t.children = u.children.map some ++ spare

theorem exists_shows (u : TreeNode) : ∃ t, Shows t u :=
  ⟨⟨u.data, u.parent, u.children.map some, u.children.length, u.children.length⟩, rfl, rfl, rfl,
    (List.length_map _).symm, [], (List.append_nil _).symm⟩

variable {t : NodeData} {u : TreeNode}

/-- After `grow` the count is below the capacity. -/
theorem shows_grow (h : Shows t u) :
    Shows (Mem.grow t) u ∧ (Mem.grow t).childCount < (Mem.grow t).children.length := by
  obtain ⟨spare, hspare⟩ := h.children
  have hle : t.childCount ≤ t.children.length := by
    rw [h.count, hspare, List.length_append, List.length_map]
    omega
  unfold Mem.grow
  by_cases hfull : t.childCount = t.childCapacity
  · rw [if_pos hfull]
    have hcap := h.capacity
    -- The new capacity is larger, so the old array is kept as a whole.
    have hnew : ∀ n, t.children.length < n →
        Shows { t with children := Mem.xreallocarray t.children n, childCapacity := n } u ∧
          t.childCount < (Mem.xreallocarray t.children n).length := by
      intro n hn
      have harray : Mem.xreallocarray t.children n =
          t.children ++ List.replicate (n - t.children.length) none := by
        rw [Mem.xreallocarray, List.take_of_length_le (by omega)]
      refine ⟨⟨h.data, h.parent, h.count, ?_, ?_⟩, ?_⟩
      · change n = _
        rw [harray, List.length_append, List.length_replicate]
        omega
      · refine ⟨spare ++ List.replicate (n - t.children.length) none, ?_⟩
        rw [harray, hspare, List.append_assoc]
      · rw [harray, List.length_append, List.length_replicate]
        omega
    refine hnew _ ?_
    split <;> omega
  · rw [if_neg hfull]
    have hcap := h.capacity
    exact ⟨h, by omega⟩

variable {c : StoreMemory} {node : NodeId}

/-- From this index on, the array has these children and then room for more. -/
def FromIndex (children : List (Option NodeId)) (i : Nat) (kids : List NodeId) : Prop :=
  ∃ spare, children.drop i = kids.map some ++ spare

theorem Shows.fromIndex (h : Shows t u) : FromIndex t.children 0 u.children := h.children

theorem Shows.fromIndex_append (h : Shows t u) {pre kids : List NodeId}
    (hu : u.children = pre ++ kids) : FromIndex t.children pre.length kids := by
  obtain ⟨spare, hspare⟩ := h.children
  refine ⟨spare, ?_⟩
  rw [hspare, hu, List.map_append, List.append_assoc, ← List.length_map some, List.drop_left]

section

variable {children : List (Option NodeId)} {i : Nat} {kid : NodeId} {kids : List NodeId}

theorem FromIndex.next (h : FromIndex children i (kid :: kids)) :
    FromIndex children (i + 1) kids := by
  obtain ⟨spare, hspare⟩ := h
  refine ⟨spare, ?_⟩
  rw [← List.tail_drop, hspare, List.map_cons, List.cons_append, List.tail_cons]

theorem FromIndex.readArray (h : FromIndex children i (kid :: kids)) :
    Mem.readArray children i c = .ok (kid, c) := by
  obtain ⟨spare, hspare⟩ := h
  have hget : children[i]? = some (some kid) := by
    rw [← List.head?_drop, hspare]
    rfl
  unfold Mem.readArray
  rw [hget]
  rfl

/-- The first loop of `detach_tree_node` finds the first place of the node. -/
theorem findIndex_run (h : FromIndex children i kids) :
    Mem.findIndex children node kids.length i c =
      .ok (if node ∈ kids then some (i + kids.idxOf node) else none, c) := by
  induction kids generalizing i with
  | nil => rfl
  | cons kid kids ih =>
    rw [List.length_cons, Mem.findIndex, bind_run_ok h.readArray]
    by_cases hkid : kid = node
    · rw [if_pos hkid, if_pos (hkid ▸ List.mem_cons_self), hkid, List.idxOf_cons_self]
      rfl
    · have hmem : node ∈ kid :: kids ↔ node ∈ kids := by simp [Ne.symm hkid]
      rw [if_neg hkid, ih h.next, List.idxOf_cons_ne kids hkid]
      simp only [hmem, Nat.add_right_comm i 1, Nat.add_assoc, Nat.succ_eq_add_one]

/-- The second loop moves the children behind the gap to the front, and leaves one entry that is
    not counted anymore. -/
theorem shift_run (pre post : List NodeId) (gone : NodeId) (spare : List (Option NodeId)) :
    ∃ last, Mem.shift post.length (pre.length + 1)
      (pre.map some ++ some gone :: (post.map some ++ spare)) c =
        .ok ((pre ++ post).map some ++ some last :: spare, c) := by
  induction post generalizing pre gone with
  | nil => exact ⟨gone, by rw [List.append_nil]; rfl⟩
  | cons kid post ih =>
    obtain ⟨last, hlast⟩ := ih (pre ++ [kid]) kid
    refine ⟨last, ?_⟩
    have hfrom : FromIndex (pre.map some ++ some gone :: ((kid :: post).map some ++ spare))
        (pre.length + 1) (kid :: post) := by
      refine ⟨spare, ?_⟩
      rw [← List.length_map some, List.drop_length_add_append]
      rfl
    have hwrite : Mem.writeArray
        (pre.map some ++ some gone :: ((kid :: post).map some ++ spare)) (pre.length + 1 - 1) kid
          c = .ok ((pre ++ [kid]).map some ++ some kid :: (post.map some ++ spare), c) := by
      unfold Mem.writeArray
      rw [if_pos (by simp), Nat.add_sub_cancel, List.set_append_right _ _ (by simp)]
      simp
    rw [List.length_cons, Mem.shift, bind_run_ok hfrom.readArray, bind_run_ok hwrite]
    simpa using hlast

end

/-- `parent->children[parent->child_count++] = child` appends the child. -/
theorem writeArray_grown (h : Shows t u) (hroom : t.childCount < t.children.length)
    (child : NodeId) :
    ∃ children, Mem.writeArray t.children t.childCount child c = .ok (children, c) ∧
      Shows { t with children := children, childCount := t.childCount + 1 }
        { u with children := u.children ++ [child] } := by
  obtain ⟨spare, hspare⟩ := h.children
  have hcount := h.count
  cases spare with
  | nil =>
    rw [hspare, List.append_nil, List.length_map] at hroom
    omega
  | cons old spare =>
    have hset : t.children.set t.childCount (some child) =
        (u.children ++ [child]).map some ++ spare := by
      rw [hspare, hcount, ← List.length_map some, List.set_append_right _ _ (Nat.le_refl _)]
      simp
    refine ⟨_, by rw [Mem.writeArray, if_pos hroom]; rfl, h.data, h.parent, ?_, ?_, spare, hset⟩
    · change t.childCount + 1 = _
      rw [hcount, List.length_append, List.length_singleton]
    · exact h.capacity.trans (List.length_set ..).symm

/-- The two loops of `detach_tree_node` take the node out of the array of its parent. -/
theorem removeChild_loops (h : Shows t u) (hmem : node ∈ u.children) :
    ∃ index children,
      Mem.findIndex t.children node t.childCount 0 c = .ok (some index, c) ∧
      Mem.shift (t.childCount - (index + 1)) (index + 1) t.children c = .ok (children, c) ∧
      Shows { t with children := children, childCount := t.childCount - 1 }
        { u with children := u.children.erase node } := by
  obtain ⟨spare, hspare⟩ := h.children
  obtain ⟨pre, post, hkids, hpre⟩ := List.eq_append_cons_of_mem hmem
  have hindex : u.children.idxOf node = pre.length := by
    rw [hkids, List.idxOf_append_of_notMem hpre, List.idxOf_cons_self, Nat.add_zero]
  have herase : u.children.erase node = pre ++ post := by
    rw [hkids, List.erase_append_right _ hpre, List.erase_cons_head]
  have hlength : u.children.length = pre.length + (post.length + 1) := by
    rw [hkids, List.length_append, List.length_cons]
  obtain ⟨last, hlast⟩ := shift_run (c := c) pre post node spare
  have harray : t.children = pre.map some ++ some node :: (post.map some ++ spare) := by
    rw [hspare, hkids, List.map_append, List.map_cons, List.append_assoc, List.cons_append]
  refine ⟨pre.length, (pre ++ post).map some ++ some last :: spare, ?_, ?_, h.data, h.parent, ?_, ?_, some last :: spare, ?_⟩
  · rw [h.count, findIndex_run h.fromIndex, if_pos hmem, hindex, Nat.zero_add]
  · rw [h.count, hlength, harray, show pre.length + (post.length + 1) - (pre.length + 1) =
      post.length by omega]
    exact hlast
  · change t.childCount - 1 = (u.children.erase node).length
    rw [h.count, herase, hlength, List.length_append]
    omega
  · refine h.capacity.trans ?_
    rw [harray]
    simp only [List.length_append, List.length_cons, List.length_map]
    omega
  · change _ = (u.children.erase node).map some ++ _
    rw [herase]

end Agendafs
