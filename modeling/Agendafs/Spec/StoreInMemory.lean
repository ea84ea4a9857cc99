import Agendafs.Spec.ChildArrays
import Agendafs.Spec.FreedTrees

/-!
# The tree in memory follows the tree on lists

The functions of `tree.c`, `fuse_node_store.c` and the path lookup, as they work on
arrays and on the hash table in memory, return whenever the functions on lists do,
with the same answers. So what is shown of the functions on lists holds of the arrays:
where those do not stop, no index is out of bounds, no entry is read before it has been
written, and no pointer to a freed node is followed.

## Key results

- `follows_freeTree`: no node is read or freed after it has been freed
- `follows_detachTreeNode`, `follows_addFuseChild`, `follows_moveFuseNode`
- `follows_getNodeByPath`
-/

namespace Agendafs

open Prog Linked

/-- The tree in memory shows the tree on lists, node by node, and has its index. -/
structure Mirrors (c : StoreMemory) (s : Store) : Prop where
  nodes : ∀ n, Option.Rel Shows (c.nodes n) (s.heap n)
  nextId : c.nextId = s.nextId
  fuseRoot : c.fuseRoot = s.fuseRoot
  entries : Refines c.entriesVdir s.entriesVdir
  /-- There has been one insertion at most for each node. -/
  bounded : s.entriesVdir.Bounded s.nextId

/-- Trees in memory and on lists, for up to 2^30 allocated nodes. -/
def mirrors : Pairing StoreMemory Store := ⟨Mirrors, (·.nextId), 2 ^ 30⟩

/-- The tree with other fields in one node. -/
def StoreMemory.setNode (c : StoreMemory) (n : NodeId) (t : NodeData) : StoreMemory :=
  { c with nodes := fun m => if m = n then some t else c.nodes m }

variable {c : StoreMemory} {s : Store} {n : NodeId}

namespace Mirrors

theorem node (h : Mirrors c s) {u : TreeNode} (hu : s.heap n = some u) :
    ∃ t, c.nodes n = some t ∧ Shows t u := by
  have hrel := h.nodes n
  rw [hu] at hrel
  cases ht : c.nodes n with
  | none => rw [ht] at hrel; cases hrel
  | some t =>
    rw [ht] at hrel
    cases hrel with
    | some hshows => exact ⟨t, rfl, hshows⟩

theorem none_iff (h : Mirrors c s) : c.nodes n = none ↔ s.heap n = none := by
  have hrel := h.nodes n
  generalize c.nodes n = t at hrel ⊢
  generalize s.heap n = u at hrel ⊢
  cases hrel <;> simp

theorem setNode (h : Mirrors c s) {u : TreeNode} (hu : s.heap n = some u) {t : NodeData}
    {f : TreeNode → TreeNode} (ht : Shows t (f u)) : Mirrors (c.setNode n t) (s.modifyNode n f) where
  nodes m := by
    rw [Store.modifyNode_heap]
    change Option.Rel Shows (if m = n then some t else c.nodes m) _
    split
    · rename_i hm
      rw [hm, hu]
      exact .some ht
    · exact h.nodes m
  nextId := h.nextId
  fuseRoot := h.fuseRoot
  entries := h.entries
  bounded := h.bounded

theorem free (h : Mirrors c s) (n : NodeId) :
    Mirrors { c with nodes := fun m => if m = n then none else c.nodes m } (s.free n) where
  nodes m := by
    change Option.Rel Shows (if m = n then none else c.nodes m) (if m = n then none else s.heap m)
    split
    · exact .none
    · exact h.nodes m
  nextId := h.nextId
  fuseRoot := h.fuseRoot
  entries := h.entries
  bounded := h.bounded

end Mirrors

/-! ## Nodes -/

section

variable {t : NodeData} {u : TreeNode}

theorem mem_deref_run (h : c.nodes n = some t) : Mem.deref n c = .ok (t, c) := by
  unfold Mem.deref
  rw [bind_run_ok (get_run _), h]
  rfl

theorem mem_deref_some {r : NodeData × StoreMemory} (hrun : Mem.deref n c = .ok r) :
    c.nodes n = some r.1 ∧ r.2 = c := by
  unfold Mem.deref at hrun
  rw [bind_run_ok (get_run _)] at hrun
  cases ht : c.nodes n with
  | none => rw [ht] at hrun; cases hrun
  | some t => rw [ht] at hrun; cases hrun; exact ⟨rfl, rfl⟩

theorem mem_writeNode_run (h : c.nodes n = some t) (f : NodeData → NodeData) :
    Mem.writeNode n f c = .ok ((), c.setNode n (f t)) := by
  unfold Mem.writeNode StoreMemory.setNode
  rw [bind_run_ok (mem_deref_run h), modify_run]
  congr 3
  funext m
  split
  · rename_i hm
    rw [hm, h]
    rfl
  · rfl

theorem follows_deref : Follows mirrors Shows (Mem.deref n) (deref n) := by
  intro s u s' hrun
  obtain ⟨hu, rfl⟩ := deref_some hrun
  refine ⟨Nat.le_refl _, fun _ c hc => ?_⟩
  obtain ⟨t, ht, hshows⟩ := Mirrors.node hc hu
  exact ⟨t, c, mem_deref_run ht, hshows, hc⟩

/-- A program that changes one node as a program on lists does. -/
theorem follows_modifyNode {m' : MemM Unit} {m : StoreM Unit} {f : TreeNode → TreeNode}
    {P : TreeNode → Prop}
    (hm : ∀ s r, m s = .ok r → ∃ u, s.heap n = some u ∧ P u ∧ r.2 = s.modifyNode n f)
    (h : ∀ c t u, c.nodes n = some t → Shows t u → P u →
      ∃ t', m' c = .ok ((), c.setNode n t') ∧ Shows t' (f u)) :
    Follows mirrors Eq m' m := by
  intro s a s' hrun
  obtain ⟨u, hu, hP, rfl⟩ := hm s _ hrun
  refine ⟨Nat.le_refl _, fun _ c hc => ?_⟩
  obtain ⟨t, ht, hshows⟩ := Mirrors.node hc hu
  obtain ⟨t', hrun', ht'⟩ := h c t u ht hshows hP
  exact ⟨(), _, hrun', rfl, Mirrors.setNode hc hu ht'⟩

theorem follows_writeNode {f' : NodeData → NodeData} {f : TreeNode → TreeNode}
    (h : ∀ t u, Shows t u → Shows (f' t) (f u)) :
    Follows mirrors Eq (Mem.writeNode n f') (writeNode n f) :=
  follows_modifyNode (P := fun _ => True)
    (fun s r hrun => by
      obtain ⟨u, hu, hr⟩ := writeNode_some hrun
      exact ⟨u, hu, trivial, hr⟩)
    fun c t u ht hshows _ => ⟨f' t, mem_writeNode_run ht f', h t u hshows⟩

theorem Shows.setParent (h : Shows t u) (p : Option NodeId) :
    Shows { t with parent := p } { u with parent := p } :=
  ⟨h.data, rfl, h.count, h.capacity, h.children⟩

theorem Shows.setData (h : Shows t u) (d : Option AgendaEntry) :
    Shows { t with data := d } { u with data := d } :=
  ⟨rfl, h.parent, h.count, h.capacity, h.children⟩

theorem setNode_setNode (c : StoreMemory) (t t' : NodeData) :
    (c.setNode n t).setNode n t' = c.setNode n t' := by
  unfold StoreMemory.setNode
  congr 1
  funext m
  dsimp only
  split <;> rfl

theorem setNode_nodes (c : StoreMemory) (t : NodeData) : (c.setNode n t).nodes n = some t :=
  if_pos rfl

/-- The array is grown where it is full, and then there is room for the child. -/
theorem follows_pushChild (parent child : NodeId) :
    Follows mirrors Eq (Mem.pushChild parent child)
      (writeNode parent fun t => { t with children := t.children ++ [child] }) :=
  follows_modifyNode (P := fun _ => True)
    (fun s r hrun => by
      obtain ⟨u, hu, hr⟩ := writeNode_some hrun
      exact ⟨u, hu, trivial, hr⟩)
    fun c t u ht hshows _ => by
      obtain ⟨hgrown, hroom⟩ := shows_grow hshows
      obtain ⟨children, hwrite, hpushed⟩ := writeArray_grown hgrown hroom child
        (c := c.setNode parent (Mem.grow t))
      refine ⟨_, ?_, hpushed⟩
      unfold Mem.pushChild
      rw [bind_run_ok (mem_writeNode_run ht _), bind_run_ok (mem_deref_run (setNode_nodes ..)),
        bind_run_ok hwrite, mem_writeNode_run (setNode_nodes ..), setNode_setNode]

/-- The node is found in the array of its parent, and what is behind it is moved to the front. -/
theorem follows_removeChild (parent node : NodeId) :
    Follows mirrors Eq (Mem.removeChild parent node) (do
      if node ∈ (← deref parent).children then
        writeNode parent fun t => { t with children := t.children.erase node }
      else throw .childNotFound) :=
  follows_modifyNode (P := fun u => node ∈ u.children)
    (fun s r hrun => by
      rw [bind_run] at hrun
      split at hrun
      · rename_i u s₁ hderef
        obtain ⟨hu, rfl⟩ := deref_some hderef
        split at hrun
        · rename_i hmem
          obtain ⟨_, _, hr⟩ := writeNode_some hrun
          exact ⟨u, hu, hmem, hr⟩
        · cases hrun
      · cases hrun)
    fun c t u ht hshows hmem => by
      obtain ⟨index, children, hfind, hshift, hremoved⟩ := removeChild_loops hshows hmem (c := c)
      refine ⟨_, ?_, hremoved⟩
      unfold Mem.removeChild
      rw [bind_run_ok (mem_deref_run ht), bind_run_ok hfind]
      dsimp only
      rw [bind_run_ok hshift, mem_writeNode_run ht]

end
theorem follows_addChild (parent child : NodeId) :
    Follows mirrors Eq (Mem.addChild parent child) (addChild parent child) :=
  (follows_pushChild parent child).bind_eq fun _ =>
    (follows_writeNode fun _ _ h => h.setParent (some parent)).bind_eq fun _ => .pure rfl

theorem follows_detachTreeNode (node : NodeId) :
    Follows mirrors Eq (Mem.detachTreeNode node) (detachTreeNode node) := by
  refine follows_deref.bind exists_shows fun t u hshows => ?_
  rw [hshows.parent]
  cases u.parent with
  | none => exact .pure rfl
  | some parent =>
    have hwrites := (follows_removeChild parent node).bind_eq fun _ =>
      (follows_writeNode (n := node) fun _ _ h => h.setParent none).bind_eq fun _ =>
        (.pure rfl : Follows mirrors Eq (pure true : MemM Bool) (pure true : StoreM Bool))
    convert hwrites using 1
    change (deref parent >>= _) = _
    rw [bind_assoc]
    refine bind_congr fun u => ?_
    split <;> rfl

theorem follows_moveNode (newParent child : NodeId) :
    Follows mirrors Eq (Mem.moveNode newParent child) (moveNode newParent child) :=
  (follows_detachTreeNode child).bind_eq fun _ => follows_addChild newParent child

theorem follows_nodeHasChildren (node : NodeId) :
    Follows mirrors Eq (Mem.nodeHasChildren node) (nodeHasChildren node) := by
  refine follows_deref.bind exists_shows fun t u hshows => .pure ?_
  rw [hshows.count, decide_eq_decide, List.length_pos_iff]

theorem follows_isRootNode (node : NodeId) :
    Follows mirrors Eq (Mem.isRootNode node) (isRootNode node) :=
  follows_deref.bind exists_shows fun _ _ hshows => .pure (congrArg Option.isNone hshows.data)

theorem follows_getNodeFilename (node : NodeId) :
    Follows mirrors Eq (Mem.getNodeFilename node) (getNodeFilename node) := by
  refine follows_deref.bind exists_shows fun t u hshows => ?_
  rw [hshows.data]
  cases u.data with
  | none => exact .pure rfl
  | some entry => exact .pure rfl

theorem follows_nonNull {α : Type} (a : Option α) :
    Follows mirrors Eq (Mem.nonNull a) (nonNull a) := by
  cases a with
  | none => exact .throw
  | some a => exact .pure rfl

theorem follows_getVdirFilepath (vdir : CStr) (node : NodeId) :
    Follows mirrors Eq (Mem.getVdirFilepath vdir node) (getVdirFilepath vdir node) := by
  refine follows_deref.bind exists_shows fun t u hshows => ?_
  rw [hshows.data]
  exact (follows_nonNull _).bind_eq fun _ => .pure rfl

theorem follows_setNodeFilename (node : NodeId) (filename : CStr) :
    Follows mirrors Eq (Mem.setNodeFilename node filename) (setNodeFilename node filename) := by
  refine follows_deref.bind exists_shows fun t u hshows => ?_
  rw [hshows.data]
  exact (follows_nonNull _).bind_eq fun _ => follows_writeNode fun _ _ h => h.setData _

/-! ## Freeing -/

/-- The loop over the children. The node is read in each round, so it must still be there. -/
theorem freeChildren_run {fuel : Nat} {node : NodeId} {u : TreeNode} {s₁ : Store}
    (hfree : ∀ n, Follows mirrors Eq (Mem.freeTree fuel n) (freeTree fuel n))
    (hkept : s₁.heap node = some u) {kids : List NodeId} :
    ∀ (pre : List NodeId) {s c}, u.children = pre ++ kids → kids.forM (freeTree fuel) s = .ok ((), s₁) →
      Mirrors c s → s₁.nextId ≤ 2 ^ 30 →
      ∃ c', ((List.range' pre.length kids.length).forM fun i => do
          Mem.freeTree fuel (← Mem.readArray (← Mem.deref node).children i) : MemM Unit) c =
        .ok ((), c') ∧ Mirrors c' s₁ := by
  induction kids with
  | nil =>
    intro pre s c _ hrun hc _
    cases hrun
    exact ⟨c, rfl, hc⟩
  | cons kid kids ih =>
    intro pre s c hpre hrun hc hlimit
    change (freeTree fuel kid >>= fun _ => kids.forM (freeTree fuel)) s = _ at hrun
    rw [bind_run] at hrun
    split at hrun
    case h_2 => cases hrun
    rename_i s₂ hfirst
    obtain ⟨_, _, _, _, rfl⟩ := freeTree_frees hfirst
    obtain ⟨ns, _, rfl⟩ := forM_freeTree_frees freeTree_frees hrun
    -- What is left at the end has been there before.
    have hu : s.heap node = some u := by
      rw [Store.freeAll_freeAll] at hkept
      exact Store.heap_freeAll hkept
    obtain ⟨t, ht, hshows⟩ := hc.node hu
    obtain ⟨_, hgoes⟩ := hfree kid s () _ hfirst
    obtain ⟨_, c₂, hrun₂, _, hc₂⟩ := hgoes hlimit c hc
    obtain ⟨c', hrest, hc'⟩ := ih (pre ++ [kid]) (by simpa using hpre) hrun hc₂ hlimit
    refine ⟨c', ?_, hc'⟩
    rw [List.length_cons, List.range'_succ]
    change ((_ : MemM Unit) >>= fun _ => (List.forM _ _ : MemM Unit)) c = _
    rw [bind_assoc, bind_run_ok (mem_deref_run ht), bind_assoc,
      bind_run_ok (hshows.fromIndex_append hpre).readArray, bind_run_ok hrun₂]
    simpa using hrest

theorem follows_freeTree (fuel : Nat) (node : NodeId) :
    Follows mirrors Eq (Mem.freeTree fuel node) (freeTree fuel node) := by
  induction fuel generalizing node with
  | zero => exact .throw
  | succ fuel ih =>
    intro s a s' hrun
    change freeTree (fuel + 1) node s = .ok ((), s') at hrun
    obtain ⟨u, _, hu, _, hfreed⟩ := freeTree_frees hrun
    refine ⟨by rw [hfreed]; exact Nat.le_refl _, fun hlimit c hc => ?_⟩
    unfold freeTree at hrun
    rw [bind_run_ok (deref_run hu), bind_run] at hrun
    split at hrun
    case h_2 => cases hrun
    rename_i s₁ hloop
    cases hrun
    have hkept := forM_freeTree_keeps hu hloop
    obtain ⟨t, ht, hshows⟩ := Mirrors.node hc hu
    obtain ⟨c₁, hloop', hc₁⟩ :=
      freeChildren_run ih hkept [] (List.nil_append _).symm hloop hc hlimit
    rw [List.length_nil] at hloop'
    obtain ⟨t₁, ht₁, _⟩ := hc₁.node hkept
    refine ⟨(), _, ?_, rfl, hc₁.free node⟩
    unfold Mem.freeTree
    rw [bind_run_ok (mem_deref_run ht), hshows.count, List.range_eq_range', bind_run_ok hloop',
      bind_run_ok (mem_deref_run ht₁)]
    rfl
/-! ## The index -/

theorem onEntries_run {α : Type} {m : BucketM NodeId α} {a : α}
    {h : Memory (BucketData NodeId) (HashmapData NodeId)} (hrun : m c.entriesVdir = .ok (a, h)) :
    Mem.onEntries m c = .ok (a, { c with entriesVdir := h }) := zoom_ok hrun

theorem follows_getEntry (key : CStr) :
    Follows mirrors Eq (Mem.onEntries (hashmapGet key))
      (do pure ((← get).entriesVdir.get key) : StoreM (Option NodeId)) := by
  rintro s _ _ ⟨⟩
  refine ⟨Nat.le_refl _, fun _ c hc => ?_⟩
  exact ⟨_, c, onEntries_run (hashmapGet_table hc.entries hc.bounded.small key), rfl, hc⟩

theorem follows_getKeys :
    Follows mirrors Eq (Mem.onEntries hashmapGetKeys)
      (do pure (← get).entriesVdir.getKeys : StoreM (List CStr)) := by
  rintro s _ _ ⟨⟩
  refine ⟨Nat.le_refl _, fun _ c hc => ?_⟩
  exact ⟨_, c, onEntries_run (hashmapGetKeys_table hc.entries hc.bounded.live), rfl, hc⟩

theorem follows_removeEntry (key : CStr) :
    Follows mirrors (fun _ _ => True) (Mem.onEntries (hashmapRemove key))
      (modify fun s => { s with entriesVdir := s.entriesVdir.remove key } : StoreM Unit) := by
  rintro s _ _ ⟨⟩
  refine ⟨Nat.le_refl _, fun _ c hc => ?_⟩
  obtain ⟨m', hrun, hleaves⟩ := hashmapRemove_run hc.entries hc.bounded.small key
  exact ⟨_, _, onEntries_run hrun, trivial, hc.nodes, hc.nextId, hc.fuseRoot, hleaves.refines,
    hc.bounded.remove key⟩

/-! ## fuse_node_store.c -/

theorem mem_createTreeNode_run (c : StoreMemory) (data : Option AgendaEntry) :
    Mem.createTreeNode data c = .ok (c.nextId, { c with
      nodes := fun n => if n = c.nextId then some ⟨data, none, [], 0, 0⟩ else c.nodes n
      nextId := c.nextId + 1 }) := rfl

/-- The node is allocated, and then its file is put into the table. -/
theorem follows_createFuseNode (entry : AgendaEntry) :
    Follows mirrors Eq (Mem.createFuseNode entry) (createFuseNode entry) := by
  rintro s _ _ ⟨⟩
  refine ⟨Nat.le_succ _, fun hlimit c hc => ?_⟩
  have hnextId := hc.nextId
  obtain ⟨m', hrun, hleaves⟩ := hashmapInsert_run hc.entries hc.bounded.small
    (hc.bounded.small_resized hlimit) entry.filenameVdir c.nextId
  refine ⟨c.nextId, { c with
    nodes := fun n => if n = c.nextId then some ⟨some entry, none, [], 0, 0⟩ else c.nodes n
    nextId := c.nextId + 1
    entriesVdir := m' }, ?_, hnextId, ?_⟩
  · unfold Mem.createFuseNode
    rw [bind_run_ok (mem_createTreeNode_run c _)]
    exact bind_run_ok (onEntries_run hrun)
  · refine ⟨fun n => ?_, congrArg (· + 1) hnextId, hc.fuseRoot, hnextId ▸ hleaves.refines,
      hc.bounded.insert hlimit ..⟩
    change Option.Rel Shows (if n = c.nextId then _ else _) (if n = s.nextId then _ else _)
    rw [hnextId]
    split
    · exact .some ⟨rfl, rfl, rfl, rfl, [], rfl⟩
    · exact hc.nodes n

theorem upsertFuseNode_eq (entry : AgendaEntry) :
    upsertFuseNode entry =
      (do pure ((← get).entriesVdir.get entry.filenameVdir) : StoreM (Option NodeId)) >>=
        (fun node => node.elim (createFuseNode entry) fun node => do
          setNodeFilename node entry.filename
          pure node) := by
  funext s
  unfold upsertFuseNode
  rw [bind_run_ok (get_run s), bind_run_ok (bind_run_ok (get_run s))]
  cases s.entriesVdir.get entry.filenameVdir <;> rfl

theorem follows_upsertFuseNode (entry : AgendaEntry) :
    Follows mirrors Eq (Mem.upsertFuseNode entry) (upsertFuseNode entry) := by
  rw [upsertFuseNode_eq]
  refine (follows_getEntry entry.filenameVdir).bind_eq fun node => ?_
  cases node with
  | none => exact follows_createFuseNode entry
  | some node => exact (follows_setNodeFilename node _).bind_eq fun _ => .pure rfl

theorem follows_nextId :
    Follows mirrors Eq (do pure (← get).nextId : MemM NodeId)
      (do pure (← get).nextId : StoreM NodeId) := by
  rintro s _ _ ⟨⟩
  exact ⟨Nat.le_refl _, fun _ c hc => ⟨_, c, rfl, hc.nextId, hc⟩⟩

theorem follows_deleteFuseNode (node : NodeId) :
    Follows mirrors Eq (Mem.deleteFuseNode node) (deleteFuseNode node) := by
  refine follows_deref.bind exists_shows fun t u hshows => ?_
  rw [hshows.data]
  refine (follows_nonNull _).bind_eq fun e => ?_
  refine (follows_removeEntry e.filenameVdir).bind (fun _ => ⟨0, trivial⟩) fun _ _ _ => ?_
  refine (follows_detachTreeNode node).bind_eq fun _ => ?_
  exact follows_nextId.bind_eq fun n => follows_freeTree (n + 1) node

theorem follows_getFuseNodeFromVdirName (vdirName : CStr) :
    Follows mirrors Eq (Mem.getFuseNodeFromVdirName vdirName)
      (getFuseNodeFromVdirName vdirName) := follows_getEntry vdirName

/-! ## The loops over siblings -/

section

variable {children : List (Option NodeId)} {kids : List NodeId} {i : Nat}

theorem follows_isUnique (newFilename : CStr) (h : FromIndex children i kids) :
    Follows mirrors Eq (Mem.isUnique newFilename children kids.length i)
      (isUnique newFilename kids) := by
  induction kids generalizing i with
  | nil => exact .pure rfl
  | cons kid kids ih =>
    refine .skip (fun c => h.readArray) ((follows_getNodeFilename kid).bind_eq fun filename => ?_)
    split
    · exact .pure rfl
    · exact ih h.next

theorem follows_uniqueFilename (filename : CStr) (h : FromIndex children 0 kids) (rounds : Nat)
    (newFilename : CStr) (conflictCount : Nat) :
    Follows mirrors Eq
      (Mem.uniqueFilename filename children kids.length rounds newFilename conflictCount)
      (uniqueFilename filename kids rounds newFilename conflictCount) := by
  induction rounds generalizing newFilename conflictCount with
  | zero => exact .throw
  | succ rounds ih =>
    refine (follows_isUnique newFilename h).bind_eq fun unique => ?_
    split
    · exact .pure rfl
    · exact ih _ _

theorem follows_findChild (segment : CStr) (h : FromIndex children i kids) :
    Follows mirrors Eq (Mem.findChild segment children kids.length i)
      (findChild segment kids) := by
  induction kids generalizing i with
  | nil => exact .pure rfl
  | cons kid kids ih =>
    refine .skip (fun c => h.readArray) ((follows_getNodeFilename kid).bind_eq fun filename => ?_)
    split
    · exact .pure rfl
    · exact ih h.next

end

theorem follows_addFuseChild (parent : Option NodeId) (child : NodeId) :
    Follows mirrors Eq (Mem.addFuseChild parent child) (addFuseChild parent child) := by
  refine (follows_getNodeFilename child).bind_eq fun filename => ?_
  refine (follows_nonNull parent).bind_eq fun parent => ?_
  refine follows_deref.bind exists_shows fun t u hshows => ?_
  rw [hshows.count]
  refine (follows_uniqueFilename filename hshows.fromIndex _ _ _).bind_eq fun newFilename => ?_
  exact (follows_setNodeFilename child newFilename).bind_eq fun _ => follows_addChild parent child

theorem follows_moveFuseNode (newParent : Option NodeId) (child : NodeId) :
    Follows mirrors Eq (Mem.moveFuseNode newParent child) (moveFuseNode newParent child) :=
  (follows_detachTreeNode child).bind_eq fun _ => follows_addFuseChild newParent child

/-! ## Lookup -/

theorem follows_walkSegments (current : NodeId) (segments : List CStr) :
    Follows mirrors Eq (Mem.walkSegments current segments) (walkSegments current segments) := by
  induction segments generalizing current with
  | nil => exact .pure rfl
  | cons segment segments ih =>
    refine follows_deref.bind exists_shows fun t u hshows => ?_
    rw [hshows.count]
    refine (follows_findChild segment hshows.fromIndex).bind_eq fun next => ?_
    cases next with
    | none => exact .pure rfl
    | some next => exact ih next

theorem follows_fuseRoot :
    Follows mirrors Eq (do pure (← get).fuseRoot : MemM NodeId)
      (do pure (← get).fuseRoot : StoreM NodeId) := by
  rintro s _ _ ⟨⟩
  exact ⟨Nat.le_refl _, fun _ c hc => ⟨_, c, rfl, hc.fuseRoot, hc⟩⟩

theorem follows_getNodeByPath (path : CStr) :
    Follows mirrors Eq (Mem.getNodeByPath path) (getNodeByPath path) := by
  unfold Mem.getNodeByPath getNodeByPath
  by_cases hroot : path = [slash]
  · simp only [if_pos hroot]
    exact follows_fuseRoot.bind_eq fun root => .pure rfl
  · simp only [if_neg hroot]
    split
    · intro s a s' hrun
      cases hrun
    · exact follows_fuseRoot.bind_eq fun root => follows_walkSegments root _
theorem follows_readChildren {children : List (Option NodeId)} {kids : List NodeId} {i : Nat}
    (h : FromIndex children i kids) :
    Follows mirrors Eq (Mem.readChildren children kids.length i) (pure kids : StoreM (List NodeId)) := by
  induction kids generalizing i with
  | nil => exact .pure rfl
  | cons kid kids ih =>
    refine .skip (fun c => h.readArray) ?_
    change Follows mirrors Eq _ ((pure kids : StoreM (List NodeId)) >>= fun kids => pure (kid :: kids))
    exact (ih h.next).bind_eq fun _ => .pure rfl

/-- The children that a loop goes through. -/
def childrenOf (node : NodeId) : StoreM (List NodeId) := do
  pure (← deref node).children

theorem follows_childrenOf (node : NodeId) :
    Follows mirrors Eq (Mem.childrenOf node) (childrenOf node) := by
  refine follows_deref.bind exists_shows fun t u hshows => ?_
  rw [hshows.count]
  exact follows_readChildren hshows.fromIndex

end Agendafs
