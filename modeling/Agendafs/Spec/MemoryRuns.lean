import Agendafs.Spec.LoadCorrect
import Agendafs.Spec.StoreInMemory

/-!
# Runs of the tree in memory

From the mount on, the functions of `fuse_node_store.c` may be called in any order, as
long as each is called for nodes that are there, deletes no node with children, and
indexes no file twice. Then the calls return, on the arrays and the hash table as on
lists, and with the same answers. At the end `free_tree` frees what is below the root.

The number of calls that may allocate a node is bounded by 2^30, with which the slots of
the hash table are numbers of 32 bits; there may be any number of the others.

## Key results

- `StoreCall.step`: a valid call returns and keeps the invariant
- `tree_runs_in_memory`: any valid calls, compared with the tree on lists
- `tree_cleaned_up`: what is left after the end of `main`
-/

namespace Agendafs

open Prog Linked Store

/-! ## The calls -/

/-- A call of a function of the tree. -/
inductive StoreCall
  | create (entry : AgendaEntry)
  | upsert (entry : AgendaEntry)
  | delete (node : NodeId)
  | move (newParent child : NodeId)
  | moveNode (newParent child : NodeId)
  | setFilename (node : NodeId) (newName : CStr)
  | filename (node : NodeId)
  | filepath (vdir : CStr) (node : NodeId)
  | isRoot (node : NodeId)
  | hasChildren (node : NodeId)
  | children (node : NodeId)
  | byName (vdirName : CStr)
  | byPath (path : CStr)
  | keys

/-- What a function of the tree returns. -/
inductive StoreAnswer
  | done
  | status (status : Nat)
  | node (node : Option NodeId)
  | flag (flag : Bool)
  | text (text : CStr)
  | texts (texts : List CStr)
  | nodes (nodes : List NodeId)

namespace StoreCall

/-- The call on lists. -/
def run : StoreCall → StoreM StoreAnswer
  | .create entry => do pure (.node (some (← createFuseNode entry)))
  | .upsert entry => do pure (.node (some (← upsertFuseNode entry)))
  | .delete node => do deleteFuseNode node; pure .done
  | .move newParent child => do pure (.status (← moveFuseNode (some newParent) child))
  | .moveNode newParent child => do pure (.status (← Agendafs.moveNode newParent child))
  | .setFilename node newName => do setNodeFilename node newName; pure .done
  | .filename node => do pure (.text (← getNodeFilename node))
  | .filepath vdir node => do pure (.text (← getVdirFilepath vdir node))
  | .isRoot node => do pure (.flag (← isRootNode node))
  | .hasChildren node => do pure (.flag (← nodeHasChildren node))
  | .children node => do pure (.nodes (← childrenOf node))
  | .byName vdirName => do pure (.node (← getFuseNodeFromVdirName vdirName))
  | .byPath path => do pure (.node (← getNodeByPath path))
  | .keys => do pure (.texts (← get).entriesVdir.getKeys)

/-- The call in memory. -/
def runMem : StoreCall → MemM StoreAnswer
  | .create entry => do pure (.node (some (← Mem.createFuseNode entry)))
  | .upsert entry => do pure (.node (some (← Mem.upsertFuseNode entry)))
  | .delete node => do Mem.deleteFuseNode node; pure .done
  | .move newParent child => do pure (.status (← Mem.moveFuseNode (some newParent) child))
  | .moveNode newParent child => do pure (.status (← Mem.moveNode newParent child))
  | .setFilename node newName => do Mem.setNodeFilename node newName; pure .done
  | .filename node => do pure (.text (← Mem.getNodeFilename node))
  | .filepath vdir node => do pure (.text (← Mem.getVdirFilepath vdir node))
  | .isRoot node => do pure (.flag (← Mem.isRootNode node))
  | .hasChildren node => do pure (.flag (← Mem.nodeHasChildren node))
  | .children node => do pure (.nodes (← Mem.childrenOf node))
  | .byName vdirName => do pure (.node (← Mem.getFuseNodeFromVdirName vdirName))
  | .byPath path => do pure (.node (← Mem.getNodeByPath path))
  | .keys => do pure (.texts (← Mem.onEntries hashmapGetKeys))

theorem follows (call : StoreCall) : Follows mirrors Eq call.runMem call.run := by
  cases call with
  | create entry => exact (follows_createFuseNode entry).bind_eq fun _ => .pure rfl
  | upsert entry => exact (follows_upsertFuseNode entry).bind_eq fun _ => .pure rfl
  | delete node => exact (follows_deleteFuseNode node).bind_eq fun _ => .pure rfl
  | move newParent child =>
    exact (follows_moveFuseNode (some newParent) child).bind_eq fun _ => .pure rfl
  | moveNode newParent child =>
    exact (follows_moveNode newParent child).bind_eq fun _ => .pure rfl
  | setFilename node filename =>
    exact (follows_setNodeFilename node filename).bind_eq fun _ => .pure rfl
  | filename node => exact (follows_getNodeFilename node).bind_eq fun _ => .pure rfl
  | filepath vdir node => exact (follows_getVdirFilepath vdir node).bind_eq fun _ => .pure rfl
  | isRoot node => exact (follows_isRootNode node).bind_eq fun _ => .pure rfl
  | hasChildren node => exact (follows_nodeHasChildren node).bind_eq fun _ => .pure rfl
  | children node => exact (follows_childrenOf node).bind_eq fun _ => .pure rfl
  | byName vdirName => exact (follows_getFuseNodeFromVdirName vdirName).bind_eq fun _ => .pure rfl
  | byPath path => exact (follows_getNodeByPath path).bind_eq fun _ => .pure rfl
  | keys => exact follows_getKeys.bind_eq fun _ => .pure rfl

/-- What the callers see to. -/
def Valid (s : Store) : StoreCall → Prop
  | .create entry => s.entriesVdir.get entry.filenameVdir = none
  | .upsert _ => True
  | .delete node => (s.entry node).isSome ∧ s.links.children node = []
  | .move newParent child => s.Live newParent ∧ (s.entry child).isSome
  | .moveNode newParent child => s.Live newParent ∧ (s.entry child).isSome
  | .setFilename node _ => (s.entry node).isSome
  | .filename node => s.Live node
  | .filepath _ node => (s.entry node).isSome
  | .isRoot node => s.Live node
  | .hasChildren node => s.Live node
  | .children node => s.Live node
  | .byName _ => True
  | .byPath path => (splitPath path).length ≤ 255
  | .keys => True

/-- May the call allocate a node? -/
def allocates : StoreCall → Bool
  | .create _ => true
  | .upsert _ => true
  | _ => false

/-- A valid call returns, keeps the invariant and allocates one node at most. -/
theorem step {s : Store} (h : s.Inv) {call : StoreCall} (hvalid : call.Valid s) :
    ∃ a s', call.run s = .ok (a, s') ∧ s'.Inv ∧ s'.nextId ≤ s.nextId + call.allocates.toNat := by
  cases call with
  | create entry => exact ⟨_, _, rfl, h.create hvalid, Nat.le_refl _⟩
  | upsert entry =>
    refine ⟨_, _, bind_run_ok (upsertFuseNode_run h), h.upsert, ?_⟩
    unfold Store.upsert
    split
    · exact Nat.le_succ _
    · exact Nat.le_refl _
  | delete node =>
    obtain ⟨hentry, hchildren⟩ := hvalid
    obtain ⟨e, he⟩ := Option.isSome_iff_exists.1 hentry
    exact ⟨_, _, bind_run_ok (deleteFuseNode_run h he hchildren), h.delete he hchildren,
      (detach_nextId _ node).le⟩
  | move newParent child =>
    obtain ⟨hparent, hentry⟩ := hvalid
    obtain ⟨e, he⟩ := Option.isSome_iff_exists.1 hentry
    exact ⟨_, _, bind_run_ok (moveFuseNode_run h hparent he), h.place hparent he,
      (detach_nextId s child).le⟩
  | moveNode newParent child =>
    obtain ⟨hparent, hentry⟩ := hvalid
    obtain ⟨e, he⟩ := Option.isSome_iff_exists.1 hentry
    refine ⟨_, _, bind_run_ok (moveNode_run h.wf hparent (live_of_entry he)), ?_,
      (detach_nextId s child).le⟩
    refine (h.detach child).attach (by simpa using hparent) (by simpa using live_of_entry he) ?_ ?_
    · rw [links_detach h.wf, Links.detach_parent, Function.update_self]
    · rw [detach_fuseRoot]
      exact h.ne_root he
  | setFilename node filename =>
    obtain ⟨e, he⟩ := Option.isSome_iff_exists.1 hvalid
    exact ⟨_, _, bind_run_ok (setNodeFilename_run he filename), h.rename node filename,
      Nat.le_refl _⟩
  | filename node => exact ⟨_, s, bind_run_ok (getNodeFilename_run hvalid), h, Nat.le_refl _⟩
  | filepath vdir node =>
    obtain ⟨e, he⟩ := Option.isSome_iff_exists.1 hvalid
    exact ⟨_, s, bind_run_ok (getVdirFilepath_run he vdir), h, Nat.le_refl _⟩
  | isRoot node => exact ⟨_, s, bind_run_ok (isRootNode_run hvalid), h, Nat.le_refl _⟩
  | hasChildren node => exact ⟨_, s, bind_run_ok (nodeHasChildren_run hvalid), h, Nat.le_refl _⟩
  | children node =>
    obtain ⟨t, ht⟩ := exists_heap hvalid
    exact ⟨_, s, bind_run_ok (bind_run_ok (deref_run ht)), h, Nat.le_refl _⟩
  | byName vdirName => exact ⟨_, s, rfl, h, Nat.le_refl _⟩
  | byPath path =>
    have hrun := getNodeByPath_walks h.wf h.root_live path
    rw [if_neg (Nat.not_lt.2 hvalid)] at hrun
    exact ⟨_, s, bind_run_ok hrun, h, Nat.le_refl _⟩
  | keys => exact ⟨_, s, rfl, h, Nat.le_refl _⟩

/-! ## Runs -/

/-- Each of the calls is valid when it is made. -/
def AllValid : Store → List StoreCall → Prop
  | _, [] => True
  | s, call :: calls => call.Valid s ∧ ∀ a s', call.run s = .ok (a, s') → AllValid s' calls

instance (s : Store) : DecidablePred (Valid s)
  | .create _ => inferInstanceAs (Decidable (_ = none))
  | .upsert _ => .isTrue trivial
  | .delete _ => inferInstanceAs (Decidable (_ = true ∧ _ = []))
  | .move _ _ => inferInstanceAs (Decidable (s.Live _ ∧ _ = true))
  | .moveNode _ _ => inferInstanceAs (Decidable (s.Live _ ∧ _ = true))
  | .setFilename _ _ => inferInstanceAs (Decidable (_ = true))
  | .filename _ => inferInstanceAs (Decidable (s.Live _))
  | .filepath _ _ => inferInstanceAs (Decidable (_ = true))
  | .isRoot _ => inferInstanceAs (Decidable (s.Live _))
  | .hasChildren _ => inferInstanceAs (Decidable (s.Live _))
  | .children _ => inferInstanceAs (Decidable (s.Live _))
  | .byName _ => .isTrue trivial
  | .byPath _ => inferInstanceAs (Decidable (_ ≤ 255))
  | .keys => .isTrue trivial

/-- Whether the calls are valid is decided by making them. -/
def decideAllValid : (s : Store) → (calls : List StoreCall) → Decidable (AllValid s calls)
  | _, [] => .isTrue trivial
  | s, call :: calls =>
    have : Decidable (∀ a s', call.run s = .ok (a, s') → AllValid s' calls) :=
      match call.run s with
      | .ok (_, s₁) =>
        have := decideAllValid s₁ calls
        decidable_of_iff (AllValid s₁ calls)
          ⟨fun hvalid _ _ hrun => (Prod.mk.inj (Except.ok.inj hrun)).2 ▸ hvalid,
            fun hall => hall _ _ rfl⟩
      | .error _ => .isTrue nofun
    inferInstanceAs (Decidable (_ ∧ _))

instance (s : Store) : DecidablePred (AllValid s) := decideAllValid s

/-- Valid calls return, on lists and in memory, and with the same answers. -/
theorem runs {s : Store} {c : StoreMemory} (h : s.Inv) (hc : Mirrors c s) {calls : List StoreCall}
    (hvalid : AllValid s calls) (hsmall : s.nextId + calls.countP allocates ≤ 2 ^ 30) :
    ∃ answers s' c', calls.mapM run s = .ok (answers, s') ∧
      calls.mapM runMem c = .ok (answers, c') ∧ s'.Inv ∧ Mirrors c' s' ∧ s'.nextId ≤ 2 ^ 30 := by
  induction calls generalizing s c with
  | nil => exact ⟨[], s, c, rfl, rfl, h, hc, hsmall⟩
  | cons call calls ih =>
    obtain ⟨hcall, hrest⟩ := hvalid
    obtain ⟨a, s₁, hrun, hs₁, hnext⟩ := step h hcall
    have hlimit : s₁.nextId + calls.countP allocates ≤ 2 ^ 30 := by
      refine (Nat.add_le_add_right hnext _).trans (Nat.le_trans (Nat.le_of_eq ?_) hsmall)
      rw [List.countP_cons, Nat.add_assoc, Nat.add_comm call.allocates.toNat]
      cases call.allocates <;> rfl
    obtain ⟨_, hgoes⟩ := call.follows s a s₁ hrun
    obtain ⟨a', c₁, hrunMem, ha, hc₁⟩ := hgoes ((Nat.le_add_right _ _).trans hlimit) c hc
    rw [ha] at hrunMem
    obtain ⟨answers, s', c', hruns, hrunsMem, hs', hc', hend⟩ :=
      ih hs₁ hc₁ (hrest _ _ hrun) hlimit
    refine ⟨a :: answers, s', c', ?_, ?_, hs', hc', hend⟩
    · rw [List.mapM_cons, bind_run_ok hrun, bind_run_ok hruns]
      rfl
    · rw [List.mapM_cons, bind_run_ok hrunMem, bind_run_ok hrunsMem]
      rfl

end StoreCall

/-! ## From the mount on -/

/-- Nothing has been allocated yet. -/
def Store.unallocated : Store := ⟨fun _ => none, 0, 0, Hashmap.new⟩

theorem mirrors_mount : Mirrors Mem.mount Store.unallocated.mount where
  nodes n := by
    change Option.Rel Shows (if n = 0 then _ else _) (if n = 0 then _ else _)
    split
    · exact .some ⟨rfl, rfl, rfl, rfl, [], rfl⟩
    · exact .none
  nextId := rfl
  fuseRoot := rfl
  entries := refines_new false
  bounded := bounded_new.mono (Nat.zero_le _)

/-- From the mount on, valid calls return in memory what they return on lists. So no index is out
    of bounds, no entry is read before it has been written, and no freed node is used. -/
theorem tree_runs_in_memory (calls : List StoreCall)
    (hvalid : StoreCall.AllValid Store.unallocated.mount calls)
    (hcreated : calls.countP StoreCall.allocates < 2 ^ 30) :
    ∃ answers s c, calls.mapM StoreCall.run Store.unallocated.mount = .ok (answers, s) ∧
      calls.mapM StoreCall.runMem Mem.mount = .ok (answers, c) ∧ s.Inv ∧ Mirrors c s := by
  obtain ⟨answers, s, c, hrun, hrunMem, hs, hc, _⟩ :=
    StoreCall.runs (sound_mount fun _ => rfl).toInv mirrors_mount hvalid
      (by rw [Nat.add_comm]; exact hcreated)
  exact ⟨answers, s, c, hrun, hrunMem, hs, hc⟩

/-- Two notes, the second one below the first one, and a third one that is deleted. -/
def sampleStoreCalls : List StoreCall :=
  [.create ⟨bytes "a", bytes "a.ics"⟩, .create ⟨bytes "a", bytes "b.ics"⟩,
    .upsert ⟨bytes "c", bytes "c.ics"⟩, .move 0 1, .move 1 2, .move 0 3, .keys, .moveNode 1 3,
    .byPath (bytes "/a/a"), .children 0, .delete 3, .byName (bytes "c.ics")]

theorem sampleStoreCalls_valid :
    StoreCall.AllValid Store.unallocated.mount sampleStoreCalls := by
  decide +kernel

theorem tree_runs_in_memory_sample :
    ∃ answers s c, sampleStoreCalls.mapM StoreCall.run Store.unallocated.mount =
        .ok (answers, s) ∧
      sampleStoreCalls.mapM StoreCall.runMem Mem.mount = .ok (answers, c) ∧ s.Inv ∧
      Mirrors c s :=
  tree_runs_in_memory sampleStoreCalls sampleStoreCalls_valid (by decide)

/-! ## The end of `main` -/

/-- The same nodes with this hash table. -/
def withEntries (h : Memory (BucketData NodeId) (HashmapData NodeId)) :
    Pairing StoreMemory StoreMemory :=
  ⟨fun c' c => c' = { c with entriesVdir := h }, fun _ => 0, 0⟩

/-- `free_tree` does not look at the hash table. -/
theorem freeTree_withEntries (h : Memory (BucketData NodeId) (HashmapData NodeId)) (fuel : Nat)
    (n : NodeId) : Follows (withEntries h) Eq (Mem.freeTree fuel n) (Mem.freeTree fuel n) := by
  have hderef : ∀ m, Follows (withEntries h) Eq (Mem.deref m) (Mem.deref m) := by
    intro m c t c' hrun
    refine ⟨Nat.le_refl _, ?_⟩
    obtain ⟨ht, hc⟩ := mem_deref_some hrun
    obtain rfl : c' = c := hc
    rintro _ _ rfl
    exact ⟨t, _, mem_deref_run ht, rfl, rfl⟩
  have hread : ∀ xs i, Follows (withEntries h) Eq (Mem.readArray xs i) (Mem.readArray xs i) := by
    intro xs i
    unfold Mem.readArray
    split
    · exact .throw
    · exact .throw
    · exact .pure rfl
  induction fuel generalizing n with
  | zero => exact .throw
  | succ fuel ih =>
    refine (hderef n).bind_eq fun t => (Follows.forM fun i => ?_).bind_eq fun _ =>
      (hderef n).bind_eq fun _ => ?_
    · exact (hderef n).bind_eq fun t => (hread _ i).bind_eq fun kid => ih kid
    · rintro c _ _ ⟨⟩
      refine ⟨Nat.le_refl _, ?_⟩
      rintro _ _ rfl
      exact ⟨_, _, rfl, rfl, rfl⟩

/-- At the end of `main` all buckets are freed, and the nodes below the root. -/
theorem tree_cleaned_up (calls : List StoreCall)
    (hvalid : StoreCall.AllValid Store.unallocated.mount calls)
    (hcreated : calls.countP StoreCall.allocates < 2 ^ 30) :
    ∃ answers s c c', calls.mapM StoreCall.run Store.unallocated.mount = .ok (answers, s) ∧
      calls.mapM StoreCall.runMem Mem.mount = .ok (answers, c) ∧ Mem.cleanUp c = .ok ((), c') ∧
      (∀ a, c'.entriesVdir.heap.cell a = none) ∧
      ∀ n, c'.nodes n = none ↔ c.nodes n = none ∨ s.links.Below s.fuseRoot n := by
  obtain ⟨answers, s, c, hrun, hrunMem, hs, hc, hsmall⟩ := StoreCall.runs
    (sound_mount fun _ => rfl).toInv mirrors_mount hvalid (by rw [Nat.add_comm]; exact hcreated)
  obtain ⟨m, hfree, hnone⟩ : ∃ m, hashmapFree c.entriesVdir = .ok ((), m) ∧
      ∀ a, m.heap.cell a = none := by
    obtain ⟨t, hholds, _⟩ := hc.entries
    obtain ⟨h', hfree, hnone⟩ := hashmapFree_run hholds
    exact ⟨_, hfree, hnone⟩
  obtain ⟨ms, hfreed, hms⟩ := freeTree_below (s.nextId + 1) hs .refl (Nat.le_succ _)
  obtain ⟨_, hgoes⟩ := follows_freeTree (s.nextId + 1) s.fuseRoot s () _ hfreed
  obtain ⟨_, c₁, hfreedMem, _, hc₁⟩ := hgoes hsmall c hc
  -- The hash table is gone by then, which `free_tree` does not notice.
  rw [← hc.nextId, ← hc.fuseRoot] at hfreedMem
  obtain ⟨_, hsame⟩ := freeTree_withEntries m _ _ c _ c₁ hfreedMem
  obtain ⟨_, c', hrunFree, _, rfl⟩ := hsame (Nat.le_refl _) _ rfl
  refine ⟨answers, s, c, { c₁ with entriesVdir := m }, hrun, hrunMem, ?_, hnone, fun n => ?_⟩
  · unfold Mem.cleanUp
    rw [bind_run_ok (onEntries_run hfree), bind_run_ok (get_run _)]
    exact hrunFree
  · change c₁.nodes n = none ↔ _
    rw [hc₁.none_iff, hc.none_iff, ← hms n]
    change (if n ∈ ms then none else s.heap n) = none ↔ _
    by_cases hn : n ∈ ms <;> simp [hn]

theorem tree_cleaned_up_sample :
    ∃ answers s c c', sampleStoreCalls.mapM StoreCall.run Store.unallocated.mount =
        .ok (answers, s) ∧
      sampleStoreCalls.mapM StoreCall.runMem Mem.mount = .ok (answers, c) ∧
      Mem.cleanUp c = .ok ((), c') ∧ (∀ a, c'.entriesVdir.heap.cell a = none) ∧
      ∀ n, c'.nodes n = none ↔ c.nodes n = none ∨ s.links.Below s.fuseRoot n :=
  tree_cleaned_up sampleStoreCalls sampleStoreCalls_valid (by decide)

end Agendafs
