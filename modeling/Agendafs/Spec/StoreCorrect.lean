import Agendafs.Spec.PathCorrect
import Agendafs.Spec.StoreInvariant
import Mathlib.Data.List.Perm.Subperm
import Mathlib.Data.Nat.Find

/-!
# The tree functions compute the edits

Each function of `tree.c` and `fuse_node_store.c`, run on a store that keeps its
invariant, returns and leaves the store that the edits of `StoreInvariant` give.
In particular the renumbering loop of `add_fuse_child` ends: `freshName` is the
first of its candidates that no sibling has.

## Key results

- `moveFuseNode_run`, `addFuseChild_run`: attaching under a unique name
- `createFuseNode_run`, `deleteFuseNode_run`, `upsertFuseNode_run`
- `freshName_not_mem`: the name found by the loop is free
-/

namespace Agendafs

open Store

variable {s : Store}

/-! ## Reading nodes -/

theorem exists_heap {n : NodeId} (h : s.Live n) : ∃ t, s.heap n = some t :=
  Option.isSome_iff_exists.1 h

theorem deref_run {n : NodeId} {t : TreeNode} (h : s.heap n = some t) :
    deref n s = .ok (t, s) := by
  unfold deref
  rw [Prog.bind_run_ok (Prog.get_run s)]
  rw [h]
  rfl

theorem links_parent_eq {n : NodeId} {t : TreeNode} (h : s.heap n = some t) :
    s.links.parent n = t.parent := by
  change (s.heap n).elim none (·.parent) = _
  rw [h]
  rfl

theorem links_children_eq {n : NodeId} {t : TreeNode} (h : s.heap n = some t) :
    s.links.children n = t.children := by
  change (s.heap n).elim [] (·.children) = _
  rw [h]
  rfl

theorem entry_eq {n : NodeId} {t : TreeNode} (h : s.heap n = some t) : s.entry n = t.data := by
  unfold Store.entry
  rw [h]
  rfl

theorem nonNull_run {α : Type} (a : α) : nonNull (some a) s = .ok (a, s) := rfl

theorem writeNode_run {n : NodeId} (h : s.Live n) (f : TreeNode → TreeNode) :
    writeNode n f s = .ok ((), s.modifyNode n f) := by
  obtain ⟨t, ht⟩ := exists_heap h
  unfold writeNode
  rw [Prog.bind_run_ok (deref_run ht)]
  rfl

theorem nodeHasChildren_run {n : NodeId} (h : s.Live n) :
    nodeHasChildren n s = .ok (decide (s.links.children n ≠ []), s) := by
  obtain ⟨t, ht⟩ := exists_heap h
  unfold nodeHasChildren
  rw [Prog.bind_run_ok (deref_run ht), links_children_eq ht]
  rfl

theorem isRootNode_run {n : NodeId} (h : s.Live n) :
    isRootNode n s = .ok ((s.entry n).isNone, s) := by
  obtain ⟨t, ht⟩ := exists_heap h
  unfold isRootNode
  rw [Prog.bind_run_ok (deref_run ht), entry_eq ht]
  rfl

theorem getNodeFilename_run {n : NodeId} (h : s.Live n) :
    getNodeFilename n s = .ok (s.name n, s) := by
  obtain ⟨t, ht⟩ := exists_heap h
  unfold getNodeFilename Store.name
  rw [Prog.bind_run_ok (deref_run ht), entry_eq ht]
  cases t.data <;> rfl

theorem getVdirFilepath_run {n : NodeId} {e : AgendaEntry} (he : s.entry n = some e)
    (vdir : CStr) : getVdirFilepath vdir n s = .ok (appendPath vdir e.filenameVdir, s) := by
  obtain ⟨t, ht⟩ := exists_heap (live_of_entry he)
  unfold getVdirFilepath
  rw [Prog.bind_run_ok (deref_run ht)]
  rw [entry_eq ht] at he
  rw [he]
  rfl

/-! ## tree.c -/

theorem createTreeNode_run (data : Option AgendaEntry) :
    createTreeNode data s = .ok (s.nextId,
      { s with
        heap := fun n => if n = s.nextId then some ⟨data, none, []⟩ else s.heap n
        nextId := s.nextId + 1 }) := rfl

theorem addChild_run {p c : NodeId} (hp : s.Live p) (hc : s.Live c) :
    addChild p c s = .ok (0, s.attach p c) := by
  unfold addChild
  rw [Prog.bind_run_ok (writeNode_run hp _),
    Prog.bind_run_ok (writeNode_run (by rw [modifyNode_live]; exact hc) _)]
  rfl

/-- `detach_tree_node` finds the node among the children of its parent. -/
theorem detachTreeNode_run (h : s.links.WF) {n : NodeId} (hn : s.Live n) :
    detachTreeNode n s = .ok ((s.links.parent n).isSome, s.detach n) := by
  obtain ⟨t, ht⟩ := exists_heap hn
  unfold detachTreeNode Store.detach
  rw [Prog.bind_run_ok (deref_run ht), links_parent_eq ht]
  cases hp : t.parent with
  | none => rfl
  | some p =>
    have hpar : s.links.parent n = some p := (links_parent_eq ht).trans hp
    have hmem := h.mem_children.2 hpar
    have hlive := live_of_mem_children hmem
    obtain ⟨tp, htp⟩ := exists_heap hlive
    rw [links_children_eq htp] at hmem
    simp only
    -- The parent lists the node, so the branch of `(size_t)-1` is not taken.
    rw [Prog.bind_run_ok (deref_run htp), if_pos hmem, Prog.bind_run_ok (writeNode_run hlive _),
      Prog.bind_run_ok (writeNode_run (by rw [modifyNode_live]; exact hn) _)]
    rfl

theorem moveNode_run (h : s.links.WF) {p c : NodeId} (hp : s.Live p) (hc : s.Live c) :
    moveNode p c s = .ok (0, (s.detach c).attach p c) := by
  unfold moveNode
  rw [Prog.bind_run_ok (detachTreeNode_run h hc)]
  exact addChild_run (by rw [detach_live]; exact hp) (by rw [detach_live]; exact hc)

/-- Freeing a node without children frees just that node. -/
theorem freeTree_run {n : NodeId} (hn : s.Live n) (hc : s.links.children n = []) (fuel : Nat) :
    freeTree (fuel + 1) n s = .ok ((), s.free n) := by
  obtain ⟨t, ht⟩ := exists_heap hn
  rw [links_children_eq ht] at hc
  unfold freeTree
  rw [Prog.bind_run_ok (deref_run ht), hc]
  rfl

/-! ## Names -/

theorem setNodeFilename_run {n : NodeId} {e : AgendaEntry} (he : s.entry n = some e)
    (x : CStr) : setNodeFilename n x s = .ok ((), s.rename n x) := by
  obtain ⟨t, ht⟩ := exists_heap (live_of_entry he)
  have hd : t.data = some e := (entry_eq ht).symm.trans he
  unfold setNodeFilename
  rw [Prog.bind_run_ok (deref_run ht), hd, Prog.bind_run_ok (nonNull_run e),
    writeNode_run (live_of_entry he)]
  -- The written entry is the old one with the new name.
  congr 2
  unfold Store.rename Store.modifyNode
  congr 1
  funext m
  split
  · rename_i hm
    rw [hm, ht, Option.map_some, Option.map_some, hd]
    rfl
  · rfl

theorem isUnique_run (x : CStr) {siblings : List NodeId} (h : ∀ n ∈ siblings, s.Live n) :
    isUnique x siblings s = .ok (decide (x ∉ siblings.map s.name), s) := by
  induction siblings with
  | nil => rfl
  | cons n siblings ih =>
    unfold isUnique
    rw [Prog.bind_run_ok (getNodeFilename_run (h n List.mem_cons_self))]
    split
    · rename_i hx
      simp [hx]
    · rename_i hx
      rw [ih fun m hm => h m (List.mem_cons_of_mem _ hm)]
      simp [hx]

/-- The candidates of the renumbering loop, in order. -/
def numbered (filename : CStr) : Nat → CStr
  | 0 => filename
  | k + 1 => filenameNumbered filename (k + 1)

theorem numbered_injective (filename : CStr) : Function.Injective (numbered filename) := by
  intro m n h
  cases m with
  | zero =>
    cases n with
    | zero => rfl
    | succ n => exact absurd h.symm (filenameNumbered_ne filename _)
  | succ m =>
    cases n with
    | zero => exact absurd h (filenameNumbered_ne filename _)
    | succ n => exact filenameNumbered_injective filename h

/-- Among one candidate more than there are names, one is free. -/
theorem exists_fresh (filename : CStr) (names : List CStr) :
    ∃ k, k ≤ names.length ∧ numbered filename k ∉ names := by
  by_contra hall
  have hsub : (List.range (names.length + 1)).map (numbered filename) ⊆ names := by
    intro x hx
    obtain ⟨k, hk, rfl⟩ := List.mem_map.1 hx
    by_contra hnot
    exact hall ⟨k, Nat.lt_succ_iff.1 (List.mem_range.1 hk), hnot⟩
  have hlen := ((List.nodup_range.map (numbered_injective filename)).subperm hsub).length_le
  rw [List.length_map, List.length_range] at hlen
  exact Nat.not_succ_le_self _ hlen

/-- The number of the first free candidate. -/
def freshIndex (filename : CStr) (names : List CStr) : Nat :=
  Nat.find (p := fun k => numbered filename k ∉ names)
    ((exists_fresh filename names).imp fun _ h => h.2)

/-- The name `add_fuse_child` gives a node called `filename` among these siblings. -/
def freshName (filename : CStr) (names : List CStr) : CStr :=
  numbered filename (freshIndex filename names)

/-- The name found by the loop is free. -/
theorem freshName_not_mem (filename : CStr) (names : List CStr) :
    freshName filename names ∉ names :=
  Nat.find_spec (p := fun k => numbered filename k ∉ names) _

theorem freshIndex_le (filename : CStr) (names : List CStr) :
    freshIndex filename names ≤ names.length := by
  obtain ⟨k, hk, hfree⟩ := exists_fresh filename names
  exact (Nat.find_min' _ hfree).trans hk

/-- Candidates before the one found are taken. -/
theorem mem_of_lt_freshIndex {filename : CStr} {names : List CStr} {k : Nat}
    (h : k < freshIndex filename names) : numbered filename k ∈ names := by
  by_contra hnot
  exact Nat.find_min _ h hnot

/-- The first free name is the one whose lower numbers are all taken. -/
theorem freshName_eq_iff {filename x : CStr} {names : List CStr} :
    freshName filename names = x ↔ ∃ i, x = numbered filename i ∧ x ∉ names ∧
      ∀ j < i, numbered filename j ∈ names := by
  constructor
  · rintro rfl
    exact ⟨_, rfl, freshName_not_mem filename names, fun j => mem_of_lt_freshIndex⟩
  · rintro ⟨i, rfl, hfree, htaken⟩
    have hi : freshIndex filename names = i :=
      (Nat.find_eq_iff _).2 ⟨hfree, fun j hj => not_not.2 (htaken j hj)⟩
    rw [freshName, hi]

/-- From the `k`-th candidate on, enough rounds find the first free one. -/
theorem uniqueFilename_run {filename : CStr} {siblings : List NodeId}
    (h : ∀ n ∈ siblings, s.Live n) (rounds k : Nat)
    (hk : k ≤ freshIndex filename (siblings.map s.name))
    (hrounds : freshIndex filename (siblings.map s.name) < k + rounds) :
    uniqueFilename filename siblings rounds (numbered filename k) (k + 1) s =
      .ok (freshName filename (siblings.map s.name), s) := by
  -- Round `k` tries the name with number `k`; the names before `freshIndex` are all taken.
  induction rounds generalizing k with
  | zero => omega
  | succ rounds ih =>
    unfold uniqueFilename
    rw [Prog.bind_run_ok (isUnique_run _ h)]
    rcases Nat.lt_or_eq_of_le hk with hlt | rfl
    · rw [if_neg (by simpa using mem_of_lt_freshIndex hlt)]
      exact ih (k + 1) hlt (by omega)
    · have hfree : numbered filename (freshIndex filename (siblings.map s.name)) ∉ _ :=
        freshName_not_mem filename (siblings.map s.name)
      rw [if_pos (decide_eq_true hfree)]
      rfl

/-! ## fuse_node_store.c -/

/-- The names of the children of a node. -/
def Store.childNames (s : Store) (p : NodeId) : List CStr := (s.links.children p).map s.name

/-- `add_fuse_child` gives the node a free name and hangs it behind the children, where these
    can be read. -/
theorem addFuseChild_run_of_live {p c : NodeId} {e : AgendaEntry} (hp : s.Live p)
    (hsiblings : ∀ n ∈ s.links.children p, s.Live n) (he : s.entry c = some e) :
    addFuseChild (some p) c s =
      .ok (0, (s.rename c (freshName e.filename (s.childNames p))).attach p c) := by
  have hc := live_of_entry he
  obtain ⟨t, ht⟩ := exists_heap hp
  have hlive : ∀ n ∈ t.children, s.Live n := by
    rw [← links_children_eq ht]
    exact hsiblings
  -- As many rounds as there are siblings, and one more, are enough.
  have hunique : uniqueFilename e.filename t.children (t.children.length + 1) e.filename 1 s = _ :=
    uniqueFilename_run hlive (t.children.length + 1) 0 (Nat.zero_le _) (by
      have := freshIndex_le e.filename (t.children.map s.name)
      rw [List.length_map] at this
      omega)
  unfold addFuseChild
  rw [Prog.bind_run_ok (getNodeFilename_run hc), Prog.bind_run_ok (nonNull_run p),
    Prog.bind_run_ok (deref_run ht), name_of_entry he, Prog.bind_run_ok hunique,
    Prog.bind_run_ok (setNodeFilename_run he _), ← links_children_eq ht]
  exact addChild_run (by rw [rename_live]; exact hp) (by rw [rename_live]; exact hc)

theorem addFuseChild_run (h : s.Inv) {p c : NodeId} {e : AgendaEntry} (hp : s.Live p)
    (he : s.entry c = some e) :
    addFuseChild (some p) c s =
      .ok (0, (s.rename c (freshName e.filename (s.childNames p))).attach p c) :=
  addFuseChild_run_of_live hp (fun _ hn => h.live_child hn) he

/-- `move_fuse_node` to a node that is there. -/
theorem moveFuseNode_run (h : s.Inv) {p c : NodeId} {e : AgendaEntry} (hp : s.Live p)
    (he : s.entry c = some e) :
    moveFuseNode (some p) c s =
      .ok (0, ((s.detach c).rename c
        (freshName e.filename ((s.detach c).childNames p))).attach p c) := by
  unfold moveFuseNode
  rw [Prog.bind_run_ok (detachTreeNode_run h.wf (live_of_entry he))]
  exact addFuseChild_run (h.detach c) (by rw [detach_live]; exact hp)
    (by rw [detach_entry]; exact he)

/-- `move_fuse_node` to NULL. -/
theorem moveFuseNode_none (h : s.Inv) {c : NodeId} (hc : s.Live c) :
    moveFuseNode none c s = .error .nullDereference := by
  have hc' : (s.detach c).Live c := by rw [detach_live]; exact hc
  unfold moveFuseNode
  rw [Prog.bind_run_ok (detachTreeNode_run h.wf hc)]
  unfold addFuseChild
  rw [Prog.bind_run_ok (getNodeFilename_run hc')]
  rfl

theorem createFuseNode_run (e : AgendaEntry) :
    createFuseNode e s = .ok (s.nextId, s.create e) := rfl

theorem getFuseNodeFromVdirName_run (k : CStr) :
    getFuseNodeFromVdirName k s = .ok (s.entriesVdir.get k, s) := rfl

theorem getFuseNodeFromVdirName_found {k : CStr} {n : NodeId} (hn : s.entriesVdir.get k = some n) :
    (do nonNull (← getFuseNodeFromVdirName k) : StoreM NodeId) s = .ok (n, s) := by
  rw [Prog.bind_run_ok (getFuseNodeFromVdirName_run k), hn]
  rfl

/-- `delete_fuse_node` of a node without children. -/
theorem deleteFuseNode_run (h : s.Inv) {n : NodeId} {e : AgendaEntry} (he : s.entry n = some e)
    (hc : s.links.children n = []) :
    deleteFuseNode n s = .ok ((), s.delete n e.filenameVdir) := by
  have hn := live_of_entry he
  obtain ⟨t, ht⟩ := exists_heap hn
  have hd : t.data = some e := (entry_eq ht).symm.trans he
  have hdetach : detachTreeNode n (s.unindex e.filenameVdir) = _ :=
    detachTreeNode_run (s := s.unindex e.filenameVdir) h.wf hn
  -- Without children `free_tree` frees the node only.
  have hchildren : ((s.unindex e.filenameVdir).detach n).links.children n = [] := by
    rw [links_detach (s := s.unindex e.filenameVdir) h.wf, unindex_links, h.wf.detach_children, hc]
    rfl
  unfold deleteFuseNode
  rw [Prog.bind_run_ok (deref_run ht), hd, Prog.bind_run_ok (nonNull_run e),
    Prog.bind_run_ok (Prog.modify_run _ s)]
  change (detachTreeNode n >>= fun _ => _) (s.unindex e.filenameVdir) = _
  rw [Prog.bind_run_ok hdetach, Prog.bind_run_ok (Prog.get_run _)]
  exact freeTree_run (by rw [detach_live]; exact hn) hchildren _

/-- `upsert_fuse_node` of a note that is indexed. -/
theorem upsertFuseNode_run_some (h : s.Inv) {n : NodeId} {e : AgendaEntry}
    (hn : s.entriesVdir.get e.filenameVdir = some n) :
    upsertFuseNode e s = .ok (n, s.rename n e.filename) := by
  obtain ⟨e', he', _⟩ := (h.index _ _).1 hn
  unfold upsertFuseNode
  rw [Prog.bind_run_ok (Prog.get_run s), hn]
  simp only
  rw [Prog.bind_run_ok (setNodeFilename_run he' _)]
  rfl

/-- `upsert_fuse_node` of a note that is not indexed. -/
theorem upsertFuseNode_run_none {e : AgendaEntry}
    (hn : s.entriesVdir.get e.filenameVdir = none) :
    upsertFuseNode e s = .ok (s.nextId, s.create e) := by
  unfold upsertFuseNode
  rw [Prog.bind_run_ok (Prog.get_run s), hn]
  exact createFuseNode_run e

end Agendafs
