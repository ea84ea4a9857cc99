import Agendafs.ForStd.Forest
import Agendafs.Native.FuseNodeStore

/-!
# The invariant of the node tree

`Store.links` is the forest the nodes form, `Store.Inv` the invariant of tree and
index, and `Store.detach`, `Store.attach`, `Store.rename`, `Store.create` and
`Store.delete` are the edits the program makes, as functions. Each keeps the
invariant; `Agendafs.Spec.StoreCorrect` shows that the code computes them.
-/

namespace Agendafs.Store

/-! ## What the store says about a node -/

/-- The forest of the nodes that are allocated. -/
def links (s : Store) : Links NodeId where
  parent n := (s.heap n).elim none (·.parent)
  children n := (s.heap n).elim [] (·.children)

/-- The entry of a node; the root has none. -/
def entry (s : Store) (n : NodeId) : Option AgendaEntry := (s.heap n).elim none (·.data)

/-- The name a node is shown under; the root has the empty name. -/
def name (s : Store) (n : NodeId) : CStr := (s.entry n).elim [] (·.filename)

/-- The node has been allocated and not freed. -/
def Live (s : Store) (n : NodeId) : Prop := (s.heap n).isSome

instance (s : Store) (n : NodeId) : Decidable (s.Live n) := inferInstanceAs (Decidable (_ = true))

theorem name_of_entry {s : Store} {n : NodeId} {e : AgendaEntry} (h : s.entry n = some e) :
    s.name n = e.filename := by
  rw [name, h]
  rfl

theorem live_of_entry {s : Store} {n : NodeId} {e : AgendaEntry} (h : s.entry n = some e) :
    s.Live n := by
  unfold entry at h
  unfold Live
  cases hn : s.heap n with
  | none => rw [hn] at h; exact nomatch h
  | some t => rfl

theorem live_of_parent {s : Store} {n p : NodeId} (h : s.links.parent n = some p) : s.Live n := by
  unfold links at h
  unfold Live
  cases hn : s.heap n with
  | none => simp [hn] at h
  | some t => rfl

theorem live_of_mem_children {s : Store} {n p : NodeId} (h : n ∈ s.links.children p) :
    s.Live p := by
  unfold links at h
  unfold Live
  cases hn : s.heap p with
  | none => simp [hn] at h
  | some t => rfl

/-! ## The edits -/

/-- Take a node away from its parent. -/
def detach (s : Store) (n : NodeId) : Store :=
  match s.links.parent n with
  | none => s
  | some p =>
    (s.modifyNode p fun t => { t with children := t.children.erase n }).modifyNode n fun t =>
      { t with parent := none }

/-- Hang a node behind the children of another. -/
def attach (s : Store) (p c : NodeId) : Store :=
  (s.modifyNode p fun t => { t with children := t.children ++ [c] }).modifyNode c fun t =>
    { t with parent := some p }

/-- Give a node another name. -/
def rename (s : Store) (n : NodeId) (filename : CStr) : Store :=
  s.modifyNode n fun t => { t with data := t.data.map ({ · with filename := filename }) }

/-- Allocate a node for an entry and index it. -/
def create (s : Store) (e : AgendaEntry) : Store where
  heap n := if n = s.nextId then some ⟨some e, none, []⟩ else s.heap n
  nextId := s.nextId + 1
  fuseRoot := s.fuseRoot
  entriesVdir := s.entriesVdir.insert e.filenameVdir s.nextId

/-- The store without the memory of a node. -/
def free (s : Store) (n : NodeId) : Store :=
  { s with heap := fun m => if m = n then none else s.heap m }

/-- The store without an index entry. -/
def unindex (s : Store) (filenameVdir : CStr) : Store :=
  { s with entriesVdir := s.entriesVdir.remove filenameVdir }

/-- Unindex, detach and free a node. -/
def delete (s : Store) (n : NodeId) (filenameVdir : CStr) : Store :=
  ((s.unindex filenameVdir).detach n).free n

/-! ## One field of one node -/

section ModifyNode

variable {s : Store} {n : NodeId} {f : TreeNode → TreeNode}

@[simp] theorem modifyNode_nextId : (s.modifyNode n f).nextId = s.nextId := rfl

@[simp] theorem modifyNode_fuseRoot : (s.modifyNode n f).fuseRoot = s.fuseRoot := rfl

@[simp] theorem modifyNode_entriesVdir : (s.modifyNode n f).entriesVdir = s.entriesVdir := rfl

theorem modifyNode_heap (m : NodeId) :
    (s.modifyNode n f).heap m = if m = n then (s.heap m).map f else s.heap m := by
  by_cases h : m = n
  · subst h; rfl
  · simp [modifyNode, h]

@[simp] theorem modifyNode_live (m : NodeId) : (s.modifyNode n f).Live m ↔ s.Live m := by
  unfold Live
  rw [modifyNode_heap]
  split <;> simp

/-- An edit that leaves a field alone leaves it alone everywhere. -/
private theorem modifyNode_field {β : Type} (d : β) (g : TreeNode → β) (hg : ∀ t, g (f t) = g t)
    (m : NodeId) : ((s.modifyNode n f).heap m).elim d g = (s.heap m).elim d g := by
  rw [modifyNode_heap]
  split
  · cases s.heap m with
    | none => rfl
    | some t => exact hg t
  · rfl

theorem modifyNode_entry (hf : ∀ t, (f t).data = t.data) (m : NodeId) :
    (s.modifyNode n f).entry m = s.entry m := modifyNode_field none (·.data) hf m

theorem modifyNode_parent (hf : ∀ t, (f t).parent = t.parent) :
    (s.modifyNode n f).links.parent = s.links.parent :=
  funext (modifyNode_field none (·.parent) hf)

theorem modifyNode_children (hf : ∀ t, (f t).children = t.children) :
    (s.modifyNode n f).links.children = s.links.children :=
  funext (modifyNode_field [] (·.children) hf)

end ModifyNode

/-! ## The edits on the forest -/

theorem links_setChildren {s : Store} {p : NodeId} (hp : s.Live p)
    (g : List NodeId → List NodeId) :
    (s.modifyNode p fun t => { t with children := g t.children }).links =
      { parent := s.links.parent
        children := Function.update s.links.children p (g (s.links.children p)) } := by
  rw [Links.mk.injEq]
  refine ⟨modifyNode_parent fun _ => rfl, ?_⟩
  funext m
  unfold Live at hp
  by_cases hm : m = p
  · subst hm
    rw [Function.update_self]
    cases h : s.heap m with
    | none => simp [h] at hp
    | some t => simp [links, modifyNode_heap, h]
  · rw [Function.update_of_ne hm]
    simp [links, modifyNode_heap, hm]

theorem links_setParent {s : Store} {n : NodeId} (hn : s.Live n) (q : Option NodeId) :
    (s.modifyNode n fun t => { t with parent := q }).links =
      { parent := Function.update s.links.parent n q, children := s.links.children } := by
  rw [Links.mk.injEq]
  refine ⟨?_, modifyNode_children fun _ => rfl⟩
  funext m
  unfold Live at hn
  by_cases hm : m = n
  · subst hm
    rw [Function.update_self]
    cases h : s.heap m with
    | none => simp [h] at hn
    | some t => simp [links, modifyNode_heap, h]
  · rw [Function.update_of_ne hm]
    simp [links, modifyNode_heap, hm]

/-- Detaching in the store is detaching in its forest. -/
theorem links_detach {s : Store} (h : s.links.WF) (n : NodeId) :
    (s.detach n).links = s.links.detach n := by
  unfold detach Links.detach
  cases hp : s.links.parent n with
  | none => rfl
  | some p =>
    have hlive : s.Live p := live_of_mem_children (h.mem_children.2 hp)
    simp only
    rw [links_setParent (by rw [modifyNode_live]; exact live_of_parent hp),
      links_setChildren hlive (·.erase n)]

/-- Attaching in the store is attaching in its forest. -/
theorem links_attach {s : Store} {p c : NodeId} (hp : s.Live p) (hc : s.Live c) :
    (s.attach p c).links = s.links.attach p c := by
  unfold attach Links.attach
  rw [links_setParent (by rw [modifyNode_live]; exact hc), links_setChildren hp (· ++ [c])]

@[simp] theorem links_rename (s : Store) (n : NodeId) (x : CStr) :
    (s.rename n x).links = s.links :=
  Links.ext (modifyNode_parent fun _ => rfl) (modifyNode_children fun _ => rfl)

/-! ## The edits on entries, names and index -/

@[simp] theorem detach_entry (s : Store) (n m : NodeId) : (s.detach n).entry m = s.entry m := by
  unfold detach
  split
  · rfl
  · rw [modifyNode_entry, modifyNode_entry] <;> exact fun _ => rfl

@[simp] theorem attach_entry (s : Store) (p c m : NodeId) :
    (s.attach p c).entry m = s.entry m := by
  unfold attach
  rw [modifyNode_entry, modifyNode_entry] <;> exact fun _ => rfl

theorem rename_entry (s : Store) (n : NodeId) (x : CStr) (m : NodeId) :
    (s.rename n x).entry m =
      if m = n then (s.entry m).map ({ · with filename := x }) else s.entry m := by
  unfold rename entry
  rw [modifyNode_heap]
  split
  · cases s.heap m <;> rfl
  · rfl

@[simp] theorem detach_name (s : Store) (n : NodeId) : (s.detach n).name = s.name := by
  funext m
  rw [name, name, detach_entry]

@[simp] theorem attach_name (s : Store) (p c : NodeId) : (s.attach p c).name = s.name := by
  funext m
  rw [name, name, attach_entry]

theorem rename_name {s : Store} {n : NodeId} {e : AgendaEntry} (he : s.entry n = some e)
    (x : CStr) : (s.rename n x).name = Function.update s.name n x := by
  funext m
  rw [name, rename_entry]
  by_cases hm : m = n
  · subst hm
    rw [Function.update_self, if_pos rfl, he]
    rfl
  · rw [Function.update_of_ne hm, if_neg hm]
    rfl

@[simp] theorem detach_live (s : Store) (n m : NodeId) : (s.detach n).Live m ↔ s.Live m := by
  unfold detach
  split
  · rfl
  · rw [modifyNode_live, modifyNode_live]

@[simp] theorem attach_live (s : Store) (p c m : NodeId) : (s.attach p c).Live m ↔ s.Live m := by
  unfold attach
  rw [modifyNode_live, modifyNode_live]

@[simp] theorem rename_live (s : Store) (n : NodeId) (x : CStr) (m : NodeId) :
    (s.rename n x).Live m ↔ s.Live m := modifyNode_live m

@[simp] theorem detach_entriesVdir (s : Store) (n : NodeId) :
    (s.detach n).entriesVdir = s.entriesVdir := by
  unfold detach
  split <;> rfl

@[simp] theorem attach_entriesVdir (s : Store) (p c : NodeId) :
    (s.attach p c).entriesVdir = s.entriesVdir := rfl

@[simp] theorem rename_entriesVdir (s : Store) (n : NodeId) (x : CStr) :
    (s.rename n x).entriesVdir = s.entriesVdir := rfl

@[simp] theorem detach_fuseRoot (s : Store) (n : NodeId) : (s.detach n).fuseRoot = s.fuseRoot := by
  unfold detach
  split <;> rfl

@[simp] theorem attach_fuseRoot (s : Store) (p c : NodeId) :
    (s.attach p c).fuseRoot = s.fuseRoot := rfl

@[simp] theorem rename_fuseRoot (s : Store) (n : NodeId) (x : CStr) :
    (s.rename n x).fuseRoot = s.fuseRoot := rfl

@[simp] theorem detach_nextId (s : Store) (n : NodeId) : (s.detach n).nextId = s.nextId := by
  unfold detach
  split <;> rfl

@[simp] theorem attach_nextId (s : Store) (p c : NodeId) : (s.attach p c).nextId = s.nextId := rfl

theorem unindex_links (s : Store) (k : CStr) : (s.unindex k).links = s.links := rfl

theorem create_entry (s : Store) (e : AgendaEntry) (m : NodeId) :
    (s.create e).entry m = if m = s.nextId then some e else s.entry m := by
  unfold create entry
  by_cases hm : m = s.nextId <;> simp [hm]

theorem create_live (s : Store) (e : AgendaEntry) (m : NodeId) :
    (s.create e).Live m ↔ m = s.nextId ∨ s.Live m := by
  unfold create Live
  by_cases hm : m = s.nextId <;> simp [hm]

/-! ## The invariant -/

/-- The invariant of tree and index. -/
structure Inv (s : Store) : Prop where
  /-- Parent pointers and child lists agree. -/
  wf : s.links.WF
  root_live : s.Live s.fuseRoot
  root_entry : s.entry s.fuseRoot = none
  root_parent : s.links.parent s.fuseRoot = none
  /-- Every node but the root stands for a note. -/
  entry_of_live : ∀ n, s.Live n → n ≠ s.fuseRoot → ∃ e, s.entry n = some e
  /-- The index lists exactly the notes, by their file. -/
  index : ∀ k n, s.entriesVdir.get k = some n ↔ ∃ e, s.entry n = some e ∧ e.filenameVdir = k
  /-- Allocation numbers are not used twice. -/
  lt_nextId : ∀ n, s.Live n → n < s.nextId

namespace Inv

variable {s : Store}

theorem ne_root (h : s.Inv) {n : NodeId} {e : AgendaEntry} (he : s.entry n = some e) :
    n ≠ s.fuseRoot := by
  rintro rfl
  rw [h.root_entry] at he
  exact nomatch he

theorem live_child (h : s.Inv) {p c : NodeId} (hc : c ∈ s.links.children p) : s.Live c :=
  live_of_parent (h.wf.mem_children.1 hc)

theorem live_parent (h : s.Inv) {n p : NodeId} (hp : s.links.parent n = some p) : s.Live p :=
  live_of_mem_children (h.wf.mem_children.2 hp)

theorem live_of_below (h : s.Inv) {n : NodeId} (hn : s.links.Below s.fuseRoot n) : s.Live n := by
  cases hn with
  | refl => exact h.root_live
  | step hp _ => exact live_of_parent hp

/-- A child is not the root. -/
theorem child_ne_root (h : s.Inv) {n p : NodeId} (hp : s.links.parent n = some p) :
    n ≠ s.fuseRoot := by
  rintro rfl
  rw [h.root_parent] at hp
  exact nomatch hp

/-- An indexed node is live. -/
theorem live_of_index (h : s.Inv) {k : CStr} {n : NodeId} (hk : s.entriesVdir.get k = some n) :
    s.Live n := by
  obtain ⟨e, he, _⟩ := (h.index k n).1 hk
  exact live_of_entry he

/-- Different names are indexed with different nodes. -/
theorem index_ne (h : s.Inv) {k k' : CStr} {n m : NodeId} (hne : k' ≠ k)
    (hn : s.entriesVdir.get k = some n) (hm : s.entriesVdir.get k' = some m) : m ≠ n := by
  rintro rfl
  obtain ⟨e, he, hk⟩ := (h.index k m).1 hn
  obtain ⟨e', he', hk'⟩ := (h.index k' m).1 hm
  cases he.symm.trans he'
  exact hne (hk'.symm.trans hk)

/-- A store that differs in its links only keeps the invariant if these are well-formed and
    the root has no parent. -/
theorem of_links (h : s.Inv) {s' : Store} (hwf : s'.links.WF)
    (hparent : s'.links.parent s'.fuseRoot = none) (hroot : s'.fuseRoot = s.fuseRoot)
    (hentry : ∀ m, s'.entry m = s.entry m) (hlive : ∀ m, s'.Live m ↔ s.Live m)
    (hindex : s'.entriesVdir = s.entriesVdir) (hnext : s'.nextId = s.nextId) : s'.Inv where
  wf := hwf
  root_live := by rw [hroot, hlive]; exact h.root_live
  root_entry := by rw [hroot, hentry]; exact h.root_entry
  root_parent := hparent
  entry_of_live m hm hr := by
    rw [hlive] at hm
    rw [hroot] at hr
    rw [hentry]
    exact h.entry_of_live m hm hr
  index k m := by
    rw [hindex, hentry]
    exact h.index k m
  lt_nextId m hm := by
    rw [hlive] at hm
    rw [hnext]
    exact h.lt_nextId m hm

theorem detach (h : s.Inv) (n : NodeId) : (s.detach n).Inv := by
  refine h.of_links ?_ ?_ (detach_fuseRoot s n) (detach_entry s n) (detach_live s n)
    (detach_entriesVdir s n) (detach_nextId s n)
  · rw [links_detach h.wf]
    exact h.wf.detach n
  · rw [links_detach h.wf, detach_fuseRoot, Links.detach_parent]
    by_cases hn : s.fuseRoot = n
    · rw [hn, Function.update_self]
    · rw [Function.update_of_ne hn]
      exact h.root_parent

theorem attach (h : s.Inv) {p c : NodeId} (hp : s.Live p) (hc : s.Live c)
    (hparent : s.links.parent c = none) (hroot : c ≠ s.fuseRoot) : (s.attach p c).Inv := by
  refine h.of_links ?_ ?_ (attach_fuseRoot s p c) (attach_entry s p c) (attach_live s p c)
    (attach_entriesVdir s p c) (attach_nextId s p c)
  · rw [links_attach hp hc]
    exact h.wf.attach hparent p
  · rw [links_attach hp hc, attach_fuseRoot, Links.attach_parent, Function.update_of_ne hroot.symm]
    exact h.root_parent

theorem rename (h : s.Inv) (n : NodeId) (x : CStr) : (s.rename n x).Inv where
  wf := by rw [links_rename]; exact h.wf
  root_live := by simpa using h.root_live
  root_entry := by
    rw [rename_fuseRoot, rename_entry, h.root_entry]
    split <;> rfl
  root_parent := by rw [links_rename, rename_fuseRoot]; exact h.root_parent
  entry_of_live m hm hr := by
    rw [rename_live] at hm
    obtain ⟨e, he⟩ := h.entry_of_live m hm hr
    rw [rename_entry, he]
    split
    · exact ⟨_, rfl⟩
    · exact ⟨e, rfl⟩
  index k m := by
    -- A new name leaves the file of the entry as it is.
    rw [rename_entriesVdir, h.index, rename_entry]
    split
    · cases s.entry m <;> simp
    · rfl
  lt_nextId m hm := by
    rw [rename_live] at hm
    exact h.lt_nextId m hm

/-- The number of the next node is not that of a live node. -/
theorem not_live_nextId (h : s.Inv) : ¬ s.Live s.nextId := fun hl =>
  Nat.lt_irrefl _ (h.lt_nextId _ hl)

theorem heap_nextId (h : s.Inv) : s.heap s.nextId = none := by
  have := h.not_live_nextId
  unfold Live at this
  simpa using this

theorem root_ne_nextId (h : s.Inv) : s.fuseRoot ≠ s.nextId := fun he =>
  h.not_live_nextId (he ▸ h.root_live)

/-- A new node stands alone. -/
theorem links_create (h : s.Inv) (e : AgendaEntry) : (s.create e).links = s.links := by
  have key : ∀ m, (s.create e).heap m =
      if m = s.nextId then some ⟨some e, none, []⟩ else s.heap m := fun _ => rfl
  -- Its cell was free before, so it had no parent and no children there either.
  rw [links, links, Links.mk.injEq]
  constructor <;> funext m <;> rw [key] <;> split
  · rename_i hm; rw [hm, h.heap_nextId]; rfl
  · rfl
  · rename_i hm; rw [hm, h.heap_nextId]; rfl
  · rfl

theorem create (h : s.Inv) {e : AgendaEntry} (hnew : s.entriesVdir.get e.filenameVdir = none) :
    (s.create e).Inv where
  wf := by rw [h.links_create]; exact h.wf
  root_live := (create_live ..).2 (.inr h.root_live)
  root_entry := by
    rw [create_entry]
    exact (if_neg h.root_ne_nextId).trans h.root_entry
  root_parent := by rw [h.links_create]; exact h.root_parent
  entry_of_live m hm hr := by
    rw [create_entry]
    split
    · exact ⟨e, rfl⟩
    · rename_i hne
      exact h.entry_of_live m (((create_live ..).1 hm).resolve_left hne) hr
  index k m := by
    change (s.entriesVdir.insert _ _).get k = some m ↔ _
    rw [Hashmap.get_insert, create_entry]
    -- The new node has the new key and no other; no old node has the new key.
    by_cases hm : m = s.nextId
    · subst hm
      rw [if_pos rfl]
      by_cases hk : k = e.filenameVdir
      · simp [hk]
      · rw [if_neg hk, h.index]
        constructor
        · rintro ⟨e', he', _⟩
          exact absurd (live_of_entry he') h.not_live_nextId
        · rintro ⟨e', he', hk'⟩
          rw [Option.some.injEq] at he'
          exact absurd (he' ▸ hk').symm hk
    · rw [if_neg hm]
      by_cases hk : k = e.filenameVdir
      · subst hk
        rw [if_pos rfl, Option.some.injEq]
        constructor
        · exact fun hn => absurd hn.symm hm
        · intro hx
          rw [(h.index _ m).2 hx] at hnew
          exact nomatch hnew
      · rw [if_neg hk, h.index]
  lt_nextId m hm := by
    change m < s.nextId + 1
    rcases (create_live ..).1 hm with rfl | hm
    · exact Nat.lt_succ_self _
    · exact Nat.lt_succ_of_lt (h.lt_nextId m hm)

/-- Freeing a node without parent and children changes no link. -/
theorem links_free {s : Store} {n : NodeId} (hp : s.links.parent n = none)
    (hc : s.links.children n = []) : (s.free n).links = s.links := by
  have key : ∀ m, (s.free n).heap m = if m = n then none else s.heap m := fun _ => rfl
  apply Links.ext <;> funext m <;> simp only [links, key] <;> split
  · rename_i hm; rw [hm]; exact hp.symm
  · rfl
  · rename_i hm; rw [hm]; exact hc.symm
  · rfl

/-- Deleting a node without children detaches it in the forest. -/
theorem links_delete (h : s.Inv) {n : NodeId} (hc : s.links.children n = []) (k : CStr) :
    (s.delete n k).links = s.links.detach n := by
  have hd : ((s.unindex k).detach n).links = s.links.detach n := links_detach (s := s.unindex k) h.wf n
  unfold delete
  -- By the time it is freed, the node has neither parent nor children.
  rw [links_free, hd]
  · rw [hd, Links.detach_parent, Function.update_self]
  · rw [hd, h.wf.detach_children, hc]
    rfl

theorem delete_entry (s : Store) (n : NodeId) (k : CStr) (m : NodeId) :
    (s.delete n k).entry m = if m = n then none else s.entry m := by
  have hd : ((s.unindex k).detach n).entry m = s.entry m := detach_entry _ n m
  rw [← hd]
  unfold delete free entry
  by_cases hm : m = n <;> simp [hm]

theorem delete_live (s : Store) (n : NodeId) (k : CStr) (m : NodeId) :
    (s.delete n k).Live m ↔ m ≠ n ∧ s.Live m := by
  have hd : ((s.unindex k).detach n).Live m ↔ s.Live m := detach_live _ n m
  rw [← hd]
  unfold delete free Live
  by_cases hm : m = n <;> simp [hm]

@[simp] theorem delete_fuseRoot (s : Store) (n : NodeId) (k : CStr) :
    (s.delete n k).fuseRoot = s.fuseRoot := detach_fuseRoot (s.unindex k) n

theorem delete_entriesVdir (s : Store) (n : NodeId) (k : CStr) :
    (s.delete n k).entriesVdir = s.entriesVdir.remove k := detach_entriesVdir (s.unindex k) n

theorem delete (h : s.Inv) {n : NodeId} {e : AgendaEntry} (he : s.entry n = some e)
    (hc : s.links.children n = []) : (s.delete n e.filenameVdir).Inv where
  wf := by rw [h.links_delete hc]; exact h.wf.detach n
  root_live := by
    rw [delete_fuseRoot, delete_live]
    exact ⟨(h.ne_root he).symm, h.root_live⟩
  root_entry := by
    rw [delete_fuseRoot, delete_entry, h.root_entry]
    split <;> rfl
  root_parent := by
    rw [h.links_delete hc, delete_fuseRoot, Links.detach_parent,
      Function.update_of_ne (h.ne_root he).symm]
    exact h.root_parent
  entry_of_live m hm hr := by
    rw [delete_live] at hm
    rw [delete_fuseRoot] at hr
    rw [delete_entry, if_neg hm.1]
    exact h.entry_of_live m hm.2 hr
  index k m := by
    rw [delete_entriesVdir, Hashmap.get_remove, delete_entry]
    by_cases hm : m = n
    · -- The node was indexed under its own file only.
      subst hm
      rw [if_pos rfl]
      split
      · simp
      · rename_i hk
        constructor
        · intro hg
          obtain ⟨e', he', hk'⟩ := (h.index k m).1 hg
          rw [he, Option.some.injEq] at he'
          exact absurd (he' ▸ hk').symm hk
        · rintro ⟨_, h', _⟩
          exact nomatch h'
    · -- No other node was indexed under that file.
      rw [if_neg hm]
      split
      · rename_i hk
        constructor
        · exact fun h' => nomatch h'
        · intro hx
          have hn := (h.index k n).2 ⟨e, he, hk.symm⟩
          rw [(h.index k m).2 hx, Option.some.injEq] at hn
          exact absurd hn hm
      · exact h.index k m
  lt_nextId m hm := by
    rw [delete_live] at hm
    change m < ((s.unindex e.filenameVdir).detach n).nextId
    rw [detach_nextId]
    exact h.lt_nextId m hm.2

end Inv

end Agendafs.Store
