import Agendafs.Spec.StoreCorrect

/-!
# Placing a node

Every way a note gets into the tree takes it away from its parent, gives it a
name and hangs it behind the children of another node: `Store.place`. This file
gives the effect of `place` on links, names and index, and shows what it does to
the three properties of the whole tree that runs are judged by.

## Key results

- `Store.Sound`: the invariant together with index keys that are file names
- `Store.UniqueNames`, `UniqueNames.place`: no two siblings share a name
- `Store.Connected`, `Connected.place`: every node is reached from the root
-/

namespace Agendafs.Store

variable {s : Store} {p c n : NodeId} {e : AgendaEntry} {x : CStr}

/-- Move `c` behind the children of `p`, under the name `x`. -/
def place (s : Store) (p c : NodeId) (x : CStr) : Store := ((s.detach c).rename c x).attach p c

/-- The node of an entry, which is renamed or new, and the store it is in. -/
def upsert (s : Store) (e : AgendaEntry) : NodeId × Store :=
  match s.entriesVdir.get e.filenameVdir with
  | some n => (n, s.rename n e.filename)
  | none => (s.nextId, s.create e)

/-- The name `c` gets when it is moved to `p`: no other child of `p` has it. -/
def placedName (s : Store) (p c : NodeId) : CStr :=
  freshName (s.name c) ((s.detach c).childNames p)

/-! ## The effect of placing -/

theorem place_links (h : s.links.WF) (hp : s.Live p) (hc : s.Live c) :
    (s.place p c x).links = (s.links.detach c).attach p c := by
  unfold place
  rw [links_attach (by simpa using hp) (by simpa using hc), links_rename, links_detach h]

theorem place_parent (h : s.links.WF) (hp : s.Live p) (hc : s.Live c) :
    (s.place p c x).links.parent = Function.update s.links.parent c (some p) := by
  rw [place_links h hp hc, Links.move_parent]

theorem place_entry (s : Store) (p c : NodeId) (x : CStr) (n : NodeId) :
    (s.place p c x).entry n =
      if n = c then (s.entry n).map ({ · with filename := x }) else s.entry n := by
  unfold place
  rw [attach_entry, rename_entry, detach_entry]

/-- A placed node keeps its file. -/
theorem place_filenameVdir (s : Store) (p c : NodeId) (x : CStr) (n : NodeId) :
    ((s.place p c x).entry n).map (·.filenameVdir) = (s.entry n).map (·.filenameVdir) := by
  rw [place_entry]
  split
  · rw [Option.map_map]
    rfl
  · rfl

theorem place_name (he : s.entry c = some e) :
    (s.place p c x).name = Function.update s.name c x := by
  unfold place
  rw [attach_name, rename_name (by rw [detach_entry]; exact he), detach_name]

@[simp] theorem place_live : (s.place p c x).Live n ↔ s.Live n := by
  unfold place
  rw [attach_live, rename_live, detach_live]

@[simp] theorem place_entriesVdir : (s.place p c x).entriesVdir = s.entriesVdir := by
  unfold place
  rw [attach_entriesVdir, rename_entriesVdir, detach_entriesVdir]

@[simp] theorem place_fuseRoot : (s.place p c x).fuseRoot = s.fuseRoot := by
  unfold place
  rw [attach_fuseRoot, rename_fuseRoot, detach_fuseRoot]

theorem Inv.place (h : s.Inv) (hp : s.Live p) (he : s.entry c = some e) :
    (s.place p c x).Inv := by
  refine ((h.detach c).rename c x).attach (by simpa using hp) (by simpa using live_of_entry he) ?_ ?_
  · rw [links_rename, links_detach h.wf, Links.detach_parent, Function.update_self]
  · rw [rename_fuseRoot, detach_fuseRoot]
    exact h.ne_root he

/-- Renaming to the present name does nothing. -/
theorem rename_self (he : s.entry n = some e) : s.rename n e.filename = s := by
  unfold rename modifyNode
  congr 1
  funext m
  split
  · rename_i hm
    subst hm
    unfold entry at he
    cases ht : s.heap m with
    | none => rfl
    | some t =>
      rw [ht] at he
      have hd : t.data = some e := he
      rw [Option.map_some, hd, Option.map_some]
      change some { t with data := some e } = some t
      rw [← hd]
  · rfl

/-- Detaching a node without parent does nothing. -/
theorem detach_of_none (h : s.links.parent n = none) : s.detach n = s := by
  unfold detach
  rw [h]

/-- Edits of nodes that do not interfere can be swapped. -/
theorem modifyNode_comm (s : Store) (n m : NodeId) (f g : TreeNode → TreeNode)
    (hfg : ∀ t, g (f t) = f (g t)) :
    (s.modifyNode n f).modifyNode m g = (s.modifyNode m g).modifyNode n f := by
  have hmap : ∀ t : Option TreeNode, (t.map f).map g = (t.map g).map f := fun t => by
    cases t with
    | none => rfl
    | some t => exact congrArg some (hfg t)
  -- Only on the node `n = m` do both edits meet.
  have key : ((s.modifyNode n f).modifyNode m g).heap = ((s.modifyNode m g).modifyNode n f).heap := by
    funext k
    simp only [modifyNode_heap]
    split <;> split <;> simp only [hmap]
  exact congrArg (fun heap => Store.mk heap s.nextId s.fuseRoot s.entriesVdir) key

/-- Renaming and detaching touch different fields. -/
theorem detach_rename (s : Store) (n : NodeId) (x : CStr) :
    (s.rename n x).detach n = (s.detach n).rename n x := by
  unfold detach
  rw [links_rename]
  cases s.links.parent n with
  | none => rfl
  | some p =>
    unfold rename
    simp only
    rw [modifyNode_comm s n p _ (fun t => { t with children := t.children.erase n }) fun _ => rfl,
      modifyNode_comm _ n n _ (fun t => { t with parent := none }) fun _ => rfl]

/-- Attaching a node that stands alone places it under its present name. -/
theorem attach_eq_place (hparent : s.links.parent c = none) (he : s.entry c = some e) :
    s.attach p c = s.place p c e.filename := by
  unfold place
  rw [detach_of_none hparent, rename_self he]

/-! ## The effect of the update of an entry -/

theorem upsert_of_some (h : s.entriesVdir.get e.filenameVdir = some n) :
    s.upsert e = (n, s.rename n e.filename) := by
  unfold upsert
  rw [h]

theorem upsert_of_none (h : s.entriesVdir.get e.filenameVdir = none) :
    s.upsert e = (s.nextId, s.create e) := by
  unfold upsert
  rw [h]

theorem upsertFuseNode_run (h : s.Inv) :
    upsertFuseNode e s = .ok ((s.upsert e).1, (s.upsert e).2) := by
  cases hk : s.entriesVdir.get e.filenameVdir with
  | none => rw [upsert_of_none hk, upsertFuseNode_run_none hk]
  | some n => rw [upsert_of_some hk, upsertFuseNode_run_some h hk]

/-- The node of the entry holds the entry. -/
theorem upsert_entry (h : s.Inv) : (s.upsert e).2.entry (s.upsert e).1 = some e := by
  cases hk : s.entriesVdir.get e.filenameVdir with
  | none =>
    rw [upsert_of_none hk, create_entry]
    exact if_pos rfl
  | some n =>
    rw [upsert_of_some hk, rename_entry, if_pos rfl]
    obtain ⟨e', he', hk'⟩ := (h.index _ n).1 hk
    rw [he', Option.map_some, hk']

theorem upsert_entry_of_ne (h : n ≠ (s.upsert e).1) : (s.upsert e).2.entry n = s.entry n := by
  cases hk : s.entriesVdir.get e.filenameVdir with
  | none =>
    rw [upsert_of_none hk] at h ⊢
    rw [create_entry]
    exact if_neg h
  | some m =>
    rw [upsert_of_some hk] at h ⊢
    rw [rename_entry]
    exact if_neg h

theorem Inv.upsert (h : s.Inv) : (s.upsert e).2.Inv := by
  cases hk : s.entriesVdir.get e.filenameVdir with
  | none => rw [upsert_of_none hk]; exact h.create hk
  | some n => rw [upsert_of_some hk]; exact h.rename n _

theorem Inv.upsert_links (h : s.Inv) : (s.upsert e).2.links = s.links := by
  cases hk : s.entriesVdir.get e.filenameVdir with
  | none => rw [upsert_of_none hk]; exact h.links_create e
  | some n => rw [upsert_of_some hk]; exact links_rename s n _

@[simp] theorem upsert_fuseRoot : (s.upsert e).2.fuseRoot = s.fuseRoot := by
  cases hk : s.entriesVdir.get e.filenameVdir with
  | none => rw [upsert_of_none hk]; rfl
  | some n => rw [upsert_of_some hk]; rfl

theorem upsert_live (h : s.Inv) : (s.upsert e).2.Live n ↔ n = (s.upsert e).1 ∨ s.Live n := by
  cases hk : s.entriesVdir.get e.filenameVdir with
  | none => rw [upsert_of_none hk, create_live]
  | some m =>
    rw [upsert_of_some hk, rename_live]
    constructor
    · exact .inr
    · rintro (rfl | hn)
      · exact h.live_of_index hk
      · exact hn

/-- What was indexed stays indexed, and the entry is added. -/
theorem upsert_get (k : CStr) :
    (s.upsert e).2.entriesVdir.get k =
      if k = e.filenameVdir then some (s.upsert e).1 else s.entriesVdir.get k := by
  cases hk : s.entriesVdir.get e.filenameVdir with
  | none =>
    rw [upsert_of_none hk]
    exact Hashmap.get_insert ..
  | some m =>
    rw [upsert_of_some hk, rename_entriesVdir]
    split
    · rename_i hkk
      rw [hkk, hk]
    · rfl

/-! ## The index lists file names -/

/-- The invariant with index keys that are names of files, without a slash. -/
structure Sound (s : Store) : Prop extends s.Inv where
  flat : ∀ n e, s.entry n = some e → slash ∉ e.filenameVdir

theorem Sound.key_flat (h : s.Sound) {k : CStr} (hk : s.entriesVdir.get k = some n) :
    slash ∉ k := by
  obtain ⟨e, he, rfl⟩ := (h.index k n).1 hk
  exact h.flat n e he

theorem Sound.place (h : s.Sound) (hp : s.Live p) (he : s.entry c = some e) :
    (s.place p c x).Sound where
  toInv := h.toInv.place hp he
  flat n e' he' := by
    rw [place_entry] at he'
    split at he'
    · obtain ⟨e₀, he₀, rfl⟩ := Option.map_eq_some_iff.1 he'
      exact h.flat n e₀ he₀
    · exact h.flat n e' he'

theorem Sound.create (h : s.Sound) (hnew : s.entriesVdir.get e.filenameVdir = none)
    (hflat : slash ∉ e.filenameVdir) : (s.create e).Sound where
  toInv := h.toInv.create hnew
  flat n e' he' := by
    rw [create_entry] at he'
    split at he'
    · exact Option.some.inj he' ▸ hflat
    · exact h.flat n e' he'

theorem Sound.delete (h : s.Sound) (he : s.entry n = some e) (hc : s.links.children n = []) :
    (s.delete n e.filenameVdir).Sound where
  toInv := h.toInv.delete he hc
  flat m e' he' := by
    rw [Inv.delete_entry] at he'
    split at he'
    · exact nomatch he'
    · exact h.flat m e' he'

theorem Sound.upsert (h : s.Sound) (hflat : slash ∉ e.filenameVdir) : (s.upsert e).2.Sound where
  toInv := h.toInv.upsert
  flat n e' he' := by
    by_cases hn : n = (s.upsert e).1
    · rw [hn, upsert_entry h.toInv] at he'
      exact Option.some.inj he' ▸ hflat
    · rw [upsert_entry_of_ne hn] at he'
      exact h.flat n e' he'

/-! ## Siblings have different names -/

/-- No two children of a node have the same name. -/
def UniqueNames (s : Store) : Prop := ∀ p, (s.childNames p).Nodup

theorem detach_childNames (h : s.links.WF) (c q : NodeId) :
    (s.detach c).childNames q = ((s.links.children q).erase c).map s.name := by
  unfold childNames
  rw [links_detach h, h.detach_children, detach_name]

theorem UniqueNames.detach (hu : s.UniqueNames) (h : s.links.WF) (c : NodeId) :
    (s.detach c).UniqueNames := by
  intro q
  rw [detach_childNames h]
  exact (hu q).sublist (List.erase_sublist.map _)

/-- Renaming a detached node changes the name of no child. -/
theorem childNames_rename (h : s.links.WF) (hparent : s.links.parent c = none)
    (he : s.entry c = some e) (q : NodeId) : (s.rename c x).childNames q = s.childNames q := by
  unfold childNames
  rw [links_rename, rename_name he]
  refine List.map_congr_left fun n hn => Function.update_of_ne ?_ _ _
  rintro rfl
  rw [h.mem_children, hparent] at hn
  exact nomatch hn

/-- Placing a node under a free name: the names of the others need to be unique,
    that of the node itself does not matter. -/
theorem UniqueNames.place (hu : (s.detach c).UniqueNames) (h : s.Inv) (hp : s.Live p)
    (he : s.entry c = some e) (hx : x ∉ (s.detach c).childNames p) :
    (s.place p c x).UniqueNames := by
  intro q
  have hnot : ∀ q, c ∉ (s.links.children q).erase c := fun q hm =>
    ((h.wf.nodup q).mem_erase_iff.1 hm).1 rfl
  have hnames : ∀ q, ((s.links.children q).erase c).map (s.place p c x).name =
      (s.detach c).childNames q := fun q => by
    rw [detach_childNames h.wf, place_name he]
    refine List.map_congr_left fun n hn => Function.update_of_ne ?_ _ _
    rintro rfl
    exact hnot q hn
  unfold childNames
  rw [place_links h.wf hp (live_of_entry he), h.wf.move_children]
  -- Only the new parent's list gains a name, and that one is not in it.
  split
  · rename_i hq
    subst hq
    rw [List.map_append, hnames, List.map_singleton, place_name he, Function.update_self]
    exact (hu q).append (List.nodup_singleton x) (by simpa using hx)
  · rw [hnames]
    exact hu q

theorem UniqueNames.create (hu : s.UniqueNames) (h : s.Inv) : (s.create e).UniqueNames := by
  intro q
  have hname : ∀ n ∈ s.links.children q, (s.create e).name n = s.name n := fun n hn => by
    have hne : n ≠ s.nextId := fun hn' => h.not_live_nextId (hn' ▸ h.live_child hn)
    rw [name, name, create_entry, if_neg hne]
  unfold childNames
  rw [h.links_create, List.map_congr_left hname]
  exact hu q

theorem UniqueNames.delete (hu : s.UniqueNames) (h : s.Inv) (hc : s.links.children n = [])
    (k : CStr) : (s.delete n k).UniqueNames := by
  intro q
  have hname : ∀ m ∈ (s.links.children q).erase n, (s.delete n k).name m = s.name m :=
    fun m hm => by
      have hne := ((h.wf.nodup q).mem_erase_iff.1 hm).1
      rw [name, name, Inv.delete_entry, if_neg hne]
  unfold childNames
  rw [h.links_delete hc, h.wf.detach_children, List.map_congr_left hname]
  exact (hu q).sublist (List.erase_sublist.map _)

/-- Apart from the updated node, the names stay unique. -/
theorem UniqueNames.upsert_detach (hu : s.UniqueNames) (h : s.Inv) :
    ((s.upsert e).2.detach (s.upsert e).1).UniqueNames := by
  cases hk : s.entriesVdir.get e.filenameVdir with
  | none =>
    rw [upsert_of_none hk]
    exact (hu.create h).detach (h.create hk).wf _
  | some n =>
    rw [upsert_of_some hk]
    obtain ⟨e', he', _⟩ := (h.index _ _).1 hk
    intro q
    simp only
    -- Detached first, the node is in no list when it gets its name.
    rw [detach_rename, childNames_rename (h.detach n).wf _ (by rw [detach_entry]; exact he')]
    · exact hu.detach h.wf n q
    · rw [links_detach h.wf, Links.detach_parent, Function.update_self]

/-! ## What the names of the notes are like -/

/-- Every note has a name of this kind. -/
def AllNames (P : CStr → Prop) (s : Store) : Prop := ∀ n e, s.entry n = some e → P e.filename

variable {P : CStr → Prop}

theorem AllNames.place (h : s.AllNames P) (hx : P x) : (s.place p c x).AllNames P := by
  intro m e' he'
  rw [place_entry] at he'
  split at he'
  · obtain ⟨e, _, rfl⟩ := Option.map_eq_some_iff.1 he'
    exact hx
  · exact h m e' he'

theorem AllNames.create (h : s.AllNames P) (he : P e.filename) : (s.create e).AllNames P := by
  intro m e' he'
  rw [create_entry] at he'
  split at he'
  · cases he'
    exact he
  · exact h m e' he'

theorem AllNames.delete (h : s.AllNames P) (k : CStr) : (s.delete n k).AllNames P := by
  intro m e' he'
  rw [Inv.delete_entry] at he'
  split at he'
  · exact nomatch he'
  · exact h m e' he'

theorem AllNames.upsert (h : s.AllNames P) (hinv : s.Inv) (he : P e.filename) :
    (s.upsert e).2.AllNames P := by
  intro m e' he'
  by_cases hm : m = (s.upsert e).1
  · rw [hm, upsert_entry hinv] at he'
    cases he'
    exact he
  · rw [upsert_entry_of_ne hm] at he'
    exact h m e' he'

/-! ## Every node is reached from the root -/

/-- Every node is the root or hangs below it. -/
def Connected (s : Store) : Prop := ∀ n, s.Live n → s.links.Below s.fuseRoot n

/-- Placing a node outside its own subtree connects that subtree. -/
theorem Connected.place (h : s.Inv) (hp : s.links.Below s.fuseRoot p) (hplive : s.Live p)
    (hc : s.Live c) (hpc : ¬ s.links.Below c p)
    (hall : ∀ n, s.Live n → s.links.Below s.fuseRoot n ∨ s.links.Below c n) :
    (s.place p c x).Connected := by
  intro n hn
  rw [place_live] at hn
  rw [place_links h.wf hplive hc, place_fuseRoot]
  exact hp.move hpc (hall n hn)

theorem Connected.delete (hs : s.Connected) (h : s.Inv) (hc : s.links.children n = []) (k : CStr) :
    (s.delete n k).Connected := by
  intro m hm
  rw [Inv.delete_live] at hm
  rw [h.links_delete hc, Inv.delete_fuseRoot]
  exact h.wf.below_detach hc (hs m hm.2) hm.1

/-- A new node stands alone: nothing else is below it. -/
theorem Inv.not_below_nextId (h : s.Inv) (hn : s.Live n) : ¬ s.links.Below s.nextId n := by
  intro hbelow
  have hchildren : s.links.children s.nextId = [] := by
    change (s.heap s.nextId).elim [] (·.children) = []
    rw [h.heap_nextId]
    rfl
  exact h.not_live_nextId (h.wf.eq_of_below hchildren hbelow ▸ hn)

end Agendafs.Store
