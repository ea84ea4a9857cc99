import Agendafs.Spec.EventCorrect

/-!
# What loading VDIR comes to

`load_root_node_tree` goes through the directory twice. The first loop indexes
the files that can be read as notes, without hanging them anywhere (`Indexed`);
the second takes the indexed names one by one and hangs each below the node its
parent UID names, below the root when it names none, or nowhere when the parent
is not indexed (`Attached`).

## Key results

- `wp_loadDirent`, `wp_attachLoaded`: one round of each loop
- `wp_loadRootNodeTree`: a property of the states between two rounds of the second
  loop holds at its end; `wp_loadInOrder` for a second loop in any order
-/

namespace Agendafs

open Store

variable {Text : Type} {cfg : Config Text} {w v u : World Text}

/-! ## The empty tree -/

/-- No node has been allocated yet. -/
def World.AtStart (w : World Text) : Prop := ∀ n, w.store.heap n = none

/-- The tree that consists of the root. -/
def Store.mount (s : Store) : Store where
  heap n := if n = s.nextId then some ⟨none, none, []⟩ else s.heap n
  nextId := s.nextId + 1
  fuseRoot := s.nextId
  entriesVdir := Hashmap.new

theorem mount_parent {s : Store} (h : ∀ n, s.heap n = none) (n : NodeId) :
    s.mount.links.parent n = none := by
  change (if n = s.nextId then _ else s.heap n : Option TreeNode).elim none (·.parent) = none
  rw [h]
  split <;> rfl

theorem mount_children {s : Store} (h : ∀ n, s.heap n = none) (n : NodeId) :
    s.mount.links.children n = [] := by
  change (if n = s.nextId then _ else s.heap n : Option TreeNode).elim [] (·.children) = []
  rw [h]
  split <;> rfl

theorem mount_entry {s : Store} (h : ∀ n, s.heap n = none) (n : NodeId) :
    s.mount.entry n = none := by
  change (if n = s.nextId then _ else s.heap n : Option TreeNode).elim none (·.data) = none
  rw [h]
  split <;> rfl

theorem mount_live {s : Store} (h : ∀ n, s.heap n = none) (n : NodeId) :
    s.mount.Live n ↔ n = s.nextId := by
  change (if n = s.nextId then _ else s.heap n : Option TreeNode).isSome = true ↔ _
  rw [h]
  split <;> simp_all

/-- The tree of the root alone is sound. -/
theorem sound_mount {s : Store} (h : ∀ n, s.heap n = none) : s.mount.Sound where
  wf :=
    { mem_children := by
        intro p c
        rw [mount_children h, mount_parent h]
        simp
      nodup := fun p => by rw [mount_children h]; exact List.nodup_nil }
  root_live := (mount_live h _).2 rfl
  root_entry := mount_entry h _
  root_parent := mount_parent h _
  entry_of_live n hn hr := absurd ((mount_live h n).1 hn) hr
  index k n := by
    rw [mount_entry h]
    change Hashmap.new.get k = some n ↔ _
    rw [Hashmap.get_new]
    simp
  lt_nextId n hn := by
    rw [(mount_live h n).1 hn]
    exact Nat.lt_succ_self _
  flat n e he := by
    rw [mount_entry h] at he
    exact nomatch he

/-! ## The first loop -/

/-- What `readdir` guarantees: the names are those of different files of one directory. -/
structure ValidListing (listing : List Dirent) : Prop where
  nodup : (listing.map (·.dName)).Nodup
  flat : ∀ d ∈ listing, slash ∉ d.dName

/-- The file is listed and can be read as a note. -/
def World.Accepts (cfg : Config Text) (w : World Text) (listing : List Dirent)
    (filenameVdir : CStr) : Prop :=
  ∃ d ∈ listing, d.dName = filenameVdir ∧ d.dType = .reg ∧
    strstr (bytes ".ics") filenameVdir = true ∧ (w.loadable cfg filenameVdir).isSome = true

/-- The state after the first loop has gone through these entries. -/
structure Indexed (cfg : Config Text) (w : World Text) (entries : List Dirent) (v : World Text) :
    Prop where
  files : v.files = w.files
  env : v.env = w.env
  sound : v.store.Sound
  parent : ∀ n, v.store.links.parent n = none
  index : ∀ k n, v.store.entriesVdir.get k = some n →
    w.Accepts cfg entries k ∧ v.store.entry n = w.loadable cfg k
  accepts : ∀ k, w.Accepts cfg entries k → ∃ n, v.store.entriesVdir.get k = some n

theorem loadable_congr (h : v.files = w.files) (k : CStr) :
    v.loadable cfg k = w.loadable cfg k := by
  unfold World.loadable World.fileComponent
  rw [h]

theorem accepts_append {pre : List Dirent} {d : Dirent} {k : CStr} :
    w.Accepts cfg (pre ++ [d]) k ↔ w.Accepts cfg pre k ∨ w.Accepts cfg [d] k := by
  unfold World.Accepts
  simp only [List.mem_append, or_and_right, exists_or]

/-- An entry that is not accepted changes nothing. -/
theorem Indexed.skip {pre : List Dirent} {d : Dirent} (h : Indexed cfg w pre v)
    (hd : ∀ k, ¬ w.Accepts cfg [d] k) : Indexed cfg w (pre ++ [d]) v where
  files := h.files
  env := h.env
  sound := h.sound
  parent := h.parent
  index k n hk := ⟨accepts_append.2 (.inl (h.index k n hk).1), (h.index k n hk).2⟩
  accepts k hk := h.accepts k ((accepts_append.1 hk).resolve_right (hd k))

/-- An entry that is accepted is indexed. -/
theorem Indexed.create {pre : List Dirent} {d : Dirent} {e : AgendaEntry}
    (h : Indexed cfg w pre v) (hd : d.dName ∉ pre.map (·.dName)) (hflat : slash ∉ d.dName)
    (hreg : d.dType = .reg) (hics : strstr (bytes ".ics") d.dName = true)
    (he : w.loadable cfg d.dName = some e) :
    Indexed cfg w (pre ++ [d]) { v with store := v.store.create e } := by
  have hk := filenameVdir_of_loadable hflat he
  -- `readdir` lists no name twice, so the key is new.
  have hnew : v.store.entriesVdir.get e.filenameVdir = none := by
    rw [hk]
    cases hget : v.store.entriesVdir.get d.dName with
    | none => rfl
    | some n =>
      obtain ⟨⟨d', hd', hname, _⟩, _⟩ := h.index _ n hget
      exact absurd (List.mem_map.2 ⟨d', hd', hname⟩) hd
  have haccepts : w.Accepts cfg [d] d.dName :=
    ⟨d, List.mem_singleton_self d, rfl, hreg, hics, by rw [he]; rfl⟩
  have hget : ∀ k, (v.store.create e).entriesVdir.get k =
      if k = d.dName then some v.store.nextId else v.store.entriesVdir.get k := fun k => by
    rw [← hk]
    exact Hashmap.get_insert ..
  refine ⟨h.files, h.env, h.sound.create hnew (by rw [hk]; exact hflat), ?_, ?_, ?_⟩
  · intro n
    exact (congrArg (·.parent n) (h.sound.links_create e)).trans (h.parent n)
  · intro k n hkn
    change (v.store.create e).entriesVdir.get k = some n at hkn
    change _ ∧ (v.store.create e).entry n = _
    rw [hget] at hkn
    rw [create_entry]
    split at hkn
    · rename_i hkd
      rw [if_pos (Option.some.inj hkn).symm, hkd, he]
      exact ⟨accepts_append.2 (.inr haccepts), rfl⟩
    · obtain ⟨hacc, hentry⟩ := h.index k n hkn
      have hne : n ≠ v.store.nextId := fun hn =>
        h.sound.not_live_nextId (hn ▸ h.sound.live_of_index hkn)
      rw [if_neg hne]
      exact ⟨accepts_append.2 (.inl hacc), hentry⟩
  · intro k hacc
    change ∃ n, (v.store.create e).entriesVdir.get k = some n
    rw [hget]
    split
    · exact ⟨_, rfl⟩
    · rename_i hne
      rcases accepts_append.1 hacc with hacc | ⟨d', hd', hname, _⟩
      · exact h.accepts k hacc
      · rw [List.mem_singleton] at hd'
        exact absurd (hd' ▸ hname).symm hne

/-- A listed note cannot be opened for reading; the load stops at it. -/
def World.Unreadable (cfg : Config Text) (w : World Text) (listing : List Dirent) : Prop :=
  ∃ d ∈ listing, d.dType = .reg ∧ strstr (bytes ".ics") d.dName = true ∧
    w.files (appendPath cfg.vdir d.dName) ≠ none ∧ ¬ w.Readable cfg d.dName

/-- The note that an entry of the directory is loaded as. -/
def World.direntNote (cfg : Config Text) (w : World Text) (d : Dirent) : Option AgendaEntry :=
  if d.dType = .reg && strstr (bytes ".ics") d.dName then w.loadable cfg d.dName else none

/-- One round of the first loop creates the node of the note, if there is one. -/
theorem wp_loadDirent_note {E : Crash → Prop} {d : Dirent}
    (hE : d.dType = .reg → strstr (bytes ".ics") d.dName = true →
      v.files (appendPath cfg.vdir d.dName) ≠ none → ¬ v.Readable cfg d.dName →
        ∀ c : Crash, c.Visible → E c) :
    Prog.wp (loadDirent cfg d)
      (fun _ v' => v' = match v.direntNote cfg d with
        | none => v
        | some e => { v with store := v.store.create e }) E v := by
  unfold loadDirent World.direntNote
  split
  · rename_i hcond
    simp only [Bool.and_eq_true, decide_eq_true_eq] at hcond
    refine wp_loadAgendaEntryFromIcsFile (hE hcond.1 hcond.2) fun _ => ?_
    cases he : v.loadable cfg d.dName with
    | none => rfl
    | some e =>
      simp only
      rw [Prog.wp_bind_ok (onStore_run (createFuseNode_run e))]
      rfl
  · rfl

theorem direntNote_eq_some {d : Dirent} {e : AgendaEntry} :
    w.direntNote cfg d = some e ↔
      d.dType = .reg ∧ strstr (bytes ".ics") d.dName = true ∧ w.loadable cfg d.dName = some e := by
  unfold World.direntNote
  split
  · rename_i hcond
    simp only [Bool.and_eq_true, decide_eq_true_eq] at hcond
    simp [hcond]
  · rename_i hcond
    simp only [Bool.and_eq_true, decide_eq_true_eq, not_and] at hcond
    exact iff_of_false nofun fun h => hcond h.1 h.2.1

/-- One round of the first loop. -/
theorem wp_loadDirent {E : Crash → Prop} {pre : List Dirent} {d : Dirent}
    (h : Indexed cfg w pre v) (hE : w.Unreadable cfg [d] → ∀ c : Crash, c.Visible → E c)
    (hd : d.dName ∉ pre.map (·.dName)) (hflat : slash ∉ d.dName) :
    Prog.wp (loadDirent cfg d) (fun _ v' => Indexed cfg w (pre ++ [d]) v') E v := by
  refine Prog.wp_mono (wp_loadDirent_note fun hreg hics hsome hread => hE ?_) (fun _ v' hv => ?_)
    fun _ hc => hc
  · rw [h.files] at hsome
    unfold World.Readable at hread
    rw [h.files] at hread
    exact ⟨d, List.mem_singleton_self d, hreg, hics, hsome, hread⟩
  · cases he : v.direntNote cfg d with
    | none =>
      rw [he] at hv
      subst hv
      -- A file that is no note is skipped, and is not one of those that are accepted.
      refine h.skip fun k ⟨d', hd', hname, hreg, hics, hsome⟩ => ?_
      rw [List.mem_singleton] at hd'
      subst hd'
      subst hname
      obtain ⟨e, hloadable⟩ := Option.isSome_iff_exists.1 hsome
      rw [← loadable_congr h.files] at hloadable
      exact nomatch he.symm.trans (direntNote_eq_some.2 ⟨hreg, hics, hloadable⟩)
    | some e =>
      rw [he] at hv
      subst hv
      obtain ⟨hreg, hics, hloadable⟩ := direntNote_eq_some.1 he
      rw [loadable_congr h.files] at hloadable
      exact h.create hd hflat hreg hics hloadable

/-- An entry that the loop has been through could be read. -/
theorem wp_loadDirent_readable {d : Dirent} :
    Prog.wp (loadDirent cfg d) (fun _ _ => ¬ v.Unreadable cfg [d]) (fun _ => True) v := by
  unfold loadDirent
  split
  · refine wp_loadAgendaEntryFromIcsFile (fun _ _ _ _ => trivial) fun hread => ?_
    have hreadable : ¬ v.Unreadable cfg [d] := by
      rintro ⟨d', hd', _, _, hsome, hnot⟩
      rw [List.mem_singleton.1 hd'] at hsome hnot
      exact hnot (hread hsome)
    exact Prog.wp_of_forall_ok fun _ _ _ => hreadable
  · rename_i hcond
    rintro ⟨d', hd', hreg, hics, _⟩
    rw [List.mem_singleton.1 hd'] at hreg hics
    exact hcond (by rw [hreg, hics]; rfl)

/-- The names of the notes among the entries, in the order of the listing. -/
def World.noteNames (cfg : Config Text) (w : World Text) (entries : List Dirent) : List CStr :=
  (entries.filter fun d => (w.direntNote cfg d).isSome).map (·.dName)

theorem mem_noteNames {entries : List Dirent} {k : CStr} :
    k ∈ w.noteNames cfg entries ↔ w.Accepts cfg entries k := by
  unfold World.noteNames World.Accepts
  simp only [List.mem_map, List.mem_filter, Option.isSome_iff_exists, direntNote_eq_some]
  constructor
  · rintro ⟨d, ⟨hd, e, hreg, hics, he⟩, rfl⟩
    exact ⟨d, hd, rfl, hreg, hics, e, he⟩
  · rintro ⟨d, hd, rfl, hreg, hics, e, he⟩
    exact ⟨d, ⟨hd, e, hreg, hics, he⟩, rfl⟩

theorem noteNames_append (pre : List Dirent) (d : Dirent) :
    w.noteNames cfg (pre ++ [d]) =
      w.noteNames cfg pre ++ if (w.direntNote cfg d).isSome then [d.dName] else [] := by
  unfold World.noteNames
  rw [List.filter_append, List.map_append, List.filter_singleton]
  cases (w.direntNote cfg d).isSome with
  | true => rfl
  | false => rfl

/-- The state after the first loop, with the order in which it has filled the table. -/
structure Listed (cfg : Config Text) (w : World Text) (entries : List Dirent) (v : World Text) :
    Prop extends Indexed cfg w entries v where
  lists : v.store.entriesVdir.Lists (w.noteNames cfg entries)
  readable : ¬ w.Unreadable cfg entries

theorem direntNote_congr (h : v.files = w.files) (d : Dirent) :
    v.direntNote cfg d = w.direntNote cfg d := by
  unfold World.direntNote
  rw [loadable_congr h]

theorem unreadable_congr (h : v.files = w.files) (entries : List Dirent) :
    v.Unreadable cfg entries ↔ w.Unreadable cfg entries := by
  unfold World.Unreadable World.Readable
  rw [h]

/-- One round of the first loop and the order of the table. -/
theorem wp_loadDirent_listed {E : Crash → Prop} {pre : List Dirent} {d : Dirent}
    (h : Listed cfg w pre v) (hE : w.Unreadable cfg [d] → ∀ c : Crash, c.Visible → E c)
    (hd : d.dName ∉ pre.map (·.dName)) (hflat : slash ∉ d.dName) :
    Prog.wp (loadDirent cfg d) (fun _ v' => Listed cfg w (pre ++ [d]) v') E v := by
  have hnote : Prog.wp (loadDirent cfg d) _ (fun _ => True) v :=
    wp_loadDirent_note fun _ _ _ _ _ _ => trivial
  refine Prog.wp_mono (Prog.wp_and (Prog.wp_and (wp_loadDirent h.toIndexed hE hd hflat)
    wp_loadDirent_readable) hnote) (fun _ v' hv => ?_) fun _ hc => hc
  obtain ⟨⟨hindexed, hreadable⟩, hv⟩ := hv
  rw [unreadable_congr h.files] at hreadable
  refine { hindexed with lists := ?_, readable := ?_ }
  · rw [noteNames_append, ← direntNote_congr h.files]
    cases he : v.direntNote cfg d with
    | none =>
      rw [he] at hv
      subst hv
      simpa using h.lists
    | some e =>
      rw [he] at hv
      subst hv
      have hk := filenameVdir_of_loadable hflat (direntNote_eq_some.1 he).2.2
      have hnew : d.dName ∉ w.noteNames cfg pre := fun hmem => by
        obtain ⟨d', hd', hname⟩ := List.mem_map.1 hmem
        exact hd (List.mem_map.2 ⟨d', List.mem_of_mem_filter hd', hname⟩)
      have hlists := h.lists.insert hnew v.store.nextId
      rw [← hk] at hlists ⊢
      exact hlists
  · rintro ⟨d', hd', hunreadable⟩
    rcases List.mem_append.1 hd' with hd' | hd'
    · exact h.readable ⟨d', hd', hunreadable⟩
    · exact hreadable ⟨d', hd', hunreadable⟩

/-! ## The second loop -/

/-- What hanging the node of one name can come to. -/
inductive Attached (cfg : Config Text) (u : World Text) (filenameVdir : CStr) :
    World Text → Prop
  | orphan {n : NodeId} (hn : u.store.entriesVdir.get filenameVdir = some n)
      (hp : u.store.target (u.parentUid cfg filenameVdir) = none) : Attached cfg u filenameVdir u
  | placed {n p : NodeId} (hn : u.store.entriesVdir.get filenameVdir = some n)
      (hp : u.store.target (u.parentUid cfg filenameVdir) = some p) :
      Attached cfg u filenameVdir
        { u.marked cfg p with store := u.store.place p n (u.store.placedName p n) }

/-- One round of the second loop. It goes on only if the parent can be marked. -/
theorem wp_attachLoaded_markable (h : u.store.Inv) {k : CStr} {n : NodeId}
    (hn : u.store.entriesVdir.get k = some n) (hparent : u.store.links.parent n = none) :
    Prog.wp (attachLoaded cfg k)
      (fun _ u' => Attached cfg u k u' ∧ ∀ p, u.store.target (u.parentUid cfg k) = some p →
        p ≠ u.store.fuseRoot → u.Markable cfg p) Crash.Visible u := by
  obtain ⟨e, he, hk⟩ := (h.index k n).1 hn
  have hget := getFuseNodeFromVdirName_found hn
  have placed : ∀ p, u.store.target (u.parentUid cfg k) = some p → Attached cfg u k _ :=
    fun p hp => .placed hn hp
  have orphan : u.store.target (u.parentUid cfg k) = none → Attached cfg u k u := .orphan hn
  unfold attachLoaded
  rw [Prog.wp_bind_ok (onStore_run hget)]
  refine wp_getIcalcomponentFromNode (live_of_entry he) (fun _ _ hc => hc) fun _ => ?_
  rw [component_of_entry he, hk]
  have hparentUid : (u.fileComponent cfg k).bind (getParentUid cfg.ical) = u.parentUid cfg k := rfl
  rw [hparentUid]
  cases huid : u.parentUid cfg k with
  | none =>
    -- Hung below the root, which has no file to mark.
    rw [huid] at placed
    have hroot := placed u.store.fuseRoot rfl
    rw [marked_of_entry_none h.root_entry] at hroot
    simp only
    rw [Prog.wp_bind_ok (Prog.get_run u),
      Prog.wp_bind_ok (onStore_run (addFuseChild_place h h.root_live he hparent))]
    refine ⟨hroot, fun p hp hne => ?_⟩
    exact absurd (Option.some.inj hp).symm hne
  | some uid =>
    rw [huid] at placed orphan
    simp only
    rw [Prog.wp_bind_ok (onStore_run (getNodeByUuid_run uid))]
    cases hp : u.store.entriesVdir.get (uid ++ bytes ".ics") with
    | none => -- `COULD NOT FIND PARENT NODE`
      refine ⟨orphan hp, fun p hp' => ?_⟩
      exact absurd (hp.symm.trans hp') (Option.some_ne_none p).symm
    | some p =>
      have hlive := h.live_of_index hp
      refine wp_getIcalcomponentFromNode hlive (fun _ _ hc => hc) fun _ => ?_
      refine wp_markParent (fun _ => .inl rfl) fun hmarkable => ?_
      have hmove : onStore (moveFuseNode (some p) n) (u.marked cfg p) = _ :=
        onStore_run (by rw [marked_store]; exact moveFuseNode_place h hlive he)
      rw [Prog.wp_bind_ok hmove]
      refine ⟨placed p hp, fun p' hp' _ => ?_⟩
      rw [Option.some.inj (hp.symm.trans hp')] at hmarkable
      exact hmarkable

theorem wp_attachLoaded (h : u.store.Inv) {k : CStr} {n : NodeId}
    (hn : u.store.entriesVdir.get k = some n) (hparent : u.store.links.parent n = none) :
    Prog.wp (attachLoaded cfg k) (fun _ u' => Attached cfg u k u') Crash.Visible u :=
  Prog.wp_mono (wp_attachLoaded_markable h hn hparent) (fun _ _ ha => ha.1) fun _ hc => hc

/-- What holds between two rounds of the second loop, after the names in `pre`. -/
structure LoadInv (v : World Text) (pre : List CStr) (u : World Text) : Prop where
  sound : u.store.Sound
  fuseRoot : u.store.fuseRoot = v.store.fuseRoot
  index : u.store.entriesVdir = v.store.entriesVdir
  live : ∀ n, u.store.Live n ↔ v.store.Live n
  unattached : ∀ k ∉ pre, ∀ n, u.store.entriesVdir.get k = some n →
    u.store.links.parent n = none
  unique : u.store.UniqueNames

theorem Indexed.loadInv {entries : List Dirent} (h : Indexed cfg w entries v) :
    LoadInv v [] v where
  sound := h.sound
  fuseRoot := rfl
  index := rfl
  live _ := .rfl
  unattached _ _ n _ := h.parent n
  unique p := by
    have hchildren : v.store.links.children p = [] := by
      refine List.eq_nil_iff_forall_not_mem.2 fun c hc => ?_
      rw [h.sound.wf.mem_children, h.parent] at hc
      exact nomatch hc
    unfold childNames
    rw [hchildren]
    exact List.nodup_nil

/-- One round of the second loop keeps what holds between the rounds. -/
theorem LoadInv.attached {pre : List CStr} {k : CStr} {u' : World Text} (h : LoadInv v pre u)
    (ha : Attached cfg u k u') : LoadInv v (pre ++ [k]) u' := by
  cases ha with
  | orphan hn hp =>
    exact { h with
      unattached := fun k' hk' => h.unattached k' fun hm => hk' (List.mem_append_left _ hm) }
  | @placed n p hn hp =>
    obtain ⟨e, he, hk⟩ := (h.sound.index k n).1 hn
    have hlive := h.sound.live_of_target hp
    refine ⟨h.sound.place hlive he, place_fuseRoot.trans h.fuseRoot,
      place_entriesVdir.trans h.index, fun m => place_live.trans (h.live m), ?_, ?_⟩
    · intro k' hk' m hm
      rw [List.mem_append, List.mem_singleton, not_or] at hk'
      simp only [place_entriesVdir] at hm
      have hne : m ≠ n := by
        rintro rfl
        obtain ⟨e', he', rfl⟩ := (h.sound.index k' m).1 hm
        rw [he, Option.some.injEq] at he'
        exact hk'.2 (he' ▸ hk)
      simp only [place_parent h.sound.wf hlive (live_of_entry he)]
      rw [Function.update_of_ne hne]
      exact h.unattached k' hk'.1 m hm
    · exact (h.unique.detach h.sound.wf n).place h.sound.toInv hlive he (freshName_not_mem _ _)

/-- The load with a second loop that goes through the names in any order. -/
def loadInOrder (cfg : Config Text) (order : List CStr → List CStr)
    (listing : Option (List Dirent)) : FsM Text Unit := do
  modify fun w => { w with store := { w.store with entriesVdir := Hashmap.new } }
  let root ← onStore (createTreeNode none)
  modify fun w => { w with store := { w.store with fuseRoot := root } }
  match listing with
  | none => pure ()
  | some entries => do
    entries.forM (loadDirent cfg)
    let keys := (← get).store.entriesVdir.getKeys
    (order keys).forM (attachLoaded cfg)

theorem loadInOrder_id (listing : Option (List Dirent)) :
    loadInOrder cfg id listing = loadRootNodeTree cfg listing := rfl

/-- The rule for the load in any order: what holds after the first loop and is kept by each
    round of the second holds at the end. -/
theorem wp_loadInOrder_listed {E : Crash → Prop} {order : List CStr → List CStr}
    (horder : ∀ keys, (order keys).Perm keys) (hstart : w.AtStart)
    {listing : Option (List Dirent)} (hlisting : ValidListing (listing.getD []))
    (hE : w.Unreadable cfg (listing.getD []) → ∀ c : Crash, c.Visible → E c)
    (J : List CStr → World Text → Prop)
    (hJ : ∀ v, Listed cfg { w with store := w.store.mount } (listing.getD []) v → J [] v)
    (step : ∀ v pre k n u, Listed cfg { w with store := w.store.mount } (listing.getD []) v →
      LoadInv v pre u → J pre u → k ∉ pre → u.store.entriesVdir.get k = some n →
      Prog.wp (attachLoaded cfg k) (fun _ u' => Attached cfg u k u' ∧ J (pre ++ [k]) u') E u) :
    Prog.wp (loadInOrder cfg order listing)
      (fun _ u => ∃ v, Listed cfg { w with store := w.store.mount } (listing.getD []) v ∧
        LoadInv v (order v.store.entriesVdir.getKeys) u ∧ J (order v.store.entriesVdir.getKeys) u)
      E w := by
  have hempty : ∀ k n, w.store.mount.entriesVdir.get k ≠ some n := fun k n hk => by
    have hnone : w.store.mount.entriesVdir.get k = none := Hashmap.get_new k
    rw [hnone] at hk
    exact nomatch hk
  have hmount : Listed cfg { w with store := w.store.mount } []
      { w with store := w.store.mount } :=
    { files := rfl
      env := rfl
      sound := sound_mount hstart
      parent := mount_parent hstart
      index := fun k n hk => absurd hk (hempty k n)
      accepts := fun k ⟨d, hd, _⟩ => nomatch hd
      lists := Hashmap.lists_new
      readable := fun ⟨d, hd, _⟩ => nomatch hd }
  unfold loadInOrder
  rw [Prog.wp_bind_ok (Prog.modify_run _ w), Prog.wp_bind_ok (onStore_run (createTreeNode_run none)),
    Prog.wp_bind_ok (Prog.modify_run _ _)]
  change Prog.wp _ _ _ { w with store := w.store.mount }
  cases listing with
  | none =>
    have hkeys : order w.store.mount.entriesVdir.getKeys = [] :=
      (horder w.store.mount.entriesVdir.getKeys).eq_nil
    refine ⟨_, hmount, ?_⟩
    rw [hkeys]
    exact ⟨hmount.loadInv, hJ _ hmount⟩
  | some entries =>
    simp only [Option.getD_some] at hlisting hE hJ step ⊢
    rw [Prog.wp_bind]
    refine Prog.wp_mono (Prog.wp_forM (fun pre v => Listed cfg _ pre v) entries ?_ [] entries _ rfl
      hmount) (fun _ v hv => ?_) fun _ hc => hc
    · intro pre d post v hxs hv
      subst hxs
      have hnodup := hlisting.nodup
      rw [List.map_append, List.map_cons, List.nodup_append] at hnodup
      refine wp_loadDirent_listed hv (fun ⟨d', hd', hunreadable⟩ => hE ⟨d', ?_, hunreadable⟩)
        (fun hm => hnodup.2.2 _ hm _ List.mem_cons_self rfl)
        (hlisting.flat d (List.mem_append_right _ List.mem_cons_self))
      rw [List.mem_singleton.1 hd']
      exact List.mem_append_right _ List.mem_cons_self
    · -- The second loop goes over the keys as the first one left them.
      rw [Prog.wp_bind_ok (Prog.get_run v)]
      refine Prog.wp_mono (Prog.wp_forM (fun pre u => LoadInv v pre u ∧ J pre u)
        (order v.store.entriesVdir.getKeys) ?_ [] _ _ rfl ⟨hv.loadInv, hJ v hv⟩)
        (fun _ u hu => ?_) fun _ hc => hc
      · intro pre k post u hxs ⟨hu, hJu⟩
        have hperm := horder v.store.entriesVdir.getKeys
        have hnodup := hperm.nodup_iff.2 v.store.entriesVdir.nodup_getKeys
        have hmem : k ∈ v.store.entriesVdir.getKeys := by
          rw [← hperm.mem_iff, hxs]
          exact List.mem_append_right _ List.mem_cons_self
        rw [hxs, List.nodup_append] at hnodup
        have hpre : k ∉ pre := fun hm => hnodup.2.2 _ hm _ List.mem_cons_self rfl
        obtain ⟨n, hn⟩ := (Hashmap.mem_getKeys _ _).1 hmem
        rw [← hu.index] at hn
        exact Prog.wp_mono (step v pre k n u hv hu hJu hpre hn)
          (fun _ u' ha => ⟨hu.attached ha.1, ha.2⟩) fun _ hc => hc
      · exact ⟨v, hv, hu⟩

/-- The same rule without the order of the table. -/
theorem wp_loadInOrder {E : Crash → Prop} {order : List CStr → List CStr}
    (horder : ∀ keys, (order keys).Perm keys) (hstart : w.AtStart)
    {listing : Option (List Dirent)} (hlisting : ValidListing (listing.getD []))
    (hE : w.Unreadable cfg (listing.getD []) → ∀ c : Crash, c.Visible → E c)
    (J : List CStr → World Text → Prop)
    (hJ : ∀ v, Indexed cfg { w with store := w.store.mount } (listing.getD []) v → J [] v)
    (step : ∀ v pre k n u, Indexed cfg { w with store := w.store.mount } (listing.getD []) v →
      LoadInv v pre u → J pre u → k ∉ pre → u.store.entriesVdir.get k = some n →
      Prog.wp (attachLoaded cfg k) (fun _ u' => Attached cfg u k u' ∧ J (pre ++ [k]) u') E u) :
    Prog.wp (loadInOrder cfg order listing)
      (fun _ u => ∃ v keys, Indexed cfg { w with store := w.store.mount } (listing.getD []) v ∧
        LoadInv v keys u ∧ (∀ k n, u.store.entriesVdir.get k = some n → k ∈ keys) ∧ J keys u)
      E w := by
  refine Prog.wp_mono (wp_loadInOrder_listed horder hstart hlisting hE J
    (fun v hv => hJ v hv.toIndexed) fun v pre k n u hv => step v pre k n u hv.toIndexed)
    (fun _ u hu => ?_) fun _ hc => hc
  obtain ⟨v, hv, hinv, hJu⟩ := hu
  refine ⟨v, _, hv.toIndexed, hinv, fun k n hk => ?_, hJu⟩
  rw [hinv.index] at hk
  exact (horder _).mem_iff.2 ((Hashmap.mem_getKeys _ _).2 ⟨n, hk⟩)

/-- The rule for the load in the order of the table. -/
theorem wp_loadRootNodeTree (hstart : w.AtStart) {listing : Option (List Dirent)}
    (hlisting : ValidListing (listing.getD [])) (J : List CStr → World Text → Prop)
    (hJ : ∀ v, Indexed cfg { w with store := w.store.mount } (listing.getD []) v → J [] v)
    (step : ∀ v pre k u u', Indexed cfg { w with store := w.store.mount } (listing.getD []) v →
      LoadInv v pre u → J pre u → k ∉ pre → Attached cfg u k u' → J (pre ++ [k]) u') :
    Prog.wp (loadRootNodeTree cfg listing)
      (fun _ u => ∃ v keys, Indexed cfg { w with store := w.store.mount } (listing.getD []) v ∧
        LoadInv v keys u ∧ (∀ k n, u.store.entriesVdir.get k = some n → k ∈ keys) ∧ J keys u)
      Crash.Visible w := by
  rw [← loadInOrder_id]
  refine wp_loadInOrder (fun _ => .rfl) hstart hlisting (fun _ _ hc => hc) J hJ ?_
  intro v pre k n u hv hu hJu hpre hn
  exact Prog.wp_mono (wp_attachLoaded hu.sound.toInv hn (hu.unattached k hpre n hn))
    (fun _ u' ha => ⟨ha, step v pre k u u' hv hu hJu hpre ha⟩) fun _ hc => hc

end Agendafs
