import Agendafs.ForStd.Descent
import Agendafs.Spec.Runs

/-!
# The status of a node, by two ways

`fuse_getattr` asks `get_node_stat` about the node of a path, and `fuse_readdir`
about the directory it lists, with the component of the child. Both are
described by `World.nodeStat`, and with that it is a calculation when they agree.

## Key results

- `size_eq`: the size of a node is that of its description or of its children
- `getNodeStat_wp`: what `get_node_stat` returns
- `stat_paths_agree_iff`
-/

namespace Agendafs

open Store Prog

variable {Text : Type} {cfg : Config Text} {w w' : World Text} {n : NodeId}

/-! ## The size of a node -/

/-- The size that `calculate_node_size` finds when it may go this deep. -/
def World.sizeWithin (cfg : Config Text) (w : World Text) : Nat → NodeId → Nat
  | 0, _ => 0
  | fuel + 1, n =>
    if w.isDirectory cfg n then
      ((w.store.links.children n).map (World.sizeWithin cfg w fuel)).sum % 2 ^ 64
    else icalcomponentGetDescriptionSize (w.component cfg n)

/-- The size of a node. -/
def World.size (cfg : Config Text) (w : World Text) (n : NodeId) : Nat :=
  w.sizeWithin cfg (w.store.nextId + 1) n

/-- Asked about a node with a component that is not its own, `node_is_directory` gives the same
    answer if the node has children. -/
theorem nodeIsDirectory_run_of {ic : Option Icalcomponent} (hn : w.store.Live n)
    (hic : ic = w.component cfg n ∨ w.store.links.children n ≠ []) :
    nodeIsDirectory cfg n ic w = .ok (w.isDirectory cfg n, w) := by
  rcases hic with rfl | hchildren
  · exact nodeIsDirectory_run hn
  · unfold nodeIsDirectory
    rw [bind_run_ok (onStore_run (isRootNode_run hn)),
      bind_run_ok (onStore_run (nodeHasChildren_run hn))]
    simp [World.isDirectory, hchildren]

/-- One call of `calculate_node_size`, if the calls for the children give their sizes. It stops
    only where the file of a child does not open. -/
theorem wp_calculateNodeSize_step {E : Crash → Prop} (h : w.store.Inv) {fuel : Nat}
    (hn : w.store.Live n)
    (hE : ∀ c ∈ w.store.links.children n,
      ¬ (∀ e, w.store.entry c = some e → w.Readable cfg e.filenameVdir) →
        ∀ crash : Crash, crash.Visible → E crash)
    (ih : ∀ c ∈ w.store.links.children n,
      wp (calculateNodeSize cfg fuel c (w.component cfg c))
        (fun k w' => k = w.sizeWithin cfg fuel c ∧ w' = w) E w)
    {ic : Option Icalcomponent} (hic : ic = w.component cfg n ∨ w.store.links.children n ≠ []) :
    wp (calculateNodeSize cfg (fuel + 1) n ic)
      (fun k w' => k = w.sizeWithin cfg (fuel + 1) n ∧ w' = w) E w := by
  unfold calculateNodeSize World.sizeWithin
  rw [wp_bind_ok (nodeIsDirectory_run_of hn hic)]
  cases hdir : w.isDirectory cfg n with
  | false =>
    -- A file has no children, so the component is its own.
    have hchildren : w.store.links.children n = [] := by
      by_contra hne
      simp [World.isDirectory, hne] at hdir
    obtain rfl := hic.resolve_right (not_not.2 hchildren)
    exact ⟨rfl, rfl⟩
  | true =>
    obtain ⟨t, ht⟩ := exists_heap hn
    have hchildren := links_children_eq ht
    simp only [if_true]
    rw [wp_bind_ok (onStore_run (deref_run ht)), wp_bind, ← hchildren]
    refine wp_mono (wp_mapM (g := w.sizeWithin cfg fuel) fun c hc => ?_) (fun sizes w' hw' => ?_)
      fun _ hc => hc
    · exact wp_getIcalcomponentFromNode (h.live_child hc) (hE c hc) fun _ => ih c hc
    · obtain ⟨rfl, rfl⟩ := hw'
      exact ⟨rfl, rfl⟩

/-- With this much depth `calculate_node_size` comes to an end, and more changes nothing. -/
structure World.SizedWithin (cfg : Config Text) (w : World Text) (fuel : Nat) (n : NodeId) :
    Prop where
  run : ∀ ic, ic = w.component cfg n ∨ w.store.links.children n ≠ [] →
    wp (calculateNodeSize cfg fuel n ic) (fun k w' => k = w.sizeWithin cfg fuel n ∧ w' = w)
      Crash.Visible w
  stable : ∀ more, fuel ≤ more → w.sizeWithin cfg more n = w.sizeWithin cfg fuel n

theorem sizedWithin_step (h : w.store.Inv) {fuel : Nat} (hn : w.store.Live n)
    (ih : ∀ c ∈ w.store.links.children n, w.SizedWithin cfg fuel c) :
    w.SizedWithin cfg (fuel + 1) n where
  run ic hic := wp_calculateNodeSize_step h hn (fun _ _ _ _ hvis => hvis)
    (fun c hc => (ih c hc).run _ (.inl rfl)) hic
  stable more hmore := by
    obtain ⟨m, rfl⟩ : ∃ m, more = m + 1 := ⟨more - 1, by omega⟩
    unfold World.sizeWithin
    have hsame : (w.store.links.children n).map (w.sizeWithin cfg m) =
        (w.store.links.children n).map (w.sizeWithin cfg fuel) :=
      List.map_congr_left fun c hc => (ih c hc).stable m (by omega)
    rw [hsame]

/-- Below the root the number of allocations is depth enough. -/
theorem sizedWithin_of_below (h : w.store.Inv) {fuel : Nat}
    (hn : w.store.links.Below w.store.fuseRoot n) (hfuel : w.store.nextId ≤ fuel) :
    w.SizedWithin cfg fuel n := by
  refine h.wf.induction_down h.root_parent (Finset.range w.store.nextId)
    (motive := w.SizedWithin cfg) (fun m hm => ?_) (fun fuel m hm ih => ?_) hn ?_
  · exact Finset.mem_range.2 (h.lt_nextId m (h.live_of_below hm))
  · exact sizedWithin_step h (h.live_of_below hm) ih
  · simpa using hfuel

/-- The size of a node is the sum of the sizes below it, or the length of its description. -/
theorem size_eq (cfg : Config Text) (h : w.store.Inv) (hn : w.store.links.Below w.store.fuseRoot n) :
    w.size cfg n =
      if w.isDirectory cfg n then ((w.store.links.children n).map (w.size cfg)).sum % 2 ^ 64
      else icalcomponentGetDescriptionSize (w.component cfg n) := by
  have hsame : (w.store.links.children n).map (w.sizeWithin cfg w.store.nextId) =
      (w.store.links.children n).map (w.size cfg) := by
    refine List.map_congr_left fun c hc => ?_
    have hbelow := hn.step (h.wf.mem_children.1 hc)
    exact ((sizedWithin_of_below h hbelow le_rfl).stable _ (Nat.le_succ _)).symm
  rw [World.size, World.sizeWithin, hsame]

/-! ## The status of a node -/

/-- What `get_node_stat` returns for a node. -/
def World.nodeStat (cfg : Config Text) (w : World Text) (n : NodeId) : Stat :=
  if (w.store.entry n).isNone then ⟨0, 0, 0⟩
  else if w.isDirectory cfg n then ⟨0o040444, 2, Int.bmod (w.size cfg n) (2 ^ 64)⟩
  else ⟨0o100774, 1, Int.bmod (w.size cfg n) (2 ^ 64)⟩

theorem nodeStat_of_entry (cfg : Config Text) {e : AgendaEntry} (he : w.store.entry n = some e) :
    w.nodeStat cfg n =
      if w.isDirectory cfg n then ⟨0o040444, 2, Int.bmod (w.size cfg n) (2 ^ 64)⟩
      else ⟨0o100774, 1, Int.bmod (w.size cfg n) (2 ^ 64)⟩ := by
  simp [World.nodeStat, he]

theorem getNodeStat_wp (h : w.store.Inv) (hn : w.store.links.Below w.store.fuseRoot n)
    {ic : Option Icalcomponent} (hic : ic = w.component cfg n ∨ w.store.links.children n ≠ []) :
    wp (getNodeStat cfg n ic) (fun st w' => st = w.nodeStat cfg n ∧ w' = w) Crash.Visible w := by
  have hlive := h.live_of_below hn
  unfold getNodeStat World.nodeStat
  rw [wp_bind_ok (onStore_run (isRootNode_run hlive))]
  cases he : w.store.entry n with
  -- The root has no entry and leaves the status zero.
  | none => exact ⟨rfl, rfl⟩
  | some e =>
    simp only [Option.isNone_some, Bool.false_eq_true, if_false]
    rw [wp_bind_ok (onStore_run (getVdirFilepath_run he cfg.vdir)), wp_bind_ok (get_run w)]
    split
    · exact .inl rfl
    · rw [wp_bind_ok (nodeIsDirectory_run_of hlive hic)]
      have hsize := size_eq cfg h hn
      cases hdir : w.isDirectory cfg n with
      -- Without children the component is the node's own.
      | false =>
        have hchildren : w.store.links.children n = [] := by
          by_contra hne
          simp [World.isDirectory, hne] at hdir
        obtain rfl := hic.resolve_right (not_not.2 hchildren)
        rw [hdir] at hsize
        rw [hsize]
        exact ⟨rfl, rfl⟩
      -- The size adds up the sizes of the children, one level down.
      | true =>
        simp only [if_true]
        rw [wp_bind_ok (get_run w), wp_bind]
        refine wp_mono ((sizedWithin_of_below h hn (Nat.le_succ _)).run ic hic)
          (fun k w' hk => ?_) fun _ hc => hc
        obtain ⟨rfl, rfl⟩ := hk
        exact ⟨rfl, rfl⟩

/-! ## The two paths -/

/-- `fuse_getattr` returns the status of the node; the root has its own. -/
theorem fuseGetattr_wp (h : w.store.Inv) {path : CStr} (hn : w.store.lookup path = some n) :
    wp (fuseGetattr cfg path)
      (fun r w' => r = (0, if path = [slash] then ⟨0o040444, 2, 0⟩ else w.nodeStat cfg n) ∧ w' = w)
      Crash.Visible w := by
  unfold fuseGetattr
  split
  · exact ⟨rfl, rfl⟩
  · refine wp_getNodeByPath h (fun _ => .inr (.inr rfl)) ?_
    rw [hn]
    refine wp_getIcalcomponentFromNode (h.live_of_lookup hn) (fun _ _ hvis => hvis) fun _ => ?_
    rw [wp_bind]
    refine wp_mono (getNodeStat_wp h (h.wf.resolve_below hn) (.inl rfl)) (fun st w' hst => ?_)
      fun _ hc => hc
    obtain ⟨rfl, rfl⟩ := hst
    exact ⟨rfl, rfl⟩

/-- What `fuse_readdir` hands out for a child: its name, and the status of the directory. -/
def World.fillerCall (cfg : Config Text) (w : World Text) (d c : NodeId) : FillerCall :=
  ⟨w.store.name c, some (w.nodeStat cfg d)⟩

/-- The children are handed out in their order, as far as the listing goes. -/
theorem fillChildren_wp (h : w.store.Inv) (full : List FillerCall → Bool) {d : NodeId}
    (hd : w.store.links.Below w.store.fuseRoot d) {children : List NodeId}
    (hchildren : ∀ c ∈ children, c ∈ w.store.links.children d) (handed : List FillerCall) :
    wp (fillChildren cfg full d children handed)
      (fun r w' => (∃ cs, cs <+: children ∧ r.2 = handed ++ cs.map (w.fillerCall cfg d)) ∧ w' = w)
      Crash.Visible w := by
  -- Induction on the children that are left, with any calls made before.
  induction children generalizing handed with
  | nil => exact ⟨⟨[], List.nil_prefix, (List.append_nil _).symm⟩, rfl⟩
  | cons c children ih =>
    have hc := hchildren c List.mem_cons_self
    have hne : w.store.links.children d ≠ [] := List.ne_nil_of_mem hc
    unfold fillChildren
    refine wp_getIcalcomponentFromNode (h.live_child hc) (fun _ _ hvis => hvis) fun _ => ?_
    cases w.component cfg c with
    | none => exact .inl rfl
    | some ic =>
      rw [wp_bind]
      -- The status is that of the directory: it has a child, so the component does not count.
      refine wp_mono (getNodeStat_wp h hd (.inr hne)) (fun st w' hst => ?_) fun _ hc => hc
      obtain ⟨rfl, rfl⟩ := hst
      rw [wp_bind_ok (onStore_run (getNodeFilename_run (h.live_child hc)))]
      simp only
      split
      · exact ⟨⟨[c], by simp, rfl⟩, rfl⟩
      · refine wp_mono (ih (fun m hm => hchildren m (List.mem_cons_of_mem _ hm)) _)
          (fun r w'' hr => ?_) fun _ hc => hc
        obtain ⟨⟨cs, hcs, hr⟩, rfl⟩ := hr
        refine ⟨⟨c :: cs, List.cons_prefix_cons.2 ⟨rfl, hcs⟩, ?_⟩, rfl⟩
        rw [hr, List.append_assoc, List.map_cons]
        rfl

theorem fuseReaddir_wp (h : w.store.Inv) (full : List FillerCall → Bool) {path : CStr}
    {d : NodeId} (hd : w.store.lookup path = some d) :
    wp (fuseReaddir cfg full path)
      (fun r w' => (∃ cs, cs <+: w.store.links.children d ∧
        r.2 = ⟨bytes ".", none⟩ :: ⟨bytes "..", none⟩ :: cs.map (w.fillerCall cfg d)) ∧ w' = w)
      Crash.Visible w := by
  obtain ⟨t, ht⟩ := exists_heap (h.live_of_lookup hd)
  unfold fuseReaddir
  refine wp_getNodeByPath h (fun _ => .inr (.inr rfl)) ?_
  rw [hd]
  simp only
  rw [wp_bind_ok (onStore_run (deref_run ht)), ← links_children_eq ht]
  exact fillChildren_wp h full (h.wf.resolve_below hd) (fun c hc => hc) _

/-! ## When they agree -/

/-- The file type bits of `st_mode`. -/
def Stat.fileType (st : Stat) : Nat := st.stMode &&& 0o170000

/-- The two have the same file type, size and link count. -/
structure Stat.Agree (st st' : Stat) : Prop where
  fileType : st.fileType = st'.fileType
  stSize : st.stSize = st'.stSize
  stNlink : st.stNlink = st'.stNlink

/-- Sizes that fit in a `size_t` stay different as an `off_t`. -/
theorem bmod_inj {a b : Nat} (ha : a < 2 ^ 64) (hb : b < 2 ^ 64) :
    Int.bmod a (2 ^ 64) = Int.bmod b (2 ^ 64) ↔ a = b := by
  simp only [Int.bmod_def]
  omega

theorem size_lt_of_directory (h : w.store.Inv) (hn : w.store.links.Below w.store.fuseRoot n)
    (hdir : w.isDirectory cfg n = true) : w.size cfg n < 2 ^ 64 := by
  rw [size_eq cfg h hn, if_pos hdir]
  exact Nat.mod_lt _ (by decide)

/-- The size of a directory is that of one child exactly if the others have none. -/
theorem size_eq_child_iff (h : w.store.Inv) {d c : NodeId}
    (hd : w.store.links.Below w.store.fuseRoot d) (hc : c ∈ w.store.links.children d)
    (hcdir : w.isDirectory cfg c = true) :
    w.size cfg d = w.size cfg c ↔
      (((w.store.links.children d).erase c).map (w.size cfg)).sum % 2 ^ 64 = 0 := by
  have hddir : w.isDirectory cfg d = true := by
    simp [World.isDirectory, List.ne_nil_of_mem hc]
  have hlt := size_lt_of_directory h (hd.step (h.wf.mem_children.1 hc)) hcdir
  have hsum : ((w.store.links.children d).map (w.size cfg)).sum =
      w.size cfg c + (((w.store.links.children d).erase c).map (w.size cfg)).sum := by
    rw [((List.perm_cons_erase hc).map _).sum_nat, List.map_cons, List.sum_cons]
  rw [size_eq cfg h hd, if_pos hddir, hsum]
  omega

theorem agree_nodeStat_iff (h : w.store.Inv) {d c : NodeId}
    (hd : w.store.links.Below w.store.fuseRoot d) (hc : c ∈ w.store.links.children d) :
    Stat.Agree (w.nodeStat cfg d) (w.nodeStat cfg c) ↔
      d ≠ w.store.fuseRoot ∧ w.isDirectory cfg c = true ∧
        (((w.store.links.children d).erase c).map (w.size cfg)).sum % 2 ^ 64 = 0 := by
  have hparent := h.wf.mem_children.1 hc
  have hcbelow := hd.step hparent
  obtain ⟨e, he⟩ := h.entry_of_live c (h.live_child hc) (h.child_ne_root hparent)
  have hddir : w.isDirectory cfg d = true := by
    simp [World.isDirectory, List.ne_nil_of_mem hc]
  by_cases hroot : d = w.store.fuseRoot
  · -- The status of the root has no file type at all.
    refine iff_of_false (fun hagree => ?_) (fun hcond => hcond.1 hroot)
    have hdstat : w.nodeStat cfg d = ⟨0, 0, 0⟩ := by
      simp [World.nodeStat, hroot, h.root_entry]
    have hlink := hagree.stNlink
    rw [hdstat, nodeStat_of_entry cfg he] at hlink
    split at hlink
    · exact nomatch hlink
    · exact nomatch hlink
  · obtain ⟨e', he'⟩ := h.entry_of_live d (h.live_of_below hd) hroot
    have hdstat := nodeStat_of_entry cfg he'
    have hcstat := nodeStat_of_entry cfg he
    rw [if_pos hddir] at hdstat
    cases hcdir : w.isDirectory cfg c with
    -- A file has one link, a directory two.
    | false =>
      rw [hcdir] at hcstat
      refine iff_of_false (fun hagree => ?_) (fun hcond => absurd hcond.2.1 (by decide))
      have hlink := hagree.stNlink
      rw [hdstat, hcstat] at hlink
      exact nomatch hlink
    | true =>
      rw [if_pos hcdir] at hcstat
      -- Two directories differ in their size only.
      rw [hdstat, hcstat, ← size_eq_child_iff h hd hc hcdir]
      constructor
      · intro hagree
        refine ⟨hroot, rfl, ?_⟩
        have hsize := hagree.stSize
        simp only at hsize
        rwa [bmod_inj (size_lt_of_directory h hd hddir) (size_lt_of_directory h hcbelow hcdir)]
          at hsize
      · rintro ⟨_, _, hsize⟩
        rw [hsize]
        exact ⟨rfl, rfl, rfl⟩

/-- For the child that is handed out as number `i`, the status in the listing is the one of its
    path exactly if both are directories with a file and the other children have no size. -/
theorem stat_paths_agree_iff (h : Reachable cfg w) {path : CStr} {d : NodeId}
    (hd : w.store.lookup path = some d) {full : List FillerCall → Bool} {status : Int}
    {handed : List FillerCall} (hread : fuseReaddir cfg full path w = .ok ((status, handed), w'))
    {i : Nat} {c : NodeId} (hc : (w.store.links.children d)[i]? = some c) {call : FillerCall}
    (hcall : handed[i + 2]? = some call) {childPath : CStr}
    (hchild : w.store.lookup childPath = some c) {attr : Int} {st' : Stat} {w'' : World Text}
    (hattr : fuseGetattr cfg childPath w = .ok ((attr, st'), w'')) :
    (∃ st, call = ⟨w.store.name c, some st⟩ ∧ Stat.Agree st st') ↔
      d ≠ w.store.fuseRoot ∧ w.isDirectory cfg c = true ∧
        (((w.store.links.children d).erase c).map (w.size cfg)).sum % 2 ^ 64 = 0 := by
  have hinv := h.sound.toInv
  have hmem := List.mem_of_getElem? hc
  have hcroot : c ≠ w.store.fuseRoot := hinv.child_ne_root (hinv.wf.mem_children.1 hmem)
  obtain ⟨⟨cs, hcs, hhanded⟩, _⟩ := (fuseReaddir_wp hinv full hd).ok hread
  obtain ⟨hstat, _⟩ := (fuseGetattr_wp hinv hchild).ok hattr
  have hne : childPath ≠ [slash] := by
    rintro rfl
    exact hcroot (Option.some.inj hchild).symm
  rw [if_neg hne, Prod.mk.injEq] at hstat
  -- The call of number `i` is the one for `c`.
  have hcalled : call = w.fillerCall cfg d c := by
    subst hhanded
    rw [List.getElem?_cons_succ, List.getElem?_cons_succ, List.getElem?_map] at hcall
    obtain ⟨c', hc', rfl⟩ := Option.map_eq_some_iff.1 hcall
    obtain ⟨rest, hrest⟩ := hcs
    have hlt := (List.getElem?_eq_some_iff.1 hc').1
    rw [← hrest, List.getElem?_append_left hlt, hc'] at hc
    rw [Option.some.inj hc]
  rw [hcalled, hstat.2, ← agree_nodeStat_iff hinv (hinv.wf.resolve_below hd) hmem]
  constructor
  · rintro ⟨st, hst, hagree⟩
    cases hst
    exact hagree
  · intro hagree
    exact ⟨_, rfl, hagree⟩

/-- A directory whose only child is a directory. -/
def nestedDirectory : List (CStr × Icalcomponent) :=
  [(bytes "d.ics", sampleNote (bytes "d") (bytes "Dir") [sampleDirectory]),
    (bytes "n.ics", sampleNote (bytes "n") (bytes "Sub") [sampleParent (bytes "d"), sampleDirectory])]

theorem reachable_nestedDirectory : Reachable sampleConfig (sampleMount nestedDirectory {}) :=
  run_sampleMount {} (by decide) (by decide) trivial (by decide +kernel)

theorem stat_paths_agree_iff_nestedDirectory :
    ∃ handed w' w'' call st st', fuseReaddir sampleConfig (fun _ => false) (bytes "/Dir")
        (sampleMount nestedDirectory {}) = .ok ((0, handed), w') ∧
      fuseGetattr sampleConfig (bytes "/Dir/Sub") (sampleMount nestedDirectory {}) =
        .ok ((0, st'), w'') ∧
      handed[2]? = some call ∧ call = ⟨bytes "Sub", some st⟩ ∧ Stat.Agree st st' := by
  obtain ⟨⟨status, handed⟩, hread, htest⟩ := Prog.run_of_check
    (m := fuseReaddir sampleConfig (fun _ => false) (bytes "/Dir"))
    (s := sampleMount nestedDirectory {})
    (f := fun r _ => decide (r.1 = 0 ∧ r.2[2]?.isSome = true)) (by decide +kernel)
  obtain ⟨⟨attr, st'⟩, hattr, hstatus⟩ := Prog.run_of_check
    (m := fuseGetattr sampleConfig (bytes "/Dir/Sub")) (s := sampleMount nestedDirectory {})
    (f := fun r _ => decide (r.1 = 0)) (by decide +kernel)
  obtain ⟨rfl, hsome⟩ : status = 0 ∧ handed[2]?.isSome = true := of_decide_eq_true htest
  obtain rfl : attr = 0 := of_decide_eq_true hstatus
  obtain ⟨call, hcall⟩ := Option.isSome_iff_exists.1 hsome
  have hname : (sampleMount nestedDirectory {}).store.name 2 = bytes "Sub" := by decide +kernel
  obtain ⟨st, hst, hagree⟩ := (stat_paths_agree_iff reachable_nestedDirectory (d := 1)
    (by decide +kernel) hread (i := 0) (c := 2) (by decide +kernel) hcall (by decide +kernel)
    hattr).2 ⟨by decide +kernel, by decide +kernel, by decide +kernel⟩
  rw [hname] at hst
  exact ⟨handed, _, _, call, st, st', hread, hattr, hcall, hst, hagree⟩

/-- The listing of the root gives its notes the status of the root, which has no file type. -/
theorem not_all_stat_paths_agree :
    ¬ ∀ (w w' w'' : World Icalcomponent) (path childPath : CStr) (d c : NodeId)
      (full : List FillerCall → Bool) (status attr : Int) (handed : List FillerCall) (i : Nat)
      (call : FillerCall) (st' : Stat), Reachable sampleConfig w → w.store.lookup path = some d →
      fuseReaddir sampleConfig full path w = .ok ((status, handed), w') →
      (w.store.links.children d)[i]? = some c → handed[i + 2]? = some call →
      w.store.lookup childPath = some c →
      fuseGetattr sampleConfig childPath w = .ok ((attr, st'), w'') →
        ∃ st, call = ⟨w.store.name c, some st⟩ ∧ Stat.Agree st st' := by
  intro hall
  obtain ⟨⟨status, handed⟩, hread, htest⟩ := Prog.run_of_check
    (m := fuseReaddir sampleConfig (fun _ => false) (bytes "/"))
    (s := sampleMount nestedDirectory {})
    (f := fun r _ => decide (r.2[2]? = some (FillerCall.mk (bytes "Dir") (some ⟨0, 0, 0⟩))))
    (by decide +kernel)
  obtain ⟨⟨attr, st'⟩, hattr, hstat⟩ := Prog.run_of_check
    (m := fuseGetattr sampleConfig (bytes "/Dir")) (s := sampleMount nestedDirectory {})
    (f := fun r _ => decide (r.2.stNlink = 2)) (by decide +kernel)
  obtain ⟨st, hst, hagree⟩ := hall _ _ _ _ _ 0 1 _ _ _ _ 0 _ _ reachable_nestedDirectory
    (by decide +kernel) hread (by decide +kernel) (of_decide_eq_true htest) (by decide +kernel) hattr
  have hzero : st = ⟨0, 0, 0⟩ := (Option.some.inj (congrArg FillerCall.stbuf hst)).symm
  have hlink := hagree.stNlink
  rw [hzero, of_decide_eq_true hstat] at hlink
  exact nomatch hlink

end Agendafs
