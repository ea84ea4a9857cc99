import Agendafs.Spec.StatPaths
import Agendafs.Spec.TreeSteps

/-!
# Reading a mounted file system

On a mounted file system the calls that read always return, and what they return is
read off the tree of files: its entry at the path, or the names inside it.

## Key results

- `fuseOpen_run`, `fuseGetattr_run`, `fuseReaddir_run`: that they return
- `openFile_mounted`, `read_mounted`, `getattr_mounted`, `readdir_mounted`: their
  results, from the tree of files
-/

namespace Agendafs

open Store Prog

variable {Text : Type} {cfg : Config Text} {w w' : World Text} {n d : NodeId}

/-! ## The path of a call -/

/-- The path the kernel passes for these segments. -/
def kernelPath (segments : List CStr) : CStr :=
  if segments = [] then [slash] else normalPath segments

/-- Segments that fit the array of `get_node_by_path`. -/
structure ShortPath (segments : List CStr) : Prop where
  proper : ProperSegments segments
  length : segments.length ≤ 255

section Path

variable {segments : List CStr}

theorem splitPath_kernelPath (h : ProperSegments segments) :
    splitPath (kernelPath segments) = segments := by
  unfold kernelPath
  split
  · rename_i hnil
    rw [hnil]
    rfl
  · exact splitPath_normalPath h

theorem kernelPath_concat (dir : List CStr) (name : CStr) :
    kernelPath (dir ++ [name]) = normalPath (dir ++ [name]) := if_neg (List.concat_ne_nil name dir)

theorem ShortPath.few (h : ShortPath segments) :
    (splitPath (kernelPath segments)).length ≤ 255 := by
  rw [splitPath_kernelPath h.proper]
  exact h.length

theorem lookup_kernelPath (s : Store) (h : ProperSegments segments) :
    s.lookup (kernelPath segments) = s.namespace segments := by
  rw [Store.lookup, splitPath_kernelPath h, Store.namespace]

theorem not_hidden_kernelPath (segments : List CStr) :
    pathIsHidden (kernelPath segments) = false := by
  unfold kernelPath
  split
  · rfl
  · rename_i hne
    obtain ⟨path, hpath⟩ := exists_normalPath hne
    rw [hpath]
    rfl

theorem kernelPath_eq_root_iff (h : ProperSegments segments) :
    kernelPath segments = [slash] ↔ segments = [] := by
  constructor
  · intro hroot
    have hsplit := splitPath_kernelPath h
    rw [hroot] at hsplit
    exact hsplit.symm
  · exact fun hnil => if_pos hnil

end Path

/-! ## The calls on files that open -/

theorem calculateNodeSize_wp (h : w.store.Inv) (hopens : w.Opens cfg)
    (hn : w.store.links.Below w.store.fuseRoot n) {fuel : Nat} (hfuel : w.store.nextId ≤ fuel)
    {ic : Option Icalcomponent} (hic : ic = w.component cfg n ∨ w.store.links.children n ≠ []) :
    wp (calculateNodeSize cfg fuel n ic) (fun k w' => k = w.sizeWithin cfg fuel n ∧ w' = w)
      (fun _ => False) w := by
  refine h.wf.induction_down h.root_parent (Finset.range w.store.nextId)
    (motive := fun fuel n => ∀ ic, ic = w.component cfg n ∨ w.store.links.children n ≠ [] →
      wp (calculateNodeSize cfg fuel n ic) (fun k w' => k = w.sizeWithin cfg fuel n ∧ w' = w)
        (fun _ => False) w) (fun m hm => ?_) (fun fuel m hm ih ic hic => ?_) hn ?_ ic hic
  · exact Finset.mem_range.2 (h.lt_nextId m (h.live_of_below hm))
  · exact wp_calculateNodeSize_step h (h.live_of_below hm) (fun c _ hstop => absurd (hopens c) hstop)
      (fun c hc => ih c hc _ (.inl rfl)) hic
  · simpa using hfuel

theorem getNodeStat_run (h : w.store.Inv) (hopens : w.Opens cfg)
    (hn : w.store.links.Below w.store.fuseRoot n) {ic : Option Icalcomponent}
    (hic : ic = w.component cfg n ∨ w.store.links.children n ≠ []) :
    getNodeStat cfg n ic w = .ok (w.nodeStat cfg n, w) := by
  have hstat := getNodeStat_wp h hn hic
  have hlive := h.live_of_below hn
  have hreturns : ∃ st, getNodeStat cfg n ic w = .ok (st, w) := by
    unfold getNodeStat
    rw [bind_run_ok (onStore_run (isRootNode_run hlive))]
    cases he : w.store.entry n with
    | none => exact ⟨_, rfl⟩
    | some e =>
      obtain ⟨f, hf, _⟩ := hopens n e he
      simp only [Option.isNone_some, Bool.false_eq_true, if_false]
      rw [bind_run_ok (onStore_run (getVdirFilepath_run he cfg.vdir)), bind_run_ok (get_run w), hf]
      simp only [Option.isNone_some, Bool.false_eq_true, if_false]
      rw [bind_run_ok (nodeIsDirectory_run_of hlive hic)]
      cases w.isDirectory cfg n with
      | false => exact ⟨_, rfl⟩
      | true =>
        obtain ⟨k, w', hrun, _, hw'⟩ :=
          (calculateNodeSize_wp h hopens hn (Nat.le_succ w.store.nextId) hic).returns
        simp only [if_true]
        rw [hw'] at hrun
        rw [bind_run_ok (get_run w), bind_run_ok hrun]
        exact ⟨_, rfl⟩
  obtain ⟨st, hrun⟩ := hreturns
  rw [hrun, (hstat.ok hrun).1]

theorem fuseGetattr_run (h : w.store.Inv) (hopens : w.Opens cfg) {path : CStr}
    (hlen : (splitPath path).length ≤ 255) :
    fuseGetattr cfg path w =
      .ok (match w.store.lookup path with
        | none => (-ENOENT, ⟨0, 0, 0⟩)
        | some n => (0, if path = [slash] then ⟨0o040444, 2, 0⟩ else w.nodeStat cfg n), w) := by
  unfold fuseGetattr
  by_cases hroot : path = [slash]
  · subst hroot
    rfl
  · rw [if_neg hroot, bind_run_ok (getNodeByPath_found h hlen)]
    cases hn : w.store.lookup path with
    | none => rfl
    | some n =>
      simp only [if_neg hroot]
      rw [bind_run_ok (getIcalcomponentFromNode_opens (h.live_of_lookup hn) (hopens n)),
        bind_run_ok (getNodeStat_run h hopens (h.wf.resolve_below hn) (.inl rfl))]
      rfl

theorem fuseOpen_run (h : w.store.Inv) {path : CStr} (hlen : (splitPath path).length ≤ 255) :
    fuseOpen path w = .ok (if (w.store.lookup path).isSome then 0 else -ENOENT, w) := by
  unfold fuseOpen
  rw [bind_run_ok (getNodeByPath_found h hlen)]
  cases w.store.lookup path <;> rfl

/-- With room for all names the loop of `fuse_readdir` hands out every child. -/
theorem fillChildren_run (h : w.store.Inv) (hparses : w.Parses cfg)
    (hd : w.store.links.Below w.store.fuseRoot d) {children : List NodeId}
    (hchildren : ∀ c ∈ children, c ∈ w.store.links.children d) (handed : List FillerCall) :
    fillChildren cfg (fun _ => false) d children handed w =
      .ok ((0, handed ++ children.map (w.fillerCall cfg d)), w) := by
  induction children generalizing handed with
  | nil =>
    rw [List.map_nil, List.append_nil]
    rfl
  | cons c children ih =>
    have hc := hchildren c List.mem_cons_self
    have hlive := h.live_child hc
    obtain ⟨e, he⟩ := h.entry_of_live c hlive fun hroot => by
      have hparent := h.wf.mem_children.1 hc
      rw [hroot, h.root_parent] at hparent
      exact nomatch hparent
    obtain ⟨ic, hic⟩ := Option.isSome_iff_exists.1 (hparses c e he).2
    have hread := getIcalcomponentFromNode_run he (hparses c e he).1
    rw [component_of_entry he, hic] at hread
    unfold fillChildren
    rw [bind_run_ok hread]
    simp only
    rw [bind_run_ok (getNodeStat_run h hparses.opens hd (.inr (List.ne_nil_of_mem hc))),
      bind_run_ok (onStore_run (getNodeFilename_run hlive))]
    simp only [Bool.false_eq_true, if_false]
    rw [ih (fun m hm => hchildren m (List.mem_cons_of_mem _ hm)), List.append_assoc]
    rfl

theorem fuseReaddir_run (h : w.store.Inv) (hparses : w.Parses cfg) {path : CStr}
    (hlen : (splitPath path).length ≤ 255) :
    fuseReaddir cfg (fun _ => false) path w =
      .ok (match w.store.lookup path with
        | none => (-ENOENT, [⟨bytes ".", none⟩, ⟨bytes "..", none⟩])
        | some d => (0, [⟨bytes ".", none⟩, ⟨bytes "..", none⟩] ++
            (w.store.links.children d).map (w.fillerCall cfg d)), w) := by
  unfold fuseReaddir
  rw [bind_run_ok (getNodeByPath_found h hlen)]
  cases hd : w.store.lookup path with
  | none => rfl
  | some d =>
    obtain ⟨t, ht⟩ := exists_heap (h.live_of_lookup hd)
    simp only
    rw [bind_run_ok (onStore_run (deref_run ht)), ← links_children_eq ht,
      fillChildren_run h hparses (h.wf.resolve_below hd) fun c hc => hc]

/-! ## What is at a path -/

section Mounted

variable {path dir : List CStr}

theorem seenAs_eq_directory_iff : w.seenAs cfg n = .directory ↔ w.isDirectory cfg n = true := by
  unfold World.seenAs
  split
  · rename_i hdir
    exact iff_of_true rfl hdir
  · rename_i hdir
    exact iff_of_false nofun hdir

theorem exists_directory (h : Mounted cfg w) (hdir : h.tree.entry dir = some .directory) :
    ∃ p, w.store.namespace dir = some p ∧ w.isDirectory cfg p = true := by
  obtain ⟨p, hp, hseen⟩ := Option.map_eq_some_iff.1 hdir
  exact ⟨p, hp, seenAs_eq_directory_iff.1 hseen⟩

theorem exists_file (h : Mounted cfg w) {text : CStr}
    (hfile : h.tree.entry path = some (.file text)) :
    ∃ n e c, w.store.namespace path = some n ∧ w.store.entry n = some e ∧
      w.component cfg n = some c ∧ IsJournal c ∧ w.isDirectory cfg n = false ∧
      isDirectoryComponent cfg.ical c = false ∧ noteContent c = text := by
  obtain ⟨n, hn, hseen⟩ := Option.map_eq_some_iff.1 hfile
  have hdir : w.isDirectory cfg n = false := by
    by_contra hdir
    rw [seenAs_eq_directory_iff.2 (by simpa using hdir)] at hseen
    cases hseen
  cases he : w.store.entry n with
  | none =>
    rw [seenAs_of_entry_none he] at hseen
    cases hseen
  | some e =>
    obtain ⟨c, hc, hjournal⟩ := (h.journals n e he).journal
    have hcomponent : w.component cfg n = some c := by rw [component_of_entry he, hc]
    rw [h.seenAs_eq (live_of_namespace h.inv hn), hcomponent, entryOf] at hseen
    cases hcdir : isDirectoryComponent cfg.ical c with
    | true =>
      rw [hcdir] at hseen
      cases hseen
    | false =>
      rw [hcdir] at hseen
      exact ⟨n, e, c, hn, he, hcomponent, hjournal, hdir, hcdir, TreeFs.Entry.file.inj hseen⟩

theorem tree_entry_some (h : Mounted cfg w) (hn : w.store.namespace path = some n) :
    h.tree.entry path = some (w.seenAs cfg n) := by
  rw [tree_entry, hn, Option.map_some]

theorem seenAs_eq_file (hdir : w.isDirectory cfg n = false) :
    w.seenAs cfg n = .file ((w.component cfg n).elim [] noteContent) := by
  unfold World.seenAs
  rw [hdir, if_neg Bool.false_ne_true]

/-! ## The calls on a mounted file system -/

theorem openFile_mounted (h : Mounted cfg w) (hpath : ShortPath path) :
    fuseOpen (kernelPath path) w = .ok (if (h.tree.entry path).isSome then 0 else -ENOENT, w) := by
  rw [fuseOpen_run h.inv hpath.few, lookup_kernelPath _ hpath.proper, tree_entry, Option.isSome_map]

/-- What is read of a text. -/
def readText (text : CStr) (size offset : Nat) : Int × List UInt8 :=
  if text.length ≤ offset then (0, [])
  else
    let bytesToRead := min (text.length - offset) size
    (intOfSize bytesToRead, (text.drop offset).take bytesToRead)

/-- Reading a file hands out its text. -/
theorem read_mounted (h : Mounted cfg w) (hpath : ShortPath path) (size offset : Nat)
    (hentry : h.tree.entry path ≠ some .directory) :
    fuseRead cfg (kernelPath path) size offset w =
      .ok (match h.tree.entry path with
        | some (.file text) => readText text size offset
        | _ => (-ENOENT, []), w) := by
  cases hfound : h.tree.entry path with
  | none =>
    unfold fuseRead
    rw [bind_run_ok (getNodeByPath_found h.inv hpath.few), lookup_kernelPath _ hpath.proper,
      (tree_eq_none h.inv).1 hfound]
    rfl
  | some found =>
    cases found with
    | directory => exact absurd hfound hentry
    | file text =>
      obtain ⟨n, e, c, hn, he, hc, _, _, _, rfl⟩ := exists_file h hfound
      have hat : w.OpensAt cfg (kernelPath path) n e.filenameVdir :=
        ⟨hpath.few, (lookup_kernelPath _ hpath.proper).trans hn, by rw [he]; rfl,
          (h.journals n e he).readable⟩
      rw [fuseRead_run h.inv hat, ← component_of_entry he, hc]
      rfl

/-- The size of a file is the length of its text. -/
theorem getattr_mounted (h : Mounted cfg w) (hpath : ShortPath path) :
    ∃ stSize, fuseGetattr cfg (kernelPath path) w =
      .ok (match h.tree.entry path with
        | none => (-ENOENT, ⟨0, 0, 0⟩)
        | some .directory => (0, ⟨0o040444, 2, stSize⟩)
        | some (.file text) => (0, ⟨0o100774, 1, Int.bmod text.length (2 ^ 64)⟩), w) := by
  have hrun : fuseGetattr cfg _ w = _ := fuseGetattr_run h.inv h.parses.opens hpath.few
  rw [lookup_kernelPath _ hpath.proper] at hrun
  cases hfound : h.tree.entry path with
  | none =>
    rw [(tree_eq_none h.inv).1 hfound] at hrun
    exact ⟨0, hrun⟩
  | some found =>
    cases found with
    | directory =>
      obtain ⟨n, hn, hdir⟩ := exists_directory h hfound
      simp only [hn, kernelPath_eq_root_iff hpath.proper] at hrun
      by_cases hnil : path = []
      · rw [if_pos hnil] at hrun
        exact ⟨0, hrun⟩
      · obtain ⟨dir, name, rfl⟩ := (List.eq_nil_or_concat' path).resolve_left hnil
        obtain ⟨e, he⟩ := exists_entry_of_namespace h.inv hn
        rw [if_neg hnil, nodeStat_of_entry cfg he, if_pos hdir] at hrun
        exact ⟨_, hrun⟩
    | file text =>
      obtain ⟨n, e, c, hn, he, hc, _, hdir, _, rfl⟩ := exists_file h hfound
      have hnil : path ≠ [] := TreeFs.ne_nil_of_file hfound
      have hsize : w.size cfg n = (noteContent c).length := by
        rw [size_eq cfg h.inv (h.inv.wf.resolve_below hn), hdir, if_neg Bool.false_ne_true, hc]
        unfold icalcomponentGetDescriptionSize noteContent
        rw [Option.bind_some, getDescription_eq]
        cases (descriptions c).head? <;> rfl
      simp only [hn, kernelPath_eq_root_iff hpath.proper] at hrun
      rw [if_neg hnil, nodeStat_of_entry cfg he, hdir, if_neg Bool.false_ne_true, hsize] at hrun
      exact ⟨0, hrun⟩

/-- A listing names what is inside, each name once. -/
theorem readdir_mounted (h : Mounted cfg w) (hpath : ShortPath path) :
    ∃ handed : List FillerCall, fuseReaddir cfg (fun _ => false) (kernelPath path) w =
        .ok ((if (h.tree.entry path).isSome then 0 else -ENOENT, handed), w) ∧
      ∃ names : List CStr, handed.map (·.name) = [bytes ".", bytes ".."] ++ names ∧
        names.Nodup ∧ ∀ x, x ∈ names ↔ h.tree.entry (path ++ [x]) ≠ none := by
  have hrun : fuseReaddir cfg (fun _ => false) _ w = _ :=
    fuseReaddir_run h.inv h.parses hpath.few
  rw [lookup_kernelPath _ hpath.proper] at hrun
  cases hd : w.store.namespace path with
  | none =>
    have hentry : h.tree.entry path = none := (tree_eq_none h.inv).2 hd
    rw [hd] at hrun
    refine ⟨_, by rw [hentry]; exact hrun, [], rfl, List.nodup_nil, fun x => ?_⟩
    exact iff_of_false List.not_mem_nil (not_not.2 (TreeFs.empty_of_none hentry x))
  | some d =>
    rw [hd] at hrun
    refine ⟨_, by rw [tree_entry_some h hd]; exact hrun, (w.store.links.children d).map w.store.name,
      ?_, h.unique.distinct d, fun x => ?_⟩
    · rw [List.map_append, List.map_map]
      rfl
    · rw [Ne, tree_eq_none, Store.namespace, Links.resolve_append,
        show w.store.links.resolve _ _ path = _ from hd, Option.bind_some, Links.resolve_singleton,
        List.find?_eq_none, List.mem_map]
      simp

end Mounted

end Agendafs
