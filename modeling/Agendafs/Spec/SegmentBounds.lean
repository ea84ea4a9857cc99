import Agendafs.Spec.HiddenNames
import Agendafs.Spec.LookupStops
import Agendafs.Spec.Namespace
import Agendafs.Spec.PathLookup
import Mathlib.Data.Set.Finite.Basic

/-!
# The depth of paths

`get_node_by_path` has an array for 255 segments, and `split_path` stores as many
as the path has. Directories can be nested deeper than that, one `fuse_mkdir`
after the other, and then the next path that is looked up does not fit.

## Key results

- `exists_spells_of_absolute`: every absolute path spells some names
- `depthFits_iff`: the paths whose segments stay inside the array
- `segments_bounded_iff`
- `exists_nested`: 255 directories one in the other
-/

namespace Agendafs

open Store

/-! ## The names that a path spells -/

/-- A path behind a name spells some names, and so does the rest of an absolute path. -/
theorem exists_spells_of_slash (s : CStr) (h : ∀ b rest, s = b :: rest → b = slash) :
    ∃ names, Spells s names := by
  induction hn : s.length using Nat.strong_induction_on generalizing s with
  | h n ih =>
    -- The slashes in front, and what begins behind them.
    have hslashes : s.takeWhile (· = slash) =
        List.replicate (s.takeWhile (· = slash)).length slash :=
      List.eq_replicate_of_mem fun b hb => by
        have hslash := List.mem_takeWhile_imp hb
        exact of_decide_eq_true hslash
    have hsplit : s.takeWhile (· = slash) ++ s.dropWhile (· = slash) = s :=
      List.takeWhile_append_dropWhile
    rw [hslashes] at hsplit
    cases hrest : s.dropWhile (· = slash) with
    | nil =>
      rw [hrest, List.append_nil] at hsplit
      exact ⟨[], hsplit ▸ .slashes _⟩
    | cons b rest =>
      have hb : b ≠ slash := of_decide_eq_false (head_of_dropWhile hrest)
      have hname : (b :: rest).takeWhile (· ≠ slash) ++ (b :: rest).dropWhile (· ≠ slash) =
          b :: rest := List.takeWhile_append_dropWhile
      have hne := takeWhile_segment_ne_nil hb rest
      rw [hrest] at hsplit
      -- A path that is not only a name begins with a slash.
      obtain ⟨k, hk⟩ : ∃ k, (s.takeWhile (· = slash)).length = k + 1 := by
        refine Nat.exists_eq_add_one_of_ne_zero fun hzero => ?_
        rw [hzero, List.replicate_zero, List.nil_append] at hsplit
        exact hb (h b rest hsplit.symm)
      have hlength := congrArg List.length hsplit
      rw [List.length_append, List.length_replicate, hk] at hlength
      have hless : ((b :: rest).dropWhile (· ≠ slash)).length < n := by
        have := (List.dropWhile_suffix (l := b :: rest) (· ≠ slash)).length_le
        omega
      obtain ⟨names, hnames⟩ := ih _ hless _ (fun b' rest' h' =>
        not_not.1 (of_decide_eq_false (head_of_dropWhile h'))) rfl
      have hspells := Spells.name k hne (slash_not_mem_takeWhile _) hnames
      rw [hname, ← hk, hsplit] at hspells
      exact ⟨_, hspells⟩

theorem exists_spells_of_absolute {path : CStr} (h : Absolute path) :
    ∃ names, Spells path names := by
  refine exists_spells_of_slash path fun b rest hpath => ?_
  rw [hpath] at h
  exact Option.some.inj h

theorem absolute_normalPath {segments : List CStr} (hne : segments ≠ []) :
    Absolute (normalPath segments) := by
  obtain ⟨path, hpath⟩ := exists_normalPath hne
  rw [hpath]
  rfl

/-- The path has at most as many names as the array has entries. -/
def AtMost255Names (path : CStr) : Prop := ∃ names, Spells path names ∧ names.length ≤ 255

theorem atMost255Names_iff {path : CStr} (h : Absolute path) :
    AtMost255Names path ↔ FewSegments path := by
  obtain ⟨names, hnames⟩ := exists_spells_of_absolute h
  have hsplit := splitPath_of_spells hnames
  constructor
  · rintro ⟨names', hnames', hlength⟩
    rw [FewSegments, splitPath_of_spells hnames']
    exact hlength
  · intro hfew
    rw [FewSegments, hsplit] at hfew
    exact ⟨names, hnames, hfew⟩

/-! ## The array -/

/-- The segments of a path stay inside the array of `get_node_by_path`: the loop of `split_path`
    ends and stores none behind it, and the lookup does not stop there. -/
structure SegmentsFit (s : Store) (path : CStr) : Prop where
  stored : ∃ stores, splitPathLoop (path.length + 1) path 0 = some stores ∧
    ∀ x ∈ stores, x.2 < 255
  lookup : getNodeByPath path s ≠ .error .segmentsOverflow

theorem segmentsFit_iff {s : Store} {path : CStr} : SegmentsFit s path ↔ FewSegments path := by
  have hrun := splitPathLoop_run (Nat.lt_succ_self path.length) 0
  constructor
  · rintro ⟨⟨stores, hstores, hindex⟩, _⟩
    obtain rfl := Option.some.inj (hrun.symm.trans hstores)
    by_contra hmany
    have hlong : 255 < (splitPath path).length := Nat.lt_of_not_le hmany
    -- The segment with index 255 is stored behind the end.
    have hmem : ((splitPath path)[255], 255) ∈ (splitPath path).zipIdx :=
      List.mk_mem_zipIdx_iff_getElem?.2 (List.getElem?_eq_getElem hlong)
    exact Nat.lt_irrefl 255 (hindex _ hmem)
  · intro hfew
    refine ⟨⟨_, hrun, fun x hx => ?_⟩, inBounds_getNodeByPath hfew s⟩
    exact Nat.lt_of_lt_of_le (List.snd_lt_of_mem_zipIdx hx) hfew

/-- The lookups that a call makes with a path, of the path and of its parent, stay inside. -/
structure DepthFits (s : Store) (path : CStr) : Prop where
  itself : SegmentsFit s path
  parent : ∀ parent, getParentPath path = some parent → SegmentsFit s parent

theorem depthFits_iff {s : Store} {path : CStr} (h : Absolute path) :
    DepthFits s path ↔ AtMost255Names path := by
  rw [atMost255Names_iff h]
  constructor
  · intro hfits
    exact segmentsFit_iff.1 hfits.itself
  · intro hfew
    exact ⟨segmentsFit_iff.2 hfew, fun parent hparent => segmentsFit_iff.2 (hfew.parent hparent)⟩

/-- The segments of a path stay inside the array exactly when it has at most 255 names, and a call
    whose paths are such paths never stores one outside, in any state. -/
theorem segments_bounded_iff {Text : Type} (cfg : Config Text) (w : World Text) :
    (∀ path, Absolute path → (DepthFits w.store path ↔ AtMost255Names path)) ∧
    (∀ o : Op, (∀ path ∈ o.paths, Absolute path ∧ AtMost255Names path) →
      exec cfg o w ≠ .error .segmentsOverflow) ∧
    ∀ r : Reading, Absolute r.target → AtMost255Names r.target →
      r.exec cfg w ≠ .error .segmentsOverflow := by
  refine ⟨fun path => depthFits_iff, fun o ho => ?_, fun r hr hfew => ?_⟩
  · have hfew : ∀ path ∈ o.paths, FewSegments path := fun path hpath =>
      (atMost255Names_iff (ho path hpath).1).1 (ho path hpath).2
    exact inBounds_exec hfew w
  · exact inBounds_reading ((atMost255Names_iff hr).1 hfew) w

/-! ## Nested directories -/

/-- The note in every file of the sample. -/
def directoryNote : Icalcomponent := sampleNote (bytes "d") (bytes "d") [sampleDirectory]

/-- The names of this many directories, each in the one before. -/
def nested (k : Nat) : List CStr := List.replicate k (bytes "d")

theorem nested_succ (k : Nat) : nested (k + 1) = nested k ++ [bytes "d"] := List.replicate_succ'

theorem properSegments_nested (k : Nat) : ProperSegments (nested k) := by
  intro x hx
  rw [List.eq_of_mem_replicate hx]
  decide

/-- The same tree, with a directory in the file of each note and this UUID to come. -/
def World.refreshed (w : World Icalcomponent) (uuid : CStr) : World Icalcomponent where
  store := w.store
  files f := if w.store.entriesVdir.getKeys.any (fun k => f = appendPath sampleConfig.vdir k) then
    some { content := directoryNote } else none
  env := { uuid := uuid }

section Refreshed

variable {w : World Icalcomponent} {uuid : CStr} {n : NodeId} {e : AgendaEntry}

theorem refreshed_file (h : w.store.Inv) (he : w.store.entry n = some e) :
    (w.refreshed uuid).files (appendPath sampleConfig.vdir e.filenameVdir) =
      some { content := directoryNote } := by
  have hkey : e.filenameVdir ∈ w.store.entriesVdir.getKeys :=
    (Hashmap.mem_getKeys _ _).2 ⟨n, (h.index _ _).2 ⟨e, he, rfl⟩⟩
  exact if_pos (List.any_eq_true.2 ⟨_, hkey, decide_eq_true rfl⟩)

theorem opens_refreshed (h : w.store.Inv) : (w.refreshed uuid).Opens sampleConfig :=
  fun _ _ he => ⟨_, refreshed_file h he, rfl⟩

theorem isDirectory_refreshed (h : w.store.Inv) (n : NodeId) :
    (w.refreshed uuid).isDirectory sampleConfig n = true := by
  unfold World.isDirectory
  cases he : (w.refreshed uuid).store.entry n with
  | none => rfl
  | some e =>
    have hfile : (w.refreshed uuid).fileComponent sampleConfig e.filenameVdir =
        structuralIcal.newFromString directoryNote := by
      rw [World.fileComponent, refreshed_file h he]
      rfl
    have hdirectory : (structuralIcal.newFromString directoryNote).any
        (isDirectoryComponent structuralIcal) = true := by decide +kernel
    rw [component_of_entry he, hfile]
    exact Bool.or_eq_true_iff.2 (.inr hdirectory)

/-- Some UUID is not in use, since only finitely many are. -/
theorem exists_freshUuid (w : World Icalcomponent) :
    ∃ uuid, (w.refreshed uuid).FreshUuid sampleConfig := by
  have hinj : Function.Injective fun j : Nat =>
      createNewUniqueIcsUid (List.replicate j 117) ++ bytes ".ics" := by
    intro j j' hj
    have hlength := congrArg List.length hj
    simp only [createNewUniqueIcsUid, List.length_append, List.length_replicate] at hlength
    omega
  obtain ⟨_, ⟨j, rfl⟩, hfree⟩ :=
    (Set.infinite_range_of_injective hinj).exists_notMem_finset w.store.entriesVdir.getKeys.toFinset
  rw [List.mem_toFinset] at hfree
  refine ⟨List.replicate j 117, fun hslash => ?_, ?_, if_neg fun hfile => ?_⟩
  · exact absurd (List.eq_of_mem_replicate hslash) (by decide)
  · exact Option.eq_none_iff_forall_ne_some.2 fun n hn =>
      hfree ((Hashmap.mem_getKeys _ _).2 ⟨n, hn⟩)
  · obtain ⟨k, hk, heq⟩ := List.any_eq_true.1 hfile
    rw [← appendPath_inj.1 (of_decide_eq_true heq)] at hk
    exact hfree hk

end Refreshed

/-- A run has made directories this deep, the last of which is empty. -/
structure NestedAt (k : Nat) (w : World Icalcomponent) (d : NodeId) : Prop where
  reachable : Reachable sampleConfig w
  uniqueNames : w.store.UniqueNames
  leads : w.store.namespace (nested k) = some d
  leaf : w.store.links.children d = []

theorem length_nested (k : Nat) : (nested k).length = k := List.length_replicate

/-- A path of the names of these directories leads to the last of them. -/
theorem NestedAt.found {k : Nat} {w : World Icalcomponent} {d : NodeId} (h : NestedAt k w d)
    (hk : k ≤ 255) {path : CStr} (hsplit : splitPath path = nested k) :
    getNodeByPath path w.store = .ok (some d, w.store) := by
  have hshort : ¬ 255 < (splitPath path).length := by
    rw [hsplit, length_nested]
    exact Nat.not_lt.2 hk
  rw [getNodeByPath_run h.reachable.sound.toInv, if_neg hshort, Store.lookup, hsplit]
  exact congrArg (fun n => Except.ok (n, w.store)) h.leads

/-- `fuse_mkdir` in the last of them makes the next one. -/
theorem NestedAt.mkdir {k : Nat} {w : World Icalcomponent} {d : NodeId} (h : NestedAt k w d)
    (hk : k < 255) : ∃ w' d', NestedAt (k + 1) w' d' := by
  obtain ⟨uuid, hfresh⟩ := exists_freshUuid w
  have hsound := h.reachable.sound
  have hproper := properSegments_nested (k + 1)
  have hlength : (nested (k + 1)).length ≤ 255 := by
    rw [length_nested]
    exact hk
  have hfree := namespace_below_leaf h.leads h.leaf (bytes "d")
  rw [nested_succ] at hproper hlength
  obtain ⟨status, w', hrun, hstatus, hadded⟩ :
      ActsOn (createNew sampleConfig (normalPath (nested k ++ [bytes "d"])) .directory)
        (w.refreshed uuid) _ _ :=
    createNew_actsOn (w := w.refreshed uuid) hsound h.uniqueNames (opens_refreshed hsound.toInv)
      hfresh rfl hlength hproper .directory
  obtain rfl := hstatus.2 ⟨hfree, d, h.leads, isDirectory_refreshed hsound.toInv d⟩
  obtain ⟨d', _, hleaf, hnamespace⟩ := hadded rfl
  have hvalid : (Op.mkdir (normalPath (nested k ++ [bytes "d"]))).Valid sampleConfig
      (w.refreshed uuid) := hfresh
  have hreached : Reachable sampleConfig (w.refreshed uuid) := .external _ _ h.reachable
  have heffect := exec_effect (o := .mkdir _) (w := w.refreshed uuid) hsound hvalid hrun
  refine ⟨w', d', ⟨.call (o := .mkdir _) hreached hvalid trivial hrun, ?_, ?_, hleaf⟩⟩
  · exact Effect.uniqueNames (w := w.refreshed uuid) hsound h.uniqueNames hvalid trivial heffect
  · rw [nested_succ, hnamespace, Function.update_self]

/-- Directories can be nested as deep as the array has entries. -/
theorem exists_nested {k : Nat} (hk : k ≤ 255) : ∃ w d, NestedAt k w d := by
  induction k with
  | zero =>
    have hrun : Run sampleConfig (parsingRuns sampleConfig) (sampleMount [] {}) :=
      run_sampleMount _ (by decide) (by decide) trivial (by decide +kernel)
    exact ⟨sampleMount [] {}, (sampleMount [] {}).store.fuseRoot,
      run_sampleMount _ (by decide) (by decide) trivial (by decide +kernel), hrun.uniqueNames, rfl,
      by decide +kernel⟩
  | succ k ih =>
    obtain ⟨w, d, hnested⟩ := ih (Nat.le_of_succ_le hk)
    exact hnested.mkdir hk

/-- In the last of 255 nested directories every path is too deep. -/
theorem not_all_segments_bounded :
    ¬ ∀ (w : World Icalcomponent) (path parent : CStr) (d : NodeId), Reachable sampleConfig w →
      Absolute path → getParentPath path = some parent →
      getNodeByPath parent w.store = .ok (some d, w.store) →
      w.isDirectory sampleConfig d = true → DepthFits w.store path := by
  intro hall
  obtain ⟨w, d, hnested⟩ := exists_nested (Nat.le_refl 255)
  have hinv := hnested.reachable.sound.toInv
  have hproper := properSegments_nested 256
  have hsplit := splitPath_normalPath hproper
  rw [nested_succ] at hproper hsplit
  obtain ⟨parent, hparent, hparentSplit⟩ := getParentPath_normalPath hproper
  have habsolute := absolute_normalPath (List.concat_ne_nil (bytes "d") (nested 255))
  have hlookup := hnested.found (Nat.le_refl 255) hparentSplit
  have hfits := hall (w.refreshed []) _ parent d (.external _ _ hnested.reachable) habsolute hparent
    hlookup (isDirectory_refreshed hinv d)
  have hfew := segmentsFit_iff.1 hfits.itself
  rw [FewSegments, hsplit, List.length_append, length_nested] at hfew
  exact absurd hfew (by decide)

end Agendafs
