import Agendafs.Spec.Listing
import Agendafs.Spec.LoadedNames

/-!
# Loading again what a load has left

The next session loads the files as the load of this one has left them, in
whatever order `readdir` lists them then. A path names the same file again if
nothing in the names depends on the order and on the marks: in each directory
the notes of one chain of the hash table take different names, and a note takes
the same name whether or not its file has been marked for its children.

## Key results

- `RemountStable`: what is to hold of two loads
- `remount_stable_iff`: when it does
-/

namespace Agendafs

open Icalcomponent Store

variable {Text : Type} {cfg : Config Text} {w u u' v : World Text}
  {listing l l' : List Dirent} {D : Option CStr} {k : CStr}

/-- The file that a path names. -/
def Store.fileOf (s : Store) (path : CStr) : Option CStr :=
  (s.lookup path).bind fun n => (s.entry n).map (·.filenameVdir)

/-- After a load and a load of what it has left, with the files listed in any order each time,
    every path names the same file. -/
def RemountStable (cfg : Config Text) (w : World Text) (listing : List Dirent) : Prop :=
  ∀ (l l' : List Dirent) (u v u' : World Text), l.Perm listing → l'.Perm listing →
    loadRootNodeTree cfg (some l) w = .ok ((), u) →
    v.AtStart → v.files = u.files → (∀ o ∈ v.env.writes, o = .written) →
    loadRootNodeTree cfg (some l') v = .ok ((), u') →
      ∀ path, u'.store.fileOf path = u.store.fileOf path

/-! ## Orders of the listing -/

theorem ValidListing.perm (h : ValidListing listing) (hl : l.Perm listing) : ValidListing l where
  nodup := (hl.map _).nodup_iff.2 h.nodup
  flat d hd := h.flat d (hl.mem_iff.1 hd)

theorem unreadable_perm (hl : l.Perm listing) :
    w.Unreadable cfg l ↔ w.Unreadable cfg listing := by
  unfold World.Unreadable
  simp only [hl.mem_iff]

theorem noteNames_perm (hl : l.Perm listing) :
    (w.noteNames cfg l).Perm (w.noteNames cfg listing) := (hl.filter _).map _

theorem nodup_noteNames (h : ValidListing listing) : (w.noteNames cfg listing).Nodup :=
  h.nodup.sublist (List.filter_sublist.map _)

theorem loadOrder_perm (h : ValidListing listing) :
    (w.loadOrder cfg listing).Perm (w.noteNames cfg listing) :=
  Hashmap.keyOrder_perm (nodup_noteNames h)

/-! ## The names of the second load -/

/-- The name that the file of a note stands for after a load: that of a directory, if the note
    has enough children to mark it as one. -/
def World.reshown (cfg : Config Text) (w : World Text) (listing : List Dirent) (k : CStr) : CStr :=
  w.shownAfter cfg (w.inDirectory cfg (some k) (w.noteNames cfg listing)).length k

/-- What is in a directory after the second load. -/
def World.relayout (cfg : Config Text) (w : World Text) (listing l : List Dirent)
    (D : Option CStr) : List (CStr × CStr) :=
  (titles (w.reshown cfg listing)).assign [] (w.inDirectory cfg D (w.loadOrder cfg l))

/-- The files that a load has left hold the same notes with the same parents, under the names
    of `World.reshown`. -/
structure Relisted (cfg : Config Text) (w : World Text) (listing : List Dirent) (v : World Text) :
    Prop where
  isNote : ∀ k, (v.loadable cfg k).isSome = (w.loadable cfg k).isSome
  parentFile : ∀ k, v.parentFile cfg k = w.parentFile cfg k
  shown : ∀ k, w.Accepts cfg listing k → v.shown cfg k = w.reshown cfg listing k
  readable : ¬ v.Unreadable cfg listing

theorem Relisted.direntNote (h : Relisted cfg w listing v) (d : Dirent) :
    (v.direntNote cfg d).isSome = (w.direntNote cfg d).isSome := by
  unfold World.direntNote
  split
  · exact h.isNote d.dName
  · rfl

theorem Relisted.noteNames (h : Relisted cfg w listing v) (l : List Dirent) :
    v.noteNames cfg l = w.noteNames cfg l := by
  unfold World.noteNames
  simp only [h.direntNote]

theorem Relisted.layout (h : Relisted cfg w listing v) (hl : l.Perm listing) (D : Option CStr) :
    v.layout cfg l D = w.relayout cfg listing l D := by
  have hkeys : v.inDirectory cfg D (v.loadOrder cfg l) = w.inDirectory cfg D (w.loadOrder cfg l) := by
    unfold World.inDirectory World.loadOrder
    rw [h.noteNames]
    simp only [h.parentFile]
  rw [World.layout, World.relayout, hkeys]
  refine Chooser.assign_congr_pick (fun k hk names => ?_) []
  have hk := (accepts_congr (fun d => hl.mem_iff) k).1 (mem_inDirectory_loadOrder.1 hk).1
  exact congrArg (freshName · names) (h.shown k hk)

theorem LoadedAs.relisted (h : LoadedAs cfg w l u) (hvalid : ValidListing listing)
    (hl : l.Perm listing) (hfiles : v.files = u.files) : Relisted cfg w listing v := by
  have haccepts : ∀ k, w.Accepts cfg listing k → w.Accepts cfg l k := fun k =>
    (accepts_congr (fun d => hl.mem_iff) k).2
  refine ⟨fun k => ?_, fun k => ?_, fun k hk => ?_, ?_⟩
  · rw [loadable_congr hfiles, h.laidOut.isNote]
  · unfold World.parentFile
    rw [← h.laidOut.parentUid, World.parentUid, World.fileComponent, hfiles]
    rfl
  · have hnote : (u.loadable cfg k).isSome = true :=
      h.laidOut.isSome_loadable (haccepts k hk)
    have hcount : (w.inDirectory cfg (some k) (w.loadOrder cfg l)).length =
        (w.inDirectory cfg (some k) (w.noteNames cfg listing)).length :=
      (((loadOrder_perm (hvalid.perm hl)).trans (noteNames_perm hl)).filter _).length_eq
    have hshown := h.laidOut.shownAfter k (haccepts k hk) 0
    rw [shownAfter_zero hnote, Nat.zero_add, hcount] at hshown
    rw [World.shown, loadable_congr hfiles]
    exact hshown
  · rintro ⟨d, hd, hreg, hics, hsome, hnot⟩
    unfold World.Readable at hnot
    rw [hfiles] at hsome hnot
    have hfile : w.files (appendPath cfg.vdir d.dName) ≠ none := fun hnone =>
      hsome (h.laidOut.absent d.dName hnone)
    refine h.readable ⟨d, hl.mem_iff.2 hd, hreg, hics, hfile, fun hr => hnot ?_⟩
    exact h.laidOut.readable d.dName hr

/-! ## Two loads -/

/-- The load when `opendir` succeeds. -/
theorem wp_load_listed (hL : cfg.ical.Lawful) (hstart : w.AtStart) (hlisting : ValidListing listing)
    (hwrites : ∀ o ∈ w.env.writes, o = .written) :
    Prog.wp (loadRootNodeTree cfg (some listing)) (fun _ u => LoadedAs cfg w listing u)
      (fun _ => w.Unreadable cfg listing) w := by
  have hvalid : ValidListing ((some listing).getD []) := hlisting
  exact wp_load_laidOut hL hstart hvalid hwrites

theorem load_returns (hL : cfg.ical.Lawful) (hstart : w.AtStart) (hlisting : ValidListing listing)
    (hwrites : ∀ o ∈ w.env.writes, o = .written) (hreadable : ¬ w.Unreadable cfg listing) :
    ∃ u, loadRootNodeTree cfg (some listing) w = .ok ((), u) ∧ LoadedAs cfg w listing u := by
  obtain ⟨_, u, hrun, hu⟩ := Prog.wp.returns (Prog.wp_mono (wp_load_listed hL hstart hlisting hwrites)
    (fun _ _ hu => hu) fun _ hc => hreadable hc)
  exact ⟨u, hrun, hu⟩

theorem fileOf_eq (s : Store) (path : CStr) : s.fileOf path = s.fileAt (splitPath path) := rfl

/-- Two loads in terms of the layouts. -/
theorem remountStable_iff_seen (hL : cfg.ical.Lawful) (hstart : w.AtStart)
    (hlisting : ValidListing listing) (hwrites : ∀ o ∈ w.env.writes, o = .written) :
    RemountStable cfg w listing ↔ w.Unreadable cfg listing ∨
      ∀ l l' : List Dirent, l.Perm listing → l'.Perm listing → ∀ segments,
        ProperSegments segments →
          seen (w.relayout cfg listing l') segments = seen (w.layout cfg l) segments := by
  have second : ∀ {l l' : List Dirent} {u v : World Text}, LoadedAs cfg w l u → l.Perm listing →
      l'.Perm listing → v.files = u.files → ∀ {u' : World Text}, LoadedAs cfg v l' u' →
      ∀ segments, u'.store.fileAt segments = seen (w.relayout cfg listing l') segments := by
    intro l l' u v hu hl hl' hfiles u' hu' segments
    have hlayout : v.layout cfg l' = w.relayout cfg listing l' :=
      funext ((hu.relisted hlisting hl hfiles).layout hl')
    rw [hu'.fileAt, hlayout]
  constructor
  · intro hstable
    by_cases hunreadable : w.Unreadable cfg listing
    · exact .inl hunreadable
    refine .inr fun l l' hl hl' segments hsegments => ?_
    obtain ⟨u, hrun, hu⟩ := load_returns hL hstart (hlisting.perm hl) hwrites
      (fun h => hunreadable ((unreadable_perm hl).1 h))
    have hrelisted : Relisted cfg w listing { w with files := u.files } :=
      hu.relisted hlisting hl rfl
    obtain ⟨u', hrun', hu'⟩ := load_returns (w := { w with files := u.files }) hL hstart
      (hlisting.perm hl') hwrites (fun h => hrelisted.readable ((unreadable_perm hl').1 h))
    have hsame := hstable l l' u { w with files := u.files } u' hl hl' hrun hstart rfl hwrites hrun'
      (normalPath segments)
    have hseen := second (v := { w with files := u.files }) hu hl hl' rfl hu' segments
    rw [fileOf_eq, fileOf_eq, splitPath_normalPath hsegments, hseen, hu.fileAt] at hsame
    exact hsame
  · intro hseen l l' u v u' hl hl' hrun hstart' hfiles hwrites' hrun' path
    have hu := (wp_load_listed hL hstart (hlisting.perm hl) hwrites).ok hrun
    have hu' := (wp_load_listed hL hstart' (hlisting.perm hl') hwrites').ok hrun'
    have hseen := hseen.resolve_left fun h => hu.readable ((unreadable_perm hl).2 h)
    rw [fileOf_eq, fileOf_eq, second hu hl hl' hfiles hu', hu.fileAt]
    exact hseen l l' hl hl' _ fun x hx => of_mem_splitPath hx

/-! ## Names that are segments of a path -/

/-- The name can be a segment of a path. -/
def isSegment (x : CStr) : Bool := x ≠ [] ∧ slash ∉ x

theorem all_isSegment {segments : List CStr} :
    segments.all isSegment = true ↔ ProperSegments segments := by
  simp [isSegment, ProperSegments]

theorem isSegment_numbered {title : CStr} (h : title ≠ []) (i : ℕ) :
    isSegment (numbered title i) = decide (slash ∉ title) := by
  cases i with
  | zero => simp [numbered, isSegment, h]
  | succ i =>
    have hslash : slash ∉ decimal (i + 1) := fun hm => (digit_of_mem_decimal hm).2 rfl
    have hdot : slash ≠ dot := by decide
    rw [numbered, filenameNumbered]
    split
    · rename_i base ext hsplit
      rw [(strrchr_eq_some.1 hsplit).1]
      simp [isSegment, hslash, hdot]
    · simp [isSegment, hslash, hdot]

theorem isSegment_freshName {title : CStr} (h : title ≠ []) (names : List CStr) :
    isSegment (freshName title names) = decide (slash ∉ title) := isSegment_numbered h _

/-- A file that is read has a title. -/
theorem shownAfter_ne_nil (hL : cfg.ical.Lawful) (h : (w.loadable cfg k).isSome = true)
    (children : ℕ) : w.shownAfter cfg children k ≠ [] := by
  obtain ⟨c, summary, hc⟩ := exists_isNoteFile h
  have hsummary : summary ≠ [] := getText_ne_nil (parsed_of_fileComponent hL hc.file) hc.summary
  rw [hc.shownAfter]
  split
  · exact hsummary
  · unfold join
    split
    · exact hsummary
    · exact List.append_ne_nil_of_left_ne_nil hsummary _

/-- The files of a directory whose names are segments of paths. -/
def World.openIn (cfg : Config Text) (w : World Text) (D : Option CStr) (ks : List CStr) :
    List CStr := (w.inDirectory cfg D ks).filter fun k => slash ∉ w.shown cfg k

/-- The same after the second load. -/
def World.reopenIn (cfg : Config Text) (w : World Text) (listing : List Dirent) (D : Option CStr)
    (ks : List CStr) : List CStr :=
  (w.inDirectory cfg D ks).filter fun k => slash ∉ w.reshown cfg listing k

theorem layout_filter (hL : cfg.ical.Lawful) (l : List Dirent) (D : Option CStr) :
    (w.layout cfg l D).filter (isSegment ·.2) =
      (titles (w.shown cfg)).assign [] (w.openIn cfg D (w.loadOrder cfg l)) := by
  refine Chooser.assign_filter (fun k hk names => isSegment_freshName ?_ names) []
  obtain ⟨⟨_, _, _, _, _, hsome⟩, _⟩ := mem_inDirectory_loadOrder.1 hk
  rw [← shownAfter_zero hsome]
  exact shownAfter_ne_nil hL hsome 0

theorem relayout_filter (hL : cfg.ical.Lawful) (l : List Dirent) (D : Option CStr) :
    (w.relayout cfg listing l D).filter (isSegment ·.2) =
      (titles (w.reshown cfg listing)).assign []
        (w.reopenIn cfg listing D (w.loadOrder cfg l)) := by
  refine Chooser.assign_filter (fun k hk names => isSegment_freshName ?_ names) []
  obtain ⟨⟨_, _, _, _, _, hsome⟩, _⟩ := mem_inDirectory_loadOrder.1 hk
  exact shownAfter_ne_nil hL hsome _

/-! ## Chains -/

/-- The number of chains of the table that the load fills. -/
def World.capacity (cfg : Config Text) (w : World Text) (listing : List Dirent) : ℕ :=
  Hashmap.capacityAfter (w.noteNames cfg listing).length

/-- The notes of a directory that can be opened, chain by chain of the table. -/
def World.chains (cfg : Config Text) (w : World Text) (listing : List Dirent) (D : Option CStr) :
    List (List CStr) :=
  (List.range (w.capacity cfg listing)).map fun i =>
    w.openIn cfg D ((w.noteNames cfg listing).filter (slot (w.capacity cfg listing) · = i))

theorem flatten_chains (listing : List Dirent) (D : Option CStr) :
    (w.chains cfg listing D).flatten = w.openIn cfg D (w.loadOrder cfg listing) := by
  unfold World.chains World.openIn World.inDirectory World.loadOrder Hashmap.keyOrder
  rw [List.filter_flatMap, List.filter_flatMap]
  rfl

theorem chains_perm (hl : l.Perm listing) (D : Option CStr) :
    List.Forall₂ List.Perm (w.chains cfg l D) (w.chains cfg listing D) := by
  have hnames : (w.noteNames cfg l).Perm (w.noteNames cfg listing) := noteNames_perm hl
  have hcapacity : w.capacity cfg l = w.capacity cfg listing := by
    unfold World.capacity
    rw [hnames.length_eq]
  unfold World.chains
  rw [hcapacity, List.forall₂_map_left_iff, List.forall₂_map_right_iff, List.forall₂_same]
  exact fun i _ => ((hnames.filter _).filter _).filter _

/-- In some order of the listing a note comes first in its chain. -/
theorem exists_first_in_chain (hk : k ∈ (w.chains cfg listing D).flatten) :
    ∃ l : List Dirent, l.Perm listing ∧ ∃ a ∈ w.chains cfg l D, a.head? = some k := by
  rw [flatten_chains, World.openIn, List.mem_filter, decide_eq_true_iff] at hk
  obtain ⟨hinside, hopen⟩ := hk
  obtain ⟨haccepts, hD⟩ := mem_inDirectory_loadOrder.1 hinside
  obtain ⟨d, hd, rfl, hreg, hics, hsome⟩ := haccepts
  obtain ⟨before, after, rfl⟩ := List.append_of_mem hd
  have hnote : (w.direntNote cfg d).isSome = true := by
    obtain ⟨e, he⟩ := Option.isSome_iff_exists.1 hsome
    rw [direntNote_eq_some.2 ⟨hreg, hics, he⟩]
    rfl
  refine ⟨d :: (before ++ after), List.perm_middle.symm, ?_⟩
  have hnames : w.noteNames cfg (d :: (before ++ after)) =
      d.dName :: w.noteNames cfg (before ++ after) := by
    unfold World.noteNames
    rw [List.filter_cons, if_pos hnote, List.map_cons]
  have hslot : slot (w.capacity cfg (d :: (before ++ after))) d.dName ∈
      List.range (w.capacity cfg (d :: (before ++ after))) := Hashmap.slot_mem_range _ _
  refine ⟨_, List.mem_map.2 ⟨_, hslot, rfl⟩, ?_⟩
  rw [hnames, List.filter_cons, if_pos (decide_eq_true rfl), World.openIn, World.inDirectory,
    List.filter_cons, if_pos (decide_eq_true hD), List.filter_cons, if_pos (decide_eq_true hopen),
    List.head?_cons]

theorem chains_shuffles (hlisting : ValidListing listing) (D : Option CStr) :
    Chooser.Shuffles (fun as => ∃ l : List Dirent, l.Perm listing ∧ as = w.chains cfg l D)
      (w.chains cfg listing D) where
  nodup := by
    rw [flatten_chains]
    exact ((Hashmap.nodup_keyOrder (nodup_noteNames hlisting)).filter _).filter _
  perm := by
    rintro _ ⟨l, hl, rfl⟩
    exact chains_perm hl D
  first k hk := by
    obtain ⟨l, hl, a, ha, hhead⟩ := exists_first_in_chain hk
    exact ⟨_, ⟨l, hl, rfl⟩, a, ha, hhead⟩

/-! ## When the map from paths to files stays -/

/-- The note of the file is in the directory, under a name that is a segment of a path. -/
def World.OpenInside (cfg : Config Text) (w : World Text) (listing : List Dirent)
    (D : Option CStr) (k : CStr) : Prop := w.Inside cfg listing D k ∧ slash ∉ w.shown cfg k

/-- In every directory that a path leads to, marks turn no name into a segment of a path or
    back, and chain by chain the notes take different names, which marks do not change. -/
def World.TitlesSettle (cfg : Config Text) (w : World Text) (listing : List Dirent) : Prop :=
  ∀ D, Reached (w.OpenInside cfg listing) D →
    (∀ k, w.Inside cfg listing D k →
      (slash ∈ w.reshown cfg listing k ↔ slash ∈ w.shown cfg k)) ∧
    Chooser.Settles (titles (w.shown cfg)) (titles (w.reshown cfg listing)) []
      (w.chains cfg listing D)

theorem mem_openIn_loadOrder (hl : l.Perm listing) :
    k ∈ w.openIn cfg D (w.loadOrder cfg l) ↔ w.OpenInside cfg listing D k := by
  rw [World.openIn, List.mem_filter, mem_inDirectory_loadOrder, decide_eq_true_iff, World.OpenInside,
    World.Inside, World.Inside, accepts_congr (fun d => hl.mem_iff)]

/-- If marks turn no name into a segment or back, the same notes can be opened after both loads. -/
theorem reopenIn_eq (hl : l.Perm listing)
    (hkeys : ∀ k, w.Inside cfg listing D k →
      (slash ∈ w.reshown cfg listing k ↔ slash ∈ w.shown cfg k)) :
    w.reopenIn cfg listing D (w.loadOrder cfg l) = w.openIn cfg D (w.loadOrder cfg l) := by
  refine List.filter_congr fun k hk => ?_
  obtain ⟨haccepts, hD⟩ := mem_inDirectory_loadOrder.1 hk
  have hk := hkeys k ⟨(accepts_congr (fun d => hl.mem_iff) k).1 haccepts, hD⟩
  exact decide_eq_decide.2 (not_congr hk)

/-- Every path names the same file after a second load, in any orders of the listing, if and
    only if a listed file cannot be read, so that there is no load, or the titles settle. -/
theorem remount_stable_iff (hL : cfg.ical.Lawful) (hstart : w.AtStart)
    (hlisting : ValidListing listing) (hwrites : ∀ o ∈ w.env.writes, o = .written) :
    RemountStable cfg w listing ↔ w.Unreadable cfg listing ∨ w.TitlesSettle cfg listing := by
  have hnames : ∀ {C : Chooser CStr CStr} {ks : List CStr}, ((C.assign [] ks).map Prod.snd).Nodup :=
    (Chooser.assign_names [] _).1
  -- The two layouts look alike when the directories that paths lead to do.
  have hdirectories : ∀ {l l' : List Dirent}, l.Perm listing → l'.Perm listing →
      ((∀ segments, ProperSegments segments →
        seen (w.relayout cfg listing l') segments = seen (w.layout cfg l) segments) ↔
      ∀ D, Reached (w.OpenInside cfg listing) D → ∀ p,
        p ∈ (titles (w.reshown cfg listing)).assign []
          (w.reopenIn cfg listing D (w.loadOrder cfg l')) ↔
        p ∈ (titles (w.shown cfg)).assign [] (w.openIn cfg D (w.loadOrder cfg l))) := by
    intro l l' hl hl'
    simp only [← all_isSegment, seen_filter_iff, layout_filter hL, relayout_filter hL]
    refine seen_eq_iff (fun D k => ?_) (fun _ => hnames) fun _ => hnames
    rw [← mem_openIn_loadOrder hl]
    exact Chooser.mem_keys.symm
  rw [remountStable_iff_seen hL hstart hlisting hwrites]
  refine or_congr_right ⟨fun hseen D hD => ?_, fun hsettle l l' hl hl' => ?_⟩
  · have hsame : ∀ l l' : List Dirent, l.Perm listing → l'.Perm listing → _ := fun l l' hl hl' =>
      (hdirectories hl hl').1 (hseen l l' hl hl') D hD
    have hkeys : ∀ k, w.Inside cfg listing D k →
        (slash ∈ w.reshown cfg listing k ↔ slash ∈ w.shown cfg k) := by
      intro k hk
      have hmem := mem_inDirectory_loadOrder.2 hk
      have hopen : k ∈ w.reopenIn cfg listing D (w.loadOrder cfg listing) ↔
          k ∈ w.openIn cfg D (w.loadOrder cfg listing) := by
        rw [Chooser.mem_keys (C := titles (w.reshown cfg listing)) (N := []),
          Chooser.mem_keys (C := titles (w.shown cfg)) (N := [])]
        exact exists_congr fun x => hsame listing listing (.refl _) (.refl _) (k, x)
      rw [World.reopenIn, World.openIn, List.mem_filter, List.mem_filter, and_iff_right hmem,
        and_iff_right hmem, decide_eq_true_iff, decide_eq_true_iff, not_iff_not] at hopen
      exact hopen
    refine ⟨hkeys, Chooser.settles_of_forall (chains_shuffles hlisting D) ?_⟩
    rintro _ _ ⟨l, hl, rfl⟩ ⟨l', hl', rfl⟩ p
    rw [flatten_chains, flatten_chains, ← reopenIn_eq hl' hkeys]
    exact hsame l l' hl hl' p
  · refine (hdirectories hl hl').2 fun D hD p => ?_
    obtain ⟨hkeys, hsettles⟩ := hsettle D hD
    rw [reopenIn_eq hl' hkeys, ← flatten_chains, ← flatten_chains,
      hsettles.mem_assign (chains_perm hl' D), hsettles.left.mem_assign (chains_perm hl D)]

/-- Titles settle when marks change none and no two notes are in one chain. -/
theorem titlesSettle_of_length_le
    (hchains : ∀ i < w.capacity cfg listing,
      ((w.noteNames cfg listing).filter (slot (w.capacity cfg listing) · = i)).length ≤ 1)
    (hshown : ∀ k ∈ w.noteNames cfg listing, w.reshown cfg listing k = w.shown cfg k) :
    w.TitlesSettle cfg listing := by
  intro D _
  refine ⟨fun k hk => by rw [hshown k (mem_noteNames.2 hk.1)],
    Chooser.settles_of_length_le (fun b hb => ?_) fun k hk names => ?_⟩
  · obtain ⟨i, hi, rfl⟩ := List.mem_map.1 hb
    have hle : (w.openIn cfg D
        ((w.noteNames cfg listing).filter (slot (w.capacity cfg listing) · = i))).length ≤
          ((w.noteNames cfg listing).filter (slot (w.capacity cfg listing) · = i)).length :=
      (List.length_filter_le ..).trans (List.length_filter_le ..)
    exact hle.trans (hchains i (List.mem_range.1 hi))
  · rw [flatten_chains, mem_openIn_loadOrder (.refl _)] at hk
    exact congrArg (freshName · names) (hshown k (mem_noteNames.2 hk.1.1))

theorem remount_stable_iff_nestedNote :
    RemountStable sampleConfig (sampleStart nestedNote) ((sampleListing nestedNote).getD []) := by
  refine (remount_stable_iff structuralIcal_lawful (fun _ => rfl) ⟨by decide, by decide⟩
    fun _ h => absurd h List.not_mem_nil).2 (.inr (titlesSettle_of_length_le ?_ ?_))
  · decide +kernel
  · decide +kernel

/-! ## A parent that is no directory yet -/

/-- A note that has not been marked as a directory, and a note in it. -/
def unmarkedParent : List (CStr × Icalcomponent) :=
  [(bytes "p.ics", sampleNote (bytes "p") (bytes "P") []),
    (bytes "c.ics", sampleNote (bytes "c") (bytes "C") [sampleParent (bytes "p")])]

/-- What `readdir` lists for them. -/
def unmarkedListing : List Dirent := [⟨bytes "p.ics", .reg⟩, ⟨bytes "c.ics", .reg⟩]

/-- The next session, which finds the files as this one has left them. -/
def restarted (u : World Icalcomponent) : World Icalcomponent where
  store := (sampleStart []).store
  files := u.files
  env := {}

theorem unmarkedParent_runs : ∃ u u',
    loadRootNodeTree sampleConfig (some unmarkedListing) (sampleStart unmarkedParent) =
        .ok ((), u) ∧ u.store.fileOf (bytes "/P") = none ∧
      loadRootNodeTree sampleConfig (some unmarkedListing) (restarted u) = .ok ((), u') ∧
        u'.store.fileOf (bytes "/P") = some (bytes "p.ics") := by
  obtain ⟨_, hfirst, hnone⟩ := Prog.run_of_check
    (m := loadRootNodeTree sampleConfig (some unmarkedListing)) (s := sampleStart unmarkedParent)
    (f := fun _ u => u.store.fileOf (bytes "/P") = none) (by decide +kernel)
  obtain ⟨_, hsecond, hsome⟩ := Prog.run_of_check
    (m := loadRootNodeTree sampleConfig (some unmarkedListing))
    (s := restarted ((loadRootNodeTree sampleConfig (some unmarkedListing)).final
      (sampleStart unmarkedParent)))
    (f := fun _ u => u.store.fileOf (bytes "/P") = some (bytes "p.ics")) (by decide +kernel)
  exact ⟨_, _, hfirst, of_decide_eq_true hnone, hsecond, of_decide_eq_true hsome⟩

/-- The load names the parent as a file and then marks it, so the next load names it as a
    directory. -/
theorem not_all_remounts_stable :
    ¬ ∀ (w : World Icalcomponent) (listing : List Dirent), w.AtStart → ValidListing listing →
      (∀ o ∈ w.env.writes, o = .written) → RemountStable sampleConfig w listing := by
  intro hall
  obtain ⟨u, u', hfirst, hnone, hsecond, hsome⟩ := unmarkedParent_runs
  have hstable : RemountStable sampleConfig (sampleStart unmarkedParent) unmarkedListing :=
    hall _ _ (fun _ => rfl) ⟨by decide, by decide⟩ fun _ h => absurd h List.not_mem_nil
  have hsame := hstable unmarkedListing unmarkedListing u (restarted u) u' (.refl _) (.refl _) hfirst
    (fun _ => rfl) rfl (fun _ h => absurd h List.not_mem_nil) hsecond (bytes "/P")
  rw [hsome, hnone] at hsame
  exact nomatch hsame

end Agendafs
