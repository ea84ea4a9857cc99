import Agendafs.ForStd.Trail
import Agendafs.Spec.Siblings
import Agendafs.Spec.StatPaths

/-!
# What a directory shows can be opened

The names `fuse_readdir` hands out are those of the nodes. They can serve as path
components when every name that comes into the tree can: a title read from VDIR
goes into it as it is.

## Key results

- `Run.properNames`: the names in a run that takes in proper names only
- `listed_names_open`
-/

namespace Agendafs

open Store

variable {Text : Type} {cfg : Config Text} {w w' : World Text}

/-! ## Proper names -/

/-- The name can be a path component. -/
structure ProperName (x : CStr) : Prop where
  nonempty : x ≠ []
  flat : slash ∉ x
  notDot : x ≠ bytes "."
  notDotDot : x ≠ bytes ".."

theorem digit_of_mem_decimal {n : Nat} {b : UInt8} (h : b ∈ decimal n) : b ≠ dot ∧ b ≠ slash := by
  unfold decimal at h
  split at h
  · rw [List.mem_singleton.1 h]
    exact ⟨by decide, by decide⟩
  · obtain ⟨d, hd, rfl⟩ := List.mem_map.1 h
    have hlt : d < 10 := Nat.digits_lt_base (by decide) (List.mem_reverse.1 hd)
    have hdigit : ∀ d < 10, UInt8.ofNat (48 + d) ≠ dot ∧ UInt8.ofNat (48 + d) ≠ slash := by decide
    exact hdigit d hlt

theorem decimal_ne_nil (n : Nat) : decimal n ≠ [] := by
  unfold decimal
  split
  · exact List.cons_ne_nil _ _
  · rename_i hn
    simpa [Nat.digits_eq_nil_iff_eq_zero] using hn

/-- A name with a byte that is neither slash nor dot, and without slash, is proper. -/
theorem properName_of_mem {x : CStr} {b : UInt8} (hb : b ∈ x) (hdot : b ≠ dot) (hx : slash ∉ x) :
    ProperName x where
  nonempty := List.ne_nil_of_mem hb
  flat := hx
  notDot := by
    rintro rfl
    rw [List.mem_singleton.1 hb] at hdot
    exact hdot rfl
  notDotDot := by
    rintro rfl
    rcases List.mem_pair.1 hb with rfl | rfl <;> exact hdot rfl

/-- A number in a name without slash makes it proper. -/
theorem ProperName.numbered {x : CStr} (h : ProperName x) (k : Nat) : ProperName (numbered x k) := by
  cases k with
  | zero => exact h
  | succ k =>
    obtain ⟨b, hb⟩ := List.exists_mem_of_ne_nil _ (decimal_ne_nil (k + 1))
    have hslash : slash ∉ decimal (k + 1) := fun hm => (digit_of_mem_decimal hm).2 rfl
    have hdot : slash ≠ dot := by decide
    have hflat := h.flat
    change ProperName (filenameNumbered x (k + 1))
    unfold filenameNumbered
    split
    · rename_i base ext hsplit
      rw [(strrchr_eq_some.1 hsplit).1] at hflat
      exact properName_of_mem (by simp [hb]) (digit_of_mem_decimal hb).1
        (by simp_all)
    · exact properName_of_mem (by simp [hb]) (digit_of_mem_decimal hb).1 (by simp_all)

theorem ProperName.freshName {x : CStr} (h : ProperName x) (names : List CStr) :
    ProperName (freshName x names) := h.numbered _

instance (x : CStr) : Decidable (ProperName x) :=
  decidable_of_iff (x ≠ [] ∧ slash ∉ x ∧ x ≠ bytes "." ∧ x ≠ bytes "..")
    ⟨fun ⟨a, b, c, d⟩ => ⟨a, b, c, d⟩, fun ⟨a, b, c, d⟩ => ⟨a, b, c, d⟩⟩

/-- Every note has a proper name. -/
def Store.ProperNames (s : Store) : Prop := ∀ n e, s.entry n = some e → ProperName e.filename

section Edits

variable {s : Store} {p c n : NodeId} {e : AgendaEntry} {x : CStr}

/-- The name a note gets at its place comes from the one it had. -/
theorem Store.ProperNames.placedName (h : s.ProperNames) (he : s.entry c = some e) :
    ProperName (s.placedName p c) := by
  unfold Store.placedName
  rw [name_of_entry he]
  exact (h c e he).freshName _

end Edits

/-! ## Runs -/

/-- What a call brings in as a name is proper: the last component of a path, as the kernel
    guarantees, or what a file is shown as. -/
def Op.NamesProperly (cfg : Config Text) (w : World Text) : Op → Prop
  | .create path => ProperName (getFilename path)
  | .mkdir path => ProperName (getFilename path)
  | .rename _ new _ => ProperName (getFilename new)
  | .event ev => ev.updates = true → ∀ e, w.loadable cfg (ev.file cfg) = some e →
      ProperName e.filename
  | _ => True

/-- Runs in which the files that are read are shown under proper names and parse. -/
def listableRuns (cfg : Config Text) : Guard Text where
  load w listing := ∀ k e, w.Accepts cfg (listing.getD []) k → w.loadable cfg k = some e →
    ProperName e.filename
  call w o := w.TargetParses cfg o ∧ o.NamesProperly cfg w

theorem Handled.properNames {k : CStr} (h : w.store.Inv) (hs : w.store.ProperNames)
    (hk : ∀ e, w.loadable cfg k = some e → ProperName e.filename) (hc : Handled cfg w k w') :
    w'.store.ProperNames := by
  cases hc with
  | unchanged => exact hs
  | @updated e _ p hc he =>
    have hloadable : w.loadable cfg k = some e := by
      rw [World.loadable, hc, Option.bind_some, he]
    have hup : (w.store.upsert e).2.ProperNames := AllNames.upsert hs h (hk e hloadable)
    rw [updated_store]
    exact AllNames.place hup (hup.placedName (upsert_entry h))

theorem Effect.properNames {o : Op} {status : Int} (h : w.store.Sound) (hs : w.store.ProperNames)
    (ho : o.NamesProperly cfg w) (hc : Effect cfg w o status w') : w'.store.ProperNames := by
  have edited : ∀ {o}, Edited cfg w o status w' → w'.store.ProperNames := fun hc => by
    rw [hc.store]
    exact hs
  cases o with
  | create path => exact Created.allNames h.toInv hs ho hc
  | mkdir path => exact Created.allNames h.toInv hs ho hc
  | write => exact edited hc
  | setxattr => exact edited hc
  | removexattr => exact edited hc
  | unlink => exact Removed.allNames hs hc
  | rmdir => exact Removed.allNames hs hc
  | rename => exact Renamed.allNames hs ho hc
  | event event =>
    cases hup : event.updates with
    | false =>
      rw [hc.2 hup]
      exact hs
    | true => exact hc.1.properNames h.toInv hs (ho hup)

theorem wp_load_properNames (hstart : w.AtStart) {listing : Option (List Dirent)}
    (hlisting : ValidListing (listing.getD []))
    (hnames : ∀ k e, w.Accepts cfg (listing.getD []) k → w.loadable cfg k = some e →
      ProperName e.filename) :
    Prog.wp (loadRootNodeTree cfg listing)
      (fun _ u => u.store.UniqueNames ∧ u.store.ProperNames) Crash.Visible w := by
  refine Prog.wp_mono (wp_loadRootNodeTree hstart hlisting (fun _ u => u.store.ProperNames)
    (fun v hv n e he => ?_) fun v pre k u u' hv hu hs _ ha => ?_) (fun _ u hu => ?_) fun _ hc => hc
  · -- After the first loop the names are as the files give them.
    obtain ⟨haccepts, hentry⟩ := hv.index _ n ((hv.sound.index _ n).2 ⟨e, he, rfl⟩)
    exact hnames _ e haccepts (hentry.symm.trans he)
  · cases ha with
    | orphan => exact hs
    | placed hn =>
      obtain ⟨e, he, _⟩ := (hu.sound.index _ _).1 hn
      exact AllNames.place hs (hs.placedName he)
  · obtain ⟨v, keys, _, hinv, _, hs⟩ := hu
    exact ⟨hinv.unique, hs⟩

theorem Run.properNames (h : Run cfg (listableRuns cfg) w) :
    w.store.UniqueNames ∧ w.store.ProperNames := by
  induction h with
  | load hstart hlisting hG hrun => exact (wp_load_properNames hstart hlisting hG).ok hrun
  | external files env _ ih => exact ih
  | call h hv hG hrun ih =>
    have heffect := exec_effect h.sound hv hrun
    exact ⟨heffect.uniqueNames h.sound ih.1 hv hG.1, heffect.properNames h.sound ih.2 hG.2⟩

/-! ## Listing -/

/-- Every name that a listing hands out for a child of the directory at `path` can be a path
    component, and leads to that child. -/
def ListedNamesOpen (w : World Text) (path : CStr) (d : NodeId) (handed : List FillerCall) : Prop :=
  ∃ cs, cs <+: w.store.links.children d ∧
    handed.map (·.name) = bytes "." :: bytes ".." :: cs.map w.store.name ∧
    ∀ c ∈ cs, ProperName (w.store.name c) ∧
      getNodeByPath (appendPath path (w.store.name c)) w.store = .ok (some c, w.store)

/-- What a directory shows can be opened, in runs that take in proper names only. -/
theorem listed_names_open (h : Run cfg (listableRuns cfg) w) {path : CStr} {d : NodeId}
    (hd : w.store.lookup path = some d) (hdepth : (splitPath path).length < 255)
    {full : List FillerCall → Bool} {status : Int} {handed : List FillerCall}
    (hrun : fuseReaddir cfg full path w = .ok ((status, handed), w')) :
    ListedNamesOpen w path d handed := by
  have hinv := h.sound.toInv
  obtain ⟨hunique, hproper⟩ := h.properNames
  obtain ⟨⟨cs, hcs, hhanded⟩, _⟩ := (fuseReaddir_wp hinv full hd).ok hrun
  have hnames : handed.map (·.name) = bytes "." :: bytes ".." :: cs.map w.store.name := by
    subst hhanded
    simp only [List.map_cons, List.map_map]
    rfl
  refine ⟨cs, hcs, hnames, fun c hc => ?_⟩
  have hmem := hcs.subset hc
  have hparent := hinv.wf.mem_children.1 hmem
  obtain ⟨e, he⟩ := hinv.entry_of_live c (hinv.live_child hmem) (hinv.child_ne_root hparent)
  have hname : ProperName (w.store.name c) := by
    rw [name_of_entry he]
    exact hproper c e he
  refine ⟨hname, ?_⟩
  -- The name splits off the path as its last segment.
  have hsplit : splitPath (appendPath path (w.store.name c)) =
      splitPath path ++ [w.store.name c] := by
    rw [appendPath, splitPath_append _ hname.flat, if_neg hname.nonempty]
  have hlookup : w.store.lookup (appendPath path (w.store.name c)) = some c := by
    unfold Store.lookup at hd ⊢
    rw [hsplit, Links.resolve_append, hd, Option.bind_some, Links.resolve_singleton]
    exact Links.Distinct.find? hunique hinv.wf hparent
  have hopen := getNodeByPath_run hinv (appendPath path (w.store.name c))
  rw [hsplit, List.length_append, List.length_singleton, if_neg (by omega), hlookup] at hopen
  exact hopen

/-- The directory shows itself, its parent and its note. -/
example : (fuseReaddir sampleConfig (fun _ => false) (bytes "/Dir")).check
    (sampleMount nestedNote {}) (fun r _ => decide (r.1 = 0 ∧
      r.2.map (·.name) = [bytes ".", bytes "..", bytes "Note.txt"])) = true := by decide +kernel

theorem listableLoad_nestedNote :
    (listableRuns sampleConfig).load (sampleStart nestedNote) (sampleListing nestedNote) := by
  rintro k e ⟨⟨name, type⟩, hd, hk, _⟩ he
  have hnames : ∀ d ∈ (sampleListing nestedNote).getD [],
      ((sampleStart nestedNote).loadable sampleConfig d.dName).all
        (fun e => decide (ProperName e.filename)) = true := by decide +kernel
  have hproper := hnames _ hd
  rw [hk, he, Option.all_some] at hproper
  exact of_decide_eq_true hproper

theorem listed_names_open_nestedNote :
    ∃ handed w', fuseReaddir sampleConfig (fun _ => false) (bytes "/Dir")
        (sampleMount nestedNote {}) = .ok ((0, handed), w') ∧
      ListedNamesOpen (sampleMount nestedNote {}) (bytes "/Dir") 1 handed := by
  have hrun : Run sampleConfig (listableRuns sampleConfig) (sampleMount nestedNote {}) :=
    run_nestedNote listableLoad_nestedNote
  obtain ⟨⟨status, handed⟩, hread, hstatus⟩ := Prog.run_of_check
    (m := fuseReaddir sampleConfig (fun _ => false) (bytes "/Dir"))
    (s := sampleMount nestedNote {}) (f := fun r _ => decide (r.1 = 0)) (by decide +kernel)
  obtain rfl : status = 0 := of_decide_eq_true hstatus
  have hlookup : (sampleMount nestedNote {}).store.lookup (bytes "/Dir") = some 1 := by
    decide +kernel
  exact ⟨handed, _, hread, listed_names_open hrun hlookup (by decide) hread⟩

/-- A note whose title has a slash. -/
def slashedTitle : List (CStr × Icalcomponent) :=
  [(bytes "a.ics", sampleNote (bytes "a") (bytes "a/b") [])]

/-- A title with a slash is listed as it is. -/
theorem not_all_listed_names_open :
    ¬ ∀ (w w' : World Icalcomponent) (path : CStr) (d : NodeId) (full : List FillerCall → Bool)
      (status : Int) (handed : List FillerCall), Reachable sampleConfig w →
      w.store.lookup path = some d → (splitPath path).length < 255 →
      fuseReaddir sampleConfig full path w = .ok ((status, handed), w') →
        ListedNamesOpen w path d handed := by
  intro hall
  have hreach : Reachable sampleConfig (sampleMount slashedTitle {}) :=
    run_sampleMount {} (by decide) (by decide) trivial (by decide +kernel)
  obtain ⟨⟨status, handed⟩, hread, hnames⟩ := Prog.run_of_check
    (m := fuseReaddir sampleConfig (fun _ => false) (bytes "/")) (s := sampleMount slashedTitle {})
    (f := fun r _ => decide (r.2.map (·.name) = [bytes ".", bytes "..", bytes "a/b.txt"]))
    (by decide +kernel)
  obtain ⟨cs, _, hcs, hopen⟩ := hall (sampleMount slashedTitle {}) _ (bytes "/") 0 (fun _ => false)
    status handed hreach (by decide +kernel) (by decide) hread
  have hhanded : handed.map (·.name) = _ := of_decide_eq_true hnames
  rw [hhanded, List.cons_inj_right, List.cons_inj_right] at hcs
  have hmem : bytes "a/b.txt" ∈ cs.map (sampleMount slashedTitle {}).store.name := by
    rw [← hcs]
    exact List.mem_singleton_self _
  obtain ⟨c, hc, hname⟩ := List.mem_map.1 hmem
  have hflat := (hopen c hc).1.flat
  rw [hname] at hflat
  exact hflat (by decide)

end Agendafs
