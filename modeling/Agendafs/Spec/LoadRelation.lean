import Agendafs.Spec.HeldNotes
import Agendafs.Spec.LoadedTree
import Agendafs.Spec.StructuralIcal

/-!
# The load builds the relation on disk

Which notes there are and where each hangs is decided by the files as the load
finds them. The second loop rewrites files of parents while it runs, but a mark
changes no parent UID and leaves every note a note. So neither the order in which
`readdir` lists the files nor the order of the second loop matters.

## Key results

- `attachLoaded_returns`: a round of the second loop does not stop on files that parse
- `wp_loadInOrder_relation`: the load in any order
- `load_builds_relation`: the relation and its independence of the orders
-/

namespace Agendafs

open Store

variable {Text : Type} {cfg : Config Text} {w u v : World Text}

/-- When files parse and the coming write succeeds, the round of a name returns. -/
theorem attachLoaded_returns (h : u.store.Inv) {k : CStr} {n : NodeId}
    (hn : u.store.entriesVdir.get k = some n) (hparent : u.store.links.parent n = none)
    (hparses : u.Parses cfg) (ho : u.outcome.status = 0) :
    ∃ u', attachLoaded cfg k u = .ok ((), u') := by
  obtain ⟨e, he, hk⟩ := (h.index k n).1 hn
  have hget := getFuseNodeFromVdirName_found hn
  have hread := getIcalcomponentFromNode_run he (hparses n e he).1
  unfold attachLoaded
  rw [Prog.bind_run_ok (onStore_run hget), Prog.bind_run_ok hread]
  cases huid : (u.component cfg n).bind (getParentUid cfg.ical) with
  | none =>
    simp only
    rw [Prog.bind_run_ok (Prog.get_run u),
      Prog.bind_run_ok (onStore_run (addFuseChild_place h h.root_live he hparent))]
    exact ⟨_, rfl⟩
  | some uid =>
    simp only
    rw [Prog.bind_run_ok (onStore_run (getNodeByUuid_run uid))]
    cases hp : u.store.entriesVdir.get (uid ++ bytes ".ics") with
    | none => exact ⟨_, rfl⟩
    | some p =>
      obtain ⟨e', he', _⟩ := (h.index _ p).1 hp
      obtain ⟨hr, hc⟩ := hparses p e' he'
      rw [← component_of_entry he'] at hc
      obtain ⟨pic, hpic⟩ := Option.isSome_iff_exists.1 hc
      have hreadp := getIcalcomponentFromNode_run he' hr
      rw [hpic] at hreadp
      have hmove : onStore (moveFuseNode (some p) n) (u.marked cfg p) = _ :=
        onStore_run (by rw [marked_store]; exact moveFuseNode_place h (h.live_of_index hp) he)
      simp only
      rw [Prog.bind_run_ok hreadp, Prog.bind_run_ok (markParent_run hpic (.inr ho)),
        Prog.bind_run_ok hmove]
      exact ⟨_, rfl⟩

/-- The tree has a node for each accepted file, and none but these and the root; each hangs
    where the file as it was found on disk says. -/
structure LoadsRelation (cfg : Config Text) (w : World Text) (listing : List Dirent)
    (u : World Text) : Prop where
  root : u.store.Live u.store.fuseRoot ∧ u.store.entry u.store.fuseRoot = none
  one : ∀ k, w.Accepts cfg listing k →
    ∃! n, u.store.Live n ∧ (u.store.entry n).map (·.filenameVdir) = some k
  noOther : ∀ n, u.store.Live n → n ≠ u.store.fuseRoot →
    ∃ k, w.Accepts cfg listing k ∧ (u.store.entry n).map (·.filenameVdir) = some k
  index : ∀ k n, u.store.entriesVdir.get k = some n ↔
    u.store.Live n ∧ (u.store.entry n).map (·.filenameVdir) = some k
  parent : ∀ k n, u.store.entriesVdir.get k = some n →
    u.store.links.parent n = u.store.target (w.parentUid cfg k)

theorem Loaded.relation {listing : List Dirent}
    (h : Loaded cfg w listing (fun k o => o = w.parentUid cfg k) u) :
    LoadsRelation cfg w listing u := by
  have hindex : ∀ k n, u.store.entriesVdir.get k = some n ↔
      u.store.Live n ∧ (u.store.entry n).map (·.filenameVdir) = some k := by
    intro k n
    rw [h.sound.index, Option.map_eq_some_iff]
    exact ⟨fun ⟨e, he, hk⟩ => ⟨live_of_entry he, e, he, hk⟩, fun ⟨_, e, he, hk⟩ => ⟨e, he, hk⟩⟩
  refine ⟨⟨h.sound.root_live, h.sound.root_entry⟩, fun k hk => ?_, fun n hn hroot => ?_, hindex,
    fun k n hn => ?_⟩
  · obtain ⟨n, hn⟩ := (h.index k).2 hk
    exact ⟨n, (hindex k n).1 hn, fun m hm =>
      Option.some.inj (((hindex k m).2 hm).symm.trans hn)⟩
  · obtain ⟨e, he⟩ := h.sound.entry_of_live n hn hroot
    have hk : (u.store.entry n).map (·.filenameVdir) = some e.filenameVdir := by
      rw [he]
      rfl
    exact ⟨e.filenameVdir, (h.index _).1 ⟨n, (hindex _ n).2 ⟨hn, hk⟩⟩, hk⟩
  · obtain ⟨o, ho, hp⟩ := h.parent k n hn
    rw [hp, ho]

/-- An accepted file holds a note, unless one of the listed files cannot be read. -/
theorem holdsNote_of_accepts {listing : List Dirent} (h : ¬ w.Unreadable cfg listing) {k : CStr}
    (hk : w.Accepts cfg listing k) : w.HoldsNote cfg k := by
  obtain ⟨d, hd, rfl, hreg, hics, hsome⟩ := hk
  refine holdsNote_iff.2 ⟨?_, hsome⟩
  by_contra hr
  refine h ⟨d, hd, hreg, hics, fun hnone => ?_, hr⟩
  rw [World.loadable, World.fileComponent, hnone] at hsome
  cases hsome

/-- The load, with its second loop in any order, builds the relation that the files have at
    the start; it stops only if a listed file cannot be read. -/
theorem wp_loadInOrder_relation (hL : cfg.ical.Lawful) {order : List CStr → List CStr}
    (horder : ∀ keys, (order keys).Perm keys) (hstart : w.AtStart)
    {listing : Option (List Dirent)} (hlisting : ValidListing (listing.getD []))
    (hwrites : ∀ o ∈ w.env.writes, o = .written) :
    Prog.wp (loadInOrder cfg order listing)
      (fun _ u => LoadsRelation cfg w (listing.getD []) u)
      (fun _ => w.Unreadable cfg (listing.getD [])) w := by
  refine Prog.wp_mono (wp_loadInOrder horder hstart hlisting (fun hu _ _ => hu)
    (fun pre u => Hung cfg w (listing.getD []) (fun k o => o = w.parentUid cfg k) pre u ∧
      (∀ o ∈ u.env.writes, o = .written) ∧ (¬ w.Unreadable cfg (listing.getD []) →
        ∀ k, w.Accepts cfg (listing.getD []) k → u.HoldsNote cfg k)) ?_ ?_) ?_ fun _ hc => hc
  · -- The first loop reads files only.
    intro v hv
    refine ⟨⟨fun k _ => ?_, fun k hk => nomatch hk⟩, fun o ho => hwrites o ?_, fun hu k hk => ?_⟩
    · unfold World.parentUid World.fileComponent
      rw [hv.files]
    · rw [hv.env] at ho
      exact ho
    · have hnote := holdsNote_of_accepts hu hk
      rw [holdsNote_iff] at hnote ⊢
      rw [loadable_congr hv.files]
      exact ⟨by unfold World.Readable; rw [hv.files]; exact hnote.1, hnote.2⟩
  · rintro v pre k n u hv hinv ⟨hhung, hrest, hnotes⟩ hk hn
    have haccepts : ∀ {k n}, u.store.entriesVdir.get k = some n →
        w.Accepts cfg (listing.getD []) k := fun hm =>
      (hv.index _ _ (by rw [← hinv.index]; exact hm)).1
    have hwritten := outcome_of_writes hrest
    have hattached : Prog.wp (attachLoaded cfg k) (fun _ u' => Attached cfg u k u') _ u :=
      wp_attachLoaded hinv.sound.toInv hn (hinv.unattached k hk n hn)
    -- A write that succeeds leaves every parent UID as it was.
    have step : ∀ u', Attached cfg u k u' →
        Hung cfg w (listing.getD []) (fun k o => o = w.parentUid cfg k) (pre ++ [k]) u' ∧
          ∀ o ∈ u'.env.writes, o = .written := fun u' ha => by
      obtain ⟨n, _, hmade, huid⟩ := ha.made hL
      refine ⟨hhung.attached hinv hk (fun _ => haccepts) (fun k' hk' => ?_) ha, fun o ho => ?_⟩
      · rcases huid k' with hsame | ⟨left, hl, _⟩
        · exact hsame.trans (hhung.parentUid k' hk')
        · exact absurd (hrest _ (List.mem_of_mem_take hl)) WriteOutcome.writeFailed_ne
      · rw [hmade] at ho
        exact hrest o (List.mem_of_mem_drop ho)
    by_cases hu : w.Unreadable cfg (listing.getD [])
    · exact Prog.wp_mono hattached
        (fun _ u' ha => ⟨ha, (step u' ha).1, (step u' ha).2, fun hn => absurd hu hn⟩)
        fun _ _ => hu
    · have hparses : u.Parses cfg := by
        intro m e he
        obtain ⟨hr, c, hc, _⟩ := hnotes hu _ (haccepts ((hinv.sound.index _ m).2 ⟨e, he, rfl⟩))
        exact ⟨hr, by rw [hc]; rfl⟩
      obtain ⟨u', hrun⟩ := attachLoaded_returns hinv.sound.toInv hn (hinv.unattached k hk n hn)
        hparses (by rw [hwritten]; rfl)
      rw [Prog.wp_of_ok hrun]
      have ha := hattached.ok hrun
      refine ⟨ha, (step u' ha).1, (step u' ha).2, fun _ k' hk' => ?_⟩
      -- The round marks at most one file, which stays a note.
      cases ha with
      | orphan _ _ => exact hnotes hu k' hk'
      | @placed _ p _ _ =>
        have hmarked := (hnotes hu k' hk').marked hL hwritten p
        exact ⟨hmarked.readable, hmarked.note⟩
  · rintro _ u ⟨v, keys, hv, hinv, hkeys, hhung, _, _⟩
    exact (Hung.loaded hv hinv hkeys hhung).relation

/-! ## Independence of the orders -/

/-- The file of the node that the note of a file hangs below: none when the note has no parent
    or there is no such note, the root being no file. -/
def Store.parentFile (s : Store) (filenameVdir : CStr) : Option (Option CStr) :=
  (s.entriesVdir.get filenameVdir).bind fun n =>
    (s.links.parent n).map fun p => (s.entry p).map (·.filenameVdir)

theorem accepts_congr {l l' : List Dirent} (h : ∀ d, d ∈ l' ↔ d ∈ l) (k : CStr) :
    w.Accepts cfg l' k ↔ w.Accepts cfg l k := by
  unfold World.Accepts
  simp only [h]

section

variable {listing l' : List Dirent} {k : CStr} {n : NodeId}

/-- The index lists the accepted files. -/
theorem LoadsRelation.accepts (h : LoadsRelation cfg w listing u) :
    (∃ n, u.store.entriesVdir.get k = some n) ↔ w.Accepts cfg listing k := by
  constructor
  · rintro ⟨n, hn⟩
    obtain ⟨hlive, hk⟩ := (h.index k n).1 hn
    have hroot : n ≠ u.store.fuseRoot := by
      rintro rfl
      rw [h.root.2] at hk
      exact nomatch hk
    obtain ⟨k', hk', heq⟩ := h.noOther n hlive hroot
    exact Option.some.inj (heq.symm.trans hk) ▸ hk'
  · intro hk
    obtain ⟨n, hn, _⟩ := h.one k hk
    exact ⟨n, (h.index k n).2 hn⟩

theorem LoadsRelation.get_eq_none (h : LoadsRelation cfg w listing u) :
    u.store.entriesVdir.get k = none ↔ ¬ w.Accepts cfg listing k := by
  rw [← h.accepts, Option.eq_none_iff_forall_ne_some, not_exists]

/-- A note with a parent UID hangs below the file of that name, if there is one. -/
theorem LoadsRelation.parentFile_uid (h : LoadsRelation cfg w listing u) {uid : CStr}
    (hn : u.store.entriesVdir.get k = some n) (huid : w.parentUid cfg k = some uid) :
    u.store.parentFile k =
      (u.store.entriesVdir.get (uid ++ bytes ".ics")).map fun _ => some (uid ++ bytes ".ics") := by
  have hparent := h.parent k n hn
  rw [huid, Store.target] at hparent
  rw [Store.parentFile, hn, Option.bind_some, hparent]
  cases hp : u.store.entriesVdir.get (uid ++ bytes ".ics") with
  | none => rfl
  | some p => rw [Option.map_some, Option.map_some, ((h.index _ p).1 hp).2]

/-- Loads that find the same files build the same relation. -/
theorem LoadsRelation.parentFile_eq (h : LoadsRelation cfg w listing u)
    (h' : LoadsRelation cfg w l' v)
    (haccepts : ∀ k, w.Accepts cfg l' k ↔ w.Accepts cfg listing k) (k : CStr) :
    u.store.parentFile k = v.store.parentFile k := by
  by_cases hk : w.Accepts cfg listing k
  · obtain ⟨n, hn⟩ := h.accepts.2 hk
    obtain ⟨m, hm⟩ := h'.accepts.2 ((haccepts k).2 hk)
    cases huid : w.parentUid cfg k with
    | none =>
      have hroot := h.parent k n hn
      have hroot' := h'.parent k m hm
      rw [huid, Store.target] at hroot hroot'
      rw [Store.parentFile, Store.parentFile, hn, hm, Option.bind_some, Option.bind_some, hroot,
        hroot', Option.map_some, Option.map_some, h.root.2, h'.root.2]
    | some uid =>
      rw [h.parentFile_uid hn huid, h'.parentFile_uid hm huid]
      by_cases hp : w.Accepts cfg listing (uid ++ bytes ".ics")
      · obtain ⟨p, hp₁⟩ := h.accepts.2 hp
        obtain ⟨q, hq⟩ := h'.accepts.2 ((haccepts _).2 hp)
        rw [hp₁, hq]
        rfl
      · rw [h.get_eq_none.2 hp, h'.get_eq_none.2 fun hq => hp ((haccepts _).1 hq)]
  · rw [Store.parentFile, Store.parentFile, h.get_eq_none.2 hk,
      h'.get_eq_none.2 fun hk' => hk ((haccepts k).1 hk'), Option.bind_none, Option.bind_none]

end

/-- The load builds the relation on disk, in any order of its second loop; so the parents are
    the same for every order of the listing and of that loop. -/
theorem load_builds_relation (hL : cfg.ical.Lawful) (hstart : w.AtStart)
    {listing : Option (List Dirent)} (hlisting : ValidListing (listing.getD []))
    (hwrites : ∀ o ∈ w.env.writes, o = .written) :
    Prog.wp (loadRootNodeTree cfg listing)
      (fun _ u => LoadsRelation cfg w (listing.getD []) u)
      (fun _ => w.Unreadable cfg (listing.getD [])) w ∧
    ∀ order : List CStr → List CStr, (∀ keys, (order keys).Perm keys) →
      Prog.wp (loadInOrder cfg order listing)
        (fun _ u => LoadsRelation cfg w (listing.getD []) u)
        (fun _ => w.Unreadable cfg (listing.getD [])) w ∧
      ∀ (l' : Option (List Dirent)) (u u' : World Text), ValidListing (l'.getD []) →
        (∀ d, d ∈ l'.getD [] ↔ d ∈ listing.getD []) →
        loadRootNodeTree cfg listing w = .ok ((), u) → loadInOrder cfg order l' w = .ok ((), u') →
          ∀ k, u.store.parentFile k = u'.store.parentFile k := by
  have hload := wp_loadInOrder_relation hL (fun keys => List.Perm.refl (id keys)) hstart hlisting
    hwrites
  rw [loadInOrder_id] at hload
  refine ⟨hload, fun order horder => ⟨?_, ?_⟩⟩
  · exact wp_loadInOrder_relation hL horder hstart hlisting hwrites
  · intro l' u u' hvalid hsame hrun hrun' k
    have hload' := (wp_loadInOrder_relation hL horder hstart hvalid hwrites).ok hrun'
    exact (hload.ok hrun).parentFile_eq hload' (accepts_congr hsame) k

theorem load_builds_relation_nestedNote :
    LoadsRelation sampleConfig (sampleStart nestedNote) ((sampleListing nestedNote).getD [])
      ((loadRootNodeTree sampleConfig (sampleListing nestedNote)).final
        (sampleStart nestedNote)) := by
  obtain ⟨_, hrun, _⟩ := Prog.run_of_check
    (m := loadRootNodeTree sampleConfig (sampleListing nestedNote))
    (s := sampleStart nestedNote) (f := fun _ _ => true) (by decide +kernel)
  exact (load_builds_relation structuralIcal_lawful (fun _ => rfl) ⟨by decide, by decide⟩
    fun _ h => absurd h List.not_mem_nil).1.ok hrun

end Agendafs
