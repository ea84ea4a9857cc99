import Agendafs.Spec.LoadCorrect
import Agendafs.Spec.WritesCorrect

/-!
# The tree the load builds

While the second loop goes through the notes it marks the files of parents as
directories, so the files change under it. With libical as documented a mark
leaves every parent UID as it was, and what a write that fails midway leaves is
known from the outcomes of the writes that are made. So the parent of each loaded
note is the node of a UID it has had.

## Key results

- `Hung.attached`: what one round of the second loop keeps
- `wp_load_parents`: where each note hangs after the load
-/

namespace Agendafs

open Store

variable {Text : Type} {cfg : Config Text} {w u u' : World Text}

/-- The parent UID in the content of a file. -/
def parentUidOf (cfg : Config Text) (content : Text) : Option CStr :=
  (cfg.ical.newFromString content).bind (getParentUid cfg.ical)

/-- Marking a parent takes its write from the environment, if it makes one, and only a write that
    fails midway leaves another parent UID in a file. -/
theorem marked_made (hL : cfg.ical.Lawful) (p : NodeId) :
    ∃ n ≤ 1, (u.marked cfg p).env.writes = u.env.writes.drop n ∧
      ∀ k, (u.marked cfg p).parentUid cfg k = u.parentUid cfg k ∨
        ∃ left, .writeFailed left ∈ u.env.writes.take n ∧
          (u.marked cfg p).parentUid cfg k = parentUidOf cfg left := by
  cases hm : u.markedFile cfg p with
  | none =>
    rw [marked_of_markedFile_none hm]
    exact ⟨0, Nat.zero_le 1, rfl, fun _ => .inl rfl⟩
  | some k =>
    obtain ⟨_, _, _, _, _, _, hmarked⟩ := marked_of_markedFile hm
    refine ⟨1, Nat.le_refl 1, ?_, fun k' => ?_⟩
    · rw [hmarked, wrote_writes, List.drop_one]
    · exact (parentUid_marked hL p k').imp id fun ⟨left, ho, hu⟩ => ⟨left, mem_of_outcome ho, hu⟩

theorem marked_env_writes (p : NodeId) :
    ∀ o ∈ (u.marked cfg p).env.writes, o ∈ u.env.writes := by
  intro o ho
  unfold World.marked at ho
  split at ho
  · split at ho
    · exact ho
    · exact List.mem_of_mem_tail ho
  · exact ho

/-- The loaded tree: `R` bounds the parent UIDs the accepted files have had. -/
structure Loaded (cfg : Config Text) (w : World Text) (listing : List Dirent)
    (R : CStr → Option CStr → Prop) (u : World Text) : Prop where
  sound : u.store.Sound
  unique : u.store.UniqueNames
  index : ∀ k, (∃ n, u.store.entriesVdir.get k = some n) ↔ w.Accepts cfg listing k
  parent : ∀ k n, u.store.entriesVdir.get k = some n →
    ∃ o, R k o ∧ u.store.links.parent n = u.store.target o
  parentUid : ∀ k, w.Accepts cfg listing k → R k (u.parentUid cfg k)

/-- What the second loop of the load keeps, when it has been through the names in `pre`. -/
structure Hung (cfg : Config Text) (w : World Text) (listing : List Dirent)
    (R : CStr → Option CStr → Prop) (pre : List CStr) (u : World Text) : Prop where
  parentUid : ∀ k, w.Accepts cfg listing k → R k (u.parentUid cfg k)
  parent : ∀ k ∈ pre, ∀ n, u.store.entriesVdir.get k = some n →
    ∃ o, R k o ∧ u.store.links.parent n = u.store.target o

/-- A round of the second loop makes at most one write. -/
theorem Attached.made (hL : cfg.ical.Lawful) {k : CStr} (ha : Attached cfg u k u') :
    ∃ n ≤ 1, u'.env.writes = u.env.writes.drop n ∧
      ∀ k, u'.parentUid cfg k = u.parentUid cfg k ∨
        ∃ left, .writeFailed left ∈ u.env.writes.take n ∧
          u'.parentUid cfg k = parentUidOf cfg left := by
  cases ha with
  | orphan => exact ⟨0, Nat.zero_le 1, rfl, fun _ => .inl rfl⟩
  | placed => exact marked_made hL _

/-- One round of the second loop. -/
theorem Hung.attached {listing : List Dirent} {R : CStr → Option CStr → Prop}
    {v : World Text} {pre : List CStr} {k : CStr} (hinv : LoadInv v pre u)
    (h : Hung cfg w listing R pre u) (hk : k ∉ pre)
    (haccepts : ∀ n, u.store.entriesVdir.get k = some n → w.Accepts cfg listing k)
    (huid : ∀ k, w.Accepts cfg listing k → R k (u'.parentUid cfg k))
    (ha : Attached cfg u k u') : Hung cfg w listing R (pre ++ [k]) u' := by
  refine ⟨huid, ?_⟩
  cases ha with
  -- A node whose parent is not found keeps none, and that is its target.
  | orphan hn hp =>
    intro k' hk' m hm
    rcases List.mem_append.1 hk' with hk' | hk'
    · exact h.parent k' hk' m hm
    · rw [List.mem_singleton] at hk'
      subst hk'
      exact ⟨_, h.parentUid k' (haccepts m hm), (hinv.unattached k' hk m hm).trans hp.symm⟩
  | @placed n p hn hp =>
    obtain ⟨e, he, hek⟩ := (hinv.sound.index k n).1 hn
    have hlive := hinv.sound.live_of_target hp
    have hparent : (u.store.place p n (u.store.placedName p n)).links.parent = _ :=
      place_parent hinv.sound.wf hlive (live_of_entry he)
    have htarget : ∀ o, (u.store.place p n (u.store.placedName p n)).target o =
        u.store.target o := target_congr place_fuseRoot place_entriesVdir
    intro k' hk' m hm
    simp only [place_entriesVdir] at hm
    simp only [hparent, htarget]
    -- The node of this round now hangs below its target; the others stay where they are.
    by_cases hmn : m = n
    · subst hmn
      rw [Function.update_self]
      have hkk : k' = k := by
        obtain ⟨e', he', hek'⟩ := (hinv.sound.index k' m).1 hm
        rw [he, Option.some.injEq] at he'
        rw [← hek', ← he', hek]
      subst hkk
      exact ⟨_, h.parentUid k' (haccepts m hn), hp.symm⟩
    · rw [Function.update_of_ne hmn]
      rcases List.mem_append.1 hk' with hk' | hk'
      · exact h.parent k' hk' m hm
      · rw [List.mem_singleton] at hk'
        subst hk'
        exact absurd (Option.some.inj (hm.symm.trans hn)) hmn

/-- At the end of the second loop every note has been through it. -/
theorem Hung.loaded {listing : List Dirent} {R : CStr → Option CStr → Prop} {s : Store}
    {v : World Text} {keys : List CStr} (hv : Indexed cfg { w with store := s } listing v)
    (hinv : LoadInv v keys u) (hkeys : ∀ k n, u.store.entriesVdir.get k = some n → k ∈ keys)
    (h : Hung cfg w listing R keys u) : Loaded cfg w listing R u := by
  refine ⟨hinv.sound, hinv.unique, fun k => ⟨?_, ?_⟩,
    fun k n hn => h.parent k (hkeys k n hn) n hn, h.parentUid⟩
  · rintro ⟨n, hn⟩
    rw [hinv.index] at hn
    exact (hv.index k n hn).1
  · intro hk
    rw [hinv.index]
    exact hv.accepts k hk

/-- Each note of the loaded tree hangs below the node of a parent UID that its file
    has had at the start or through a write of the load that failed midway. -/
theorem wp_load_parents (hL : cfg.ical.Lawful) (hstart : w.AtStart)
    {listing : Option (List Dirent)} (hlisting : ValidListing (listing.getD []))
    {R : CStr → Option CStr → Prop}
    (hR : ∀ k, w.Accepts cfg (listing.getD []) k → R k (w.parentUid cfg k)) :
    Prog.wp (loadRootNodeTree cfg listing)
      (fun _ u => (∀ left, .writeFailed left ∈ w.madeWrites u → ∀ k, R k (parentUidOf cfg left)) →
        Loaded cfg w (listing.getD []) R u) Crash.Visible w := by
  -- The writes made so far are the first `n` outcomes.
  refine Prog.wp_mono (wp_loadRootNodeTree hstart hlisting
    (fun pre u => ∃ n, u.env.writes = w.env.writes.drop n ∧
      ((∀ left, .writeFailed left ∈ w.env.writes.take n → ∀ k, R k (parentUidOf cfg left)) →
        Hung cfg w (listing.getD []) R pre u)) ?_ ?_) ?_ fun _ hc => hc
  · -- The first loop reads files only.
    intro v hv
    refine ⟨0, by rw [hv.env]; rfl, fun _ => ⟨fun k hk => ?_, fun k hk => nomatch hk⟩⟩
    unfold World.parentUid World.fileComponent
    rw [hv.files]
    exact hR k hk
  · rintro v pre k u u' hv hinv ⟨n, hwrites, hu⟩ hk ha
    obtain ⟨m, _, hmade, huid⟩ := ha.made hL
    have htake : w.env.writes.take (n + m) = w.env.writes.take n ++ u.env.writes.take m := by
      rw [hwrites, List.take_add]
    refine ⟨n + m, by rw [hmade, hwrites, List.drop_drop], fun hleft => ?_⟩
    rw [htake] at hleft
    have hu := hu fun left hl => hleft left (List.mem_append_left _ hl)
    refine hu.attached hinv hk (fun m hm => ?_) (fun k' hk' => ?_) ha
    · exact (hv.index k m (by rw [← hinv.index]; exact hm)).1
    · rcases huid k' with hsame | ⟨left, hl, hparent⟩
      · rw [hsame]
        exact hu.parentUid k' hk'
      · rw [hparent]
        exact hleft left (List.mem_append_right _ hl) k'
  · rintro _ u ⟨v, keys, hv, hinv, hkeys, n, hwrites, hu⟩ hleft
    rw [madeWrites_eq hwrites] at hleft
    exact (hu hleft).loaded hv hinv hkeys

end Agendafs
