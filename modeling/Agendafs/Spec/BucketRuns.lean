import Agendafs.ForStd.Sessions
import Agendafs.Spec.BucketsCorrect
import Mathlib.Logic.Function.Basic

/-!
# Runs of the hash table

A hash table that has been made and then used in any way, with up to 2^30 insertions,
answers like the table on lists that the rest of the development works with, and so
like a finite map. When it is freed, no bucket is left, and every value that it has
ever been given has been freed exactly once.

## Key results

- `Refines.step`: one call
- `hashmap_runs_as_table`: any calls, compared with the table on lists
- `hashmap_runs_as_map`: the finite map, and what is freed
-/

namespace Agendafs

open Prog Linked

variable {α : Type}

/-! ## The calls -/

/-- A call of a function of the hash table. -/
inductive MapCall (α : Type)
  | insert (key : CStr) (val : α)
  | get (key : CStr)
  | remove (key : CStr)
  | getKeys

/-- What a function of the hash table returns. -/
inductive MapAnswer (α : Type)
  | status (status : Int)
  | val (val : Option α)
  | keys (keys : List CStr)

/-- Call the function of the source. -/
def MapCall.run : MapCall α → BucketM α (MapAnswer α)
  | .insert key val => do pure (.status (← hashmapInsert key val))
  | .get key => do pure (.val (← hashmapGet key))
  | .remove key => do pure (.status (← hashmapRemove key))
  | .getKeys => do pure (.keys (← hashmapGetKeys))

/-- The answer of the table on lists, and the table afterwards. -/
def MapCall.onTable (hm : Hashmap α) : MapCall α → MapAnswer α × Hashmap α
  | .insert key val => (.status 0, hm.insert key val)
  | .get key => (.val (hm.get key), hm)
  | .remove key => (.status (if (hm.get key).isSome then 0 else 1), hm.remove key)
  | .getKeys => (.keys hm.getKeys, hm)

/-- What a finite map answers. -/
def MapCall.Answered (f : CStr → Option α) :
    MapCall α → MapAnswer α → (CStr → Option α) → Prop
  | .insert key val, r, f' => r = .status 0 ∧ f' = Function.update f key (some val)
  | .get key, r, f' => r = .val (f key) ∧ f' = f
  | .remove key, r, f' =>
    r = .status (if (f key).isSome then 0 else 1) ∧ f' = Function.update f key none
  | .getKeys, r, f' => f' = f ∧ ∃ keys, r = .keys keys ∧ keys.Nodup ∧
    ∀ key, key ∈ keys ↔ f key ≠ none

theorem answered_onTable (hm : Hashmap α) (c : MapCall α) :
    c.Answered hm.get (c.onTable hm).1 (c.onTable hm).2.get := by
  cases c with
  | insert key val => exact ⟨rfl, funext fun k => by
      rw [Function.update_apply]; exact hm.get_insert key val k⟩
  | get key => exact ⟨rfl, rfl⟩
  | remove key => exact ⟨rfl, funext fun k => by
      rw [Function.update_apply]; exact hm.get_remove key k⟩
  | getKeys =>
    refine ⟨rfl, _, rfl, hm.nodup_getKeys, fun key => (hm.mem_getKeys key).trans ?_⟩
    exact Option.ne_none_iff_exists'.symm

/-! ## What the table has -/

/-- The buckets of the table. -/
def Hashmap.live (hm : Hashmap α) : List (Bucket α) := hm.buckets.flatten

namespace Hashmap

variable {hm : Hashmap α} {key : CStr} {val : α}

theorem nodup_live (hm : Hashmap α) : hm.live.Nodup := hm.wf.nodup_keys.of_map

theorem mem_live {b : Bucket α} : b ∈ hm.live ↔ hm.get b.key = some b.val :=
  (hm.get_eq_some b.key b.val).symm

/-- Tables with the same keys and values have the same buckets. -/
theorem live_perm_of_get {hm' : Hashmap α} (h : ∀ k, hm.get k = hm'.get k) :
    hm.live.Perm hm'.live :=
  (List.perm_ext_iff_of_nodup hm.nodup_live hm'.nodup_live).2 fun b => by
    rw [mem_live, mem_live, h]

/-- A key that is there has one bucket. -/
theorem live_perm_remove (h : hm.get key = some val) :
    hm.live.Perm (⟨key, val⟩ :: (hm.remove key).live) := by
  have hgone : (⟨key, val⟩ : Bucket α) ∉ (hm.remove key).live := by
    rw [mem_live, get_remove, if_pos rfl]
    exact nofun
  refine (List.perm_ext_iff_of_nodup hm.nodup_live
    (List.nodup_cons.2 ⟨hgone, nodup_live _⟩)).2 fun b => ?_
  rw [List.mem_cons, mem_live, mem_live, get_remove]
  obtain ⟨k, v⟩ := b
  by_cases hk : k = key
  · subst hk
    simp [h, eq_comm]
  · simp [hk]

theorem live_insert_perm (hm : Hashmap α) (key : CStr) (val : α) :
    (hm.insert key val).live.Perm (⟨key, val⟩ :: (hm.remove key).live) := by
  refine (live_perm_remove (by rw [get_insert, if_pos rfl])).trans
    ((live_perm_of_get fun k => ?_).cons _)
  rw [get_remove, get_remove, get_insert]
  split <;> rfl

theorem live_remove_perm (h : hm.get key = none) : hm.live.Perm (hm.remove key).live :=
  live_perm_of_get fun k => by
    rw [get_remove]
    split
    · rename_i hk
      rw [hk, h]
    · rfl

end Hashmap

/-! ## One call -/

/-- The table on lists and the table in memory have the same buckets in the same order. -/
def Refines (m : Memory (BucketData α) (HashmapData α)) (hm : Hashmap α) : Prop :=
  ∃ t, Holds m t ∧ t.map Prod.snd = hm.buckets ∧ m.rest.nBuckets = hm.nBuckets

variable {m : Memory (BucketData α) (HashmapData α)} {hm : Hashmap α} {n : Nat}

theorem find_get {t : Table (Nat × α)} (ht : t.map Prod.snd = hm.buckets) (key : CStr) :
    (t.find key).map (·.val.2) = hm.get key := by
  unfold Table.find Hashmap.get
  rw [← ht, Table.length_map, Table.chainAt_map, List.find?_map, Option.map_map]
  rfl

theorem refines_new (freesVals : Bool) :
    Refines (hashmapNew freesVals : Memory (BucketData α) _) .new := by
  refine ⟨List.replicate 16 [], ⟨⟨rfl, fun i p hp => ?_, fun i j b hb => ?_⟩, rfl,
    Table.wf_replicate (by decide), nofun⟩, rfl, rfl⟩
  · rw [Table.chainAt_replicate_nil]
    have hp := List.mem_of_getElem? hp
    exact (List.eq_of_mem_replicate hp)
  · rw [Table.chainAt_replicate_nil] at hb
    cases hb

/-- A table of up to `2 ^ e` buckets is doubled up to that size only. -/
theorem le_of_overloaded {e k : Nat} (hn : n ≤ 2 ^ e) (h : overloaded n (2 ^ k) = true) :
    k ≤ e := by
  have hcapacity : Rounding.roundTo 24 (2 ^ k) = 2 ^ k := by
    have hone := Rounding.roundTo_mul_two_pow (p := 24) (m := 1) (by decide) k
    rwa [Nat.one_mul] at hone
  have hround : Rounding.roundTo 24 n ≤ 2 ^ e := Rounding.roundTo_le_two_pow (by decide) hn
  unfold overloaded at h
  rw [decide_eq_true_iff, hcapacity, Rounding.roundTo_mul_two_pow (by decide)] at h
  by_contra hlt
  have hpow : 2 ^ (e + 1) ≤ 2 ^ k := Nat.pow_le_pow_right (by decide) (Nat.lt_of_not_le hlt)
  rw [Nat.pow_succ] at hpow
  omega

/-- How large a table is after so many insertions, of which there are up to 2^30. -/
structure Hashmap.Bounded (hm : Hashmap α) (n : Nat) : Prop where
  /-- `n_buckets` may count a bucket twice, but never forgets one. -/
  live : hm.live.length ≤ hm.nBuckets
  inserts : hm.nBuckets ≤ n
  capacity : ∃ k ≤ 31, hm.buckets.length = 2 ^ k

theorem insertBucket_run {t : Table (Nat × α)} (hm : Holds m t) (hsmall : t.length < 2 ^ 32)
    (key : CStr) (val : α) :
    ∃ m' t', insertBucket key val m = .ok (0, m') ∧ Holds m' t' ∧
      t'.map Prod.snd = (t.map Prod.snd).insert key val ∧
      m'.rest.nBuckets = m.rest.nBuckets + 1 ∧ m'.rest.freesVals = m.rest.freesVals ∧
      m'.rest.valsFreed = m.rest.valsFreed ++
        if m.rest.freesVals then ((t.find key).map (·.val.2)).toList else [] := by
  cases hfind : t.find key with
  | none =>
    obtain ⟨h', heads', hrun, hholds⟩ := insertBucket_new val hm hsmall hfind
    refine ⟨_, _, hrun, hholds, ?_, rfl, rfl, ?_⟩
    · rw [Table.map_append hm.wf.capacity_pos]
      refine (Table.insert_of_not_mem val (by simpa using hm.wf.capacity_pos) ?_).symm
      rw [Table.length_map, Table.chainAt_map, List.map_map]
      exact fun hmem => hm.not_mem_keys hfind
        (List.map_subset _ (fun b hb => (Table.mem_flatten_iff t b).2 ⟨_, hb⟩) hmem)
    · simp
  | some b =>
    obtain ⟨h', t', hrun, hholds, hmap⟩ := insertBucket_old val hm hsmall hfind
    exact ⟨_, t', hrun, hholds, hmap, rfl, rfl, rfl⟩

/-- What a call leaves: the table, and the values that it has given up, which are freed if there is
    a function that frees them. -/
structure Leaves (m m' : Memory (BucketData α) (HashmapData α)) (hm' : Hashmap α)
    (dropped : List α) : Prop where
  refines : Refines m' hm'
  freesVals : m'.rest.freesVals = m.rest.freesVals
  valsFreed : m'.rest.valsFreed = m.rest.valsFreed ++ if m.rest.freesVals then dropped else []

theorem Leaves.refl (h : Refines m hm) : Leaves m m hm [] := ⟨h, rfl, by simp⟩

theorem hashmapInsert_run (h : Refines m hm) (hsmall : hm.buckets.length < 2 ^ 32)
    (hgrow : overloaded (hm.nBuckets + 1) hm.buckets.length = true →
      hm.buckets.length * 2 < 2 ^ 32)
    (key : CStr) (val : α) :
    ∃ m', hashmapInsert key val m = .ok (0, m') ∧
      Leaves m m' (hm.insert key val) (hm.get key).toList := by
  obtain ⟨t, hholds, ht, hn⟩ := h
  have hlength : t.length = hm.buckets.length := by rw [← ht, Table.length_map]
  have hfind := find_get ht key
  unfold hashmapInsert
  rw [bind_run_ok (get_run _), hholds.capacity, hlength, hn]
  dsimp only
  by_cases hload : overloaded (hm.nBuckets + 1) hm.buckets.length = true
  · obtain ⟨h', heads', hresize, hresized⟩ :=
      hashmapResize_run hholds (by rw [hlength]; exact hgrow hload)
    have htable : t.resize.map Prod.snd = hm.resize.buckets := by
      rw [Table.map_resize hholds.wf.capacity_pos, ht]
      rfl
    obtain ⟨m', t', hrun, hholds', ht', hn', hvals, hfreed⟩ :=
      insertBucket_run hresized (by rw [Table.length_resize, hlength]; exact hgrow hload) key val
    rw [if_pos hload, bind_run_ok hresize]
    refine ⟨m', hrun, ⟨t', hholds', ?_, ?_⟩, hvals, ?_⟩
    · rw [ht', htable, Hashmap.insert, if_pos hload]
    · rw [hn', Hashmap.insert, if_pos hload]
      exact congrArg (· + 1) hn
    · rw [hfreed, find_get htable, Hashmap.resize_get]
  · obtain ⟨m', t', hrun, hholds', ht', hn', hvals, hfreed⟩ :=
      insertBucket_run hholds (by rwa [hlength]) key val
    rw [if_neg hload]
    refine ⟨m', hrun, ⟨t', hholds', ?_, ?_⟩, hvals, ?_⟩
    · rw [ht', ht, Hashmap.insert, if_neg hload]
    · rw [hn', Hashmap.insert, if_neg hload, hn]
    · rw [hfreed, hfind]

theorem hashmapRemove_run (h : Refines m hm) (hsmall : hm.buckets.length < 2 ^ 32) (key : CStr) :
    ∃ m', hashmapRemove key m = .ok (if (hm.get key).isSome then 0 else 1, m') ∧
      Leaves m m' (hm.remove key) (hm.get key).toList := by
  obtain ⟨t, hholds, ht, hn⟩ := h
  have hlength : t.length = hm.buckets.length := by rw [← ht, Table.length_map]
  have hfind := find_get ht key
  have hremove : (t.remove key).map Prod.snd = (hm.remove key).buckets := by
    change (t.remove key).map Prod.snd = hm.buckets.remove key
    rw [← ht]
    unfold Table.remove
    rw [Table.length_map]
    refine Table.map_modify (Table.slot_lt hholds.wf.capacity_pos key) ?_
    rw [List.eraseP_map]
    rfl
  cases hb : t.find key with
  | none =>
    have hsame : t.remove key = t := Table.ext (Table.length_remove ..) fun i => by
      rw [Table.remove, Table.chainAt_modify _ _ _ _ (Table.slot_lt hholds.wf.capacity_pos key)]
      split
      · rename_i hi
        exact List.eraseP_of_forall_not (List.find?_eq_none.1 (hi ▸ hb))
      · rfl
    rw [hb] at hfind
    rw [← hfind]
    refine ⟨m, hashmapRemove_none hholds (by rwa [hlength]) hb, .refl ⟨t, hholds, ?_, ?_⟩⟩
    · rw [← hremove, hsame]
    · rw [Hashmap.remove, ← hfind]
      exact hn
  | some b =>
    rw [hb] at hfind
    obtain ⟨h', heads', hrun, hholds'⟩ := hashmapRemove_some hholds (by rwa [hlength]) hb
    rw [← hfind]
    refine ⟨_, hrun, ⟨_, hholds', hremove, ?_⟩, rfl, rfl⟩
    rw [Hashmap.remove, ← hfind]
    exact congrArg (· - 1) hn

theorem Leaves.trans {m' m'' : Memory (BucketData α) (HashmapData α)} {hm' hm'' : Hashmap α}
    {dropped dropped' : List α} (h : Leaves m m' hm' dropped) (h' : Leaves m' m'' hm'' dropped') :
    Leaves m m'' hm'' (dropped ++ dropped') where
  refines := h'.refines
  freesVals := h'.freesVals.trans h.freesVals
  valsFreed := by
    rw [h'.valsFreed, h.valsFreed, h.freesVals, List.append_assoc]
    split <;> rfl

theorem length_live_remove (hm : Hashmap α) (key : CStr) :
    (hm.remove key).live.length + (hm.get key).toList.length = hm.live.length := by
  cases h : hm.get key with
  | none => exact (hm.live_remove_perm h).length_eq.symm
  | some val => exact (hm.live_perm_remove h).length_eq.symm

theorem Hashmap.Bounded.mono (h : hm.Bounded n) {n' : Nat} (hn : n ≤ n') : hm.Bounded n' :=
  ⟨h.live, h.inserts.trans hn, h.capacity⟩

/-- The indices of the table are numbers of 32 bits. -/
theorem Hashmap.Bounded.small (h : hm.Bounded n) : hm.buckets.length < 2 ^ 32 := by
  obtain ⟨k, hk, hlength⟩ := h.capacity
  rw [hlength]
  exact Nat.pow_lt_pow_right (by decide) (Nat.lt_succ_of_le hk)

/-- With the capacity of a table that is doubled for one of the first 2^30 insertions there is room
    for another factor of two. -/
theorem Hashmap.Bounded.resized (h : hm.Bounded n) (hn : n + 1 ≤ 2 ^ 30)
    (hload : overloaded (hm.nBuckets + 1) hm.buckets.length = true) :
    ∃ k ≤ 31, hm.buckets.length * 2 = 2 ^ k := by
  obtain ⟨k, _, hlength⟩ := h.capacity
  rw [hlength] at hload ⊢
  have hinserts := h.inserts
  exact ⟨k + 1, Nat.succ_le_succ (le_of_overloaded (by omega) hload), (Nat.pow_succ ..).symm⟩

theorem Hashmap.Bounded.small_resized (h : hm.Bounded n) (hn : n + 1 ≤ 2 ^ 30)
    (hload : overloaded (hm.nBuckets + 1) hm.buckets.length = true) :
    hm.buckets.length * 2 < 2 ^ 32 := by
  obtain ⟨k, hk, hlength⟩ := h.resized hn hload
  rw [hlength]
  exact Nat.pow_lt_pow_right (by decide) (Nat.lt_succ_of_le hk)

theorem Hashmap.Bounded.insert (h : hm.Bounded n) (hn : n + 1 ≤ 2 ^ 30) (key : CStr) (val : α) :
    (hm.insert key val).Bounded (n + 1) := by
  have hinserts := h.inserts
  have hbound := h.live
  have hlive := (hm.live_insert_perm key val).length_eq
  have hremove := length_live_remove hm key
  rw [List.length_cons] at hlive
  have hcount : (hm.insert key val).nBuckets = hm.nBuckets + 1 := by
    unfold Hashmap.insert
    split <;> rfl
  refine ⟨by omega, by omega, ?_⟩
  unfold Hashmap.insert
  split
  · rename_i hload
    have hlength : (hm.resize.buckets.insert key val).length = hm.buckets.length * 2 :=
      (Table.length_insert ..).trans (Table.length_resize _)
    exact hlength ▸ h.resized hn hload
  · exact (Table.length_insert hm.buckets key val).symm ▸ h.capacity

theorem Hashmap.Bounded.remove (h : hm.Bounded n) (key : CStr) : (hm.remove key).Bounded n := by
  have hinserts := h.inserts
  have hremove := length_live_remove hm key
  have hbound := h.live
  refine ⟨?_, ?_, ?_⟩
  · change (hm.remove key).live.length ≤ if (hm.get key).isSome then _ else _
    cases hget : hm.get key with
    | none => rw [hget] at hremove; simpa using hremove.le.trans hbound
    | some val =>
      rw [hget] at hremove
      simp only [Option.toList_some, List.length_singleton] at hremove
      simp only [Option.isSome_some, if_true]
      omega
  · change (if (hm.get key).isSome then hm.nBuckets - 1 else hm.nBuckets) ≤ n
    split <;> omega
  · exact (Table.length_remove hm.buckets key).symm ▸ h.capacity

/-- Does the call insert? -/
def MapCall.inserts : MapCall α → Bool
  | .insert _ _ => true
  | _ => false

theorem Hashmap.Bounded.step (h : hm.Bounded n) (c : MapCall α)
    (hn : n + c.inserts.toNat ≤ 2 ^ 30) : (c.onTable hm).2.Bounded (n + c.inserts.toNat) := by
  cases c with
  | insert key val => exact h.insert hn key val
  | get key => exact h
  | remove key => exact h.remove key
  | getKeys => exact h

/-- The values that a call gives to the table. -/
def MapCall.given : MapCall α → List α
  | .insert _ val => [val]
  | _ => []

/-- The value that a call takes out of the table. -/
def MapCall.dropped (hm : Hashmap α) : MapCall α → List α
  | .insert key _ => (hm.get key).toList
  | .remove key => (hm.get key).toList
  | _ => []

/-- No value is lost, and none is there twice. -/
theorem MapCall.ledger (hm : Hashmap α) (c : MapCall α) :
    (c.dropped hm ++ (c.onTable hm).2.live.map Bucket.val).Perm
      (hm.live.map Bucket.val ++ c.given) := by
  have hgone : ∀ key, ((hm.get key).toList ++ (hm.remove key).live.map Bucket.val).Perm
      (hm.live.map Bucket.val) := by
    intro key
    cases h : hm.get key with
    | none => exact ((hm.live_remove_perm h).map _).symm
    | some val => exact ((hm.live_perm_remove h).map Bucket.val).symm
  cases c with
  | insert key val =>
    have hinsert := ((hm.live_insert_perm key val).map Bucket.val).append_left (hm.get key).toList
    refine hinsert.trans ?_
    rw [List.map_cons]
    exact List.perm_middle.trans (((hgone key).cons val).trans
      (List.perm_append_singleton val _).symm)
  | get key => exact (List.append_nil _).symm ▸ .refl _
  | remove key => exact (hgone key).trans ((List.append_nil _).symm ▸ .refl _)
  | getKeys => exact (List.append_nil _).symm ▸ .refl _

theorem hashmapGet_table (h : Refines m hm) (hsmall : hm.buckets.length < 2 ^ 32) (key : CStr) :
    hashmapGet key m = .ok (hm.get key, m) := by
  obtain ⟨t, hholds, ht, _⟩ := h
  have hlength : t.length = hm.buckets.length := by rw [← ht, Table.length_map]
  rw [hashmapGet_run hholds (by omega) key, find_get ht]

theorem hashmapGetKeys_table (h : Refines m hm) (hlive : hm.live.length ≤ hm.nBuckets) :
    hashmapGetKeys m = .ok (hm.getKeys, m) := by
  obtain ⟨t, hholds, ht, hn⟩ := h
  have hflat : hm.buckets.flatten = t.flatten.map (Bucket.map Prod.snd) := by
    rw [← ht, Table.map_flatten]
  unfold Hashmap.live at hlive
  rw [hflat, List.length_map, ← hn] at hlive
  rw [hashmapGetKeys_run hholds hlive, Hashmap.getKeys, hflat, List.map_map]
  rfl

/-- One call answers like the table on lists. -/
theorem Refines.step (h : Refines m hm) (hb : hm.Bounded n) (c : MapCall α)
    (hn : n + c.inserts.toNat ≤ 2 ^ 30) :
    ∃ m', c.run m = .ok ((c.onTable hm).1, m') ∧ Leaves m m' (c.onTable hm).2 (c.dropped hm) := by
  have hsmall := hb.small
  cases c with
  | insert key val =>
    obtain ⟨m', hrun, hleaves⟩ :=
      hashmapInsert_run h hsmall (hb.small_resized hn) key val
    exact ⟨m', bind_run_ok hrun, hleaves⟩
  | get key => exact ⟨m, bind_run_ok (hashmapGet_table h hsmall key), .refl h⟩
  | remove key =>
    obtain ⟨m', hrun, hleaves⟩ := hashmapRemove_run h hsmall key
    exact ⟨m', bind_run_ok hrun, hleaves⟩
  | getKeys => exact ⟨m, bind_run_ok (hashmapGetKeys_table h hb.live), .refl h⟩

/-! ## Runs -/

/-- The answers of the table on lists, and the table afterwards. -/
def MapCall.onTables (hm : Hashmap α) : List (MapCall α) → List (MapAnswer α) × Hashmap α
  | [] => ([], hm)
  | c :: cs =>
    let rest := onTables (c.onTable hm).2 cs
    ((c.onTable hm).1 :: rest.1, rest.2)

theorem Refines.run (h : Refines m hm) (hb : hm.Bounded n) (cs : List (MapCall α))
    (hn : n + cs.countP MapCall.inserts ≤ 2 ^ 30) :
    ∃ m' dropped, (cs.mapM MapCall.run) m = .ok ((MapCall.onTables hm cs).1, m') ∧
      Leaves m m' (MapCall.onTables hm cs).2 dropped ∧
      (dropped ++ (MapCall.onTables hm cs).2.live.map Bucket.val).Perm
        (hm.live.map Bucket.val ++ cs.flatMap MapCall.given) := by
  induction cs generalizing m hm n with
  | nil =>
    refine ⟨m, [], rfl, .refl h, ?_⟩
    rw [List.flatMap_nil, List.append_nil]
    exact .refl _
  | cons c cs ih =>
    have hcount : n + c.inserts.toNat + cs.countP MapCall.inserts ≤ 2 ^ 30 := by
      refine Nat.le_trans (Nat.le_of_eq ?_) hn
      rw [List.countP_cons, Nat.add_assoc, Nat.add_comm (c.inserts.toNat)]
      cases c.inserts <;> rfl
    have hstep := Nat.le_trans (Nat.le_add_right _ _) hcount
    obtain ⟨m₁, hrun, hleaves⟩ := h.step hb c hstep
    obtain ⟨m', dropped, hruns, hrest, hledger⟩ := ih hleaves.refines (hb.step c hstep) hcount
    refine ⟨m', c.dropped hm ++ dropped, ?_, hleaves.trans hrest, ?_⟩
    · rw [List.mapM_cons, bind_run_ok hrun, bind_run_ok hruns]
      rfl
    · rw [List.append_assoc, List.flatMap_cons, ← List.append_assoc (hm.live.map _)]
      refine (hledger.append_left _).trans ?_
      rw [← List.append_assoc]
      exact (c.ledger hm).append_right _

theorem bounded_new : (Hashmap.new : Hashmap α).Bounded 0 :=
  ⟨Nat.le_of_eq (congrArg List.length (Table.flatten_replicate_nil 16)), Nat.le_refl 0, 4,
    by decide, rfl⟩

/-- A new table in memory, used in any way, is the table on lists: the same answers, and the same
    buckets in the same order. -/
theorem hashmap_runs_as_table (freesVals : Bool) (cs : List (MapCall α))
    (hinserts : cs.countP MapCall.inserts ≤ 2 ^ 30) :
    ∃ m, (cs.mapM MapCall.run) (hashmapNew freesVals) =
        .ok ((MapCall.onTables .new cs).1, m) ∧ Refines m (MapCall.onTables .new cs).2 := by
  obtain ⟨m, _, hrun, hleaves, _⟩ :=
    (refines_new freesVals).run bounded_new cs (by rwa [Nat.zero_add])
  exact ⟨m, hrun, hleaves.refines⟩

/-- Calls that use each function, with a key that is inserted twice. -/
def sampleMapCalls : List (MapCall Nat) :=
  [.insert (bytes "a") 1, .insert (bytes "a") 2, .insert (bytes "b") 3, .get (bytes "a"),
    .remove (bytes "a"), .getKeys]

theorem hashmap_runs_as_table_sample :
    ∃ m, (sampleMapCalls.mapM MapCall.run) (hashmapNew true) =
        .ok ((MapCall.onTables .new sampleMapCalls).1, m) ∧
      Refines m (MapCall.onTables .new sampleMapCalls).2 :=
  hashmap_runs_as_table true sampleMapCalls (by decide)

/-- The answers of the table on lists are those of a finite map. -/
theorem onTables_session (hm : Hashmap α) (cs : List (MapCall α)) :
    Session MapCall.Answered hm.get (cs.zip (MapCall.onTables hm cs).1)
      (MapCall.onTables hm cs).2.get := by
  induction cs generalizing hm with
  | nil => exact .nil _
  | cons c cs ih => exact .cons (answered_onTable hm c) (ih _)

/-- A new table, used in any way and then freed: its answers are those of a finite map, no bucket
    is left, and all values that it has been given have been freed, each once. -/
theorem hashmap_runs_as_map (freesVals : Bool) (cs : List (MapCall α))
    (hinserts : cs.countP MapCall.inserts ≤ 2 ^ 30) :
    ∃ answers m f, (cs.mapM MapCall.run) (hashmapNew freesVals) = .ok (answers, m) ∧
      Session MapCall.Answered (fun _ => none) (cs.zip answers) f ∧
      ∃ m', hashmapFree m = .ok ((), m') ∧ (∀ a, m'.heap.cell a = none) ∧
        (freesVals = true → m'.rest.valsFreed.Perm (cs.flatMap MapCall.given)) := by
  obtain ⟨m, dropped, hrun, hleaves, hledger⟩ :=
    (refines_new freesVals).run bounded_new cs (by rwa [Nat.zero_add])
  obtain ⟨t, hholds, ht, _⟩ := hleaves.refines
  obtain ⟨h', hfree, hnone⟩ := hashmapFree_run hholds
  have hnew : (fun _ => none) = (Hashmap.new : Hashmap α).get :=
    funext fun key => (Hashmap.get_new key).symm
  refine ⟨_, m, _, hrun, hnew ▸ onTables_session .new cs, _, hfree, hnone, fun hfrees => ?_⟩
  have hvals : (MapCall.onTables Hashmap.new cs).2.live.map Bucket.val =
      t.flatten.map (·.val.2) := by
    rw [Hashmap.live, ← ht, Table.map_flatten, List.map_map]
    rfl
  have hstart : (hashmapNew freesVals : Memory (BucketData α) _).rest.freesVals = true := hfrees
  have hlive : (Hashmap.new : Hashmap α).live = [] := Table.flatten_replicate_nil 16
  rw [hvals, hlive, List.map_nil, List.nil_append] at hledger
  have hfreed := hleaves.valsFreed
  rw [hstart, if_pos rfl] at hfreed
  change (m.rest.valsFreed ++ if m.rest.freesVals then _ else _).Perm _
  rw [hleaves.freesVals, hstart, if_pos rfl, hfreed]
  exact hledger

theorem hashmap_runs_as_map_sample :
    ∃ answers m f, (sampleMapCalls.mapM MapCall.run) (hashmapNew true) = .ok (answers, m) ∧
      Session MapCall.Answered (fun _ => none) (sampleMapCalls.zip answers) f ∧
      ∃ m', hashmapFree m = .ok ((), m') ∧ (∀ a, m'.heap.cell a = none) ∧
        m'.rest.valsFreed.Perm [1, 2, 3] := by
  obtain ⟨answers, m, f, hrun, hsession, m', hfree, hnone, hfreed⟩ :=
    hashmap_runs_as_map true sampleMapCalls (by decide)
  exact ⟨answers, m, f, hrun, hsession, m', hfree, hnone, hfreed rfl⟩

end Agendafs
