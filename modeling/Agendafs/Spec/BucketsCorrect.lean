import Agendafs.Spec.BucketChains

/-!
# The functions of hashmap.c

What each function does with a table in memory: none of them follows a NULL or
dangling pointer, leaves an array or divides by zero, the loops end, and what they
leave is the table that the model of `hashmap.c` computes on lists.

## Key results

- `hashmapResize_run`: every bucket is rehung, in order
- `insertBucket_new`, `insertBucket_old`: a new bucket, or a new value
- `hashmapGet_run`, `hashmapRemove_some`, `hashmapGetKeys_run`: the other functions
- `hashmapFree_run`: each bucket is freed once, and with it its value
-/

namespace Agendafs

open Prog Linked

variable {α : Type} {h h' : Heap (BucketData α)} {heads : List (Option Nat)}
  {t ns : Table (Nat × α)} {r : HashmapData α} {p : Option Nat} {key : CStr}

/-! ## Slots and chains -/

theorem chainSteps_run : chainSteps (⟨h, r⟩ : Memory _ _) = .ok (h.brk + 1, ⟨h, r⟩) := rfl

/-- Below 2^32 slots the cast of the capacity changes nothing. -/
theorem slotOf_run {m : Memory (BucketData α) (HashmapData α)} {capacity : Nat}
    (hpos : 0 < capacity) (hsmall : capacity < 2 ^ 32) :
    slotOf (fnv1aHash key) capacity m = .ok (slot capacity key, m) := by
  unfold slotOf slot
  rw [Nat.mod_eq_of_lt hsmall, if_neg (Nat.ne_of_gt hpos)]
  rfl

theorem readSlot_run {m : Memory (BucketData α) (HashmapData α)} {i : Nat}
    (hp : heads[i]? = some p) : readSlot heads i m = .ok (p, m) := by
  unfold readSlot
  rw [hp]
  rfl

theorem writeSlot_run {m : Memory (BucketData α) (HashmapData α)} {i : Nat}
    (hi : i < heads.length) : writeSlot heads i p m = .ok (heads.set i p, m) := by
  unfold writeSlot
  rw [if_pos hi]
  rfl

/-- The hash of a bucket never hides its key. -/
theorem hash_and_key (b : Bucket (Nat × α)) (key : CStr) :
    (fnv1aHash b.key = fnv1aHash key ∧ b.key = key) ↔ b.key = key :=
  ⟨fun hb => hb.2, fun hb => ⟨congrArg fnv1aHash hb, hb⟩⟩

/-- The search of a chain finds the first bucket with the key. -/
theorem findBucket_run {xs : List (Bucket (Nat × α))} {fuel : Nat}
    (hs : h.Chain p (xs.map Bucket.located)) (hfuel : xs.length < fuel) :
    findBucket (fnv1aHash key) key fuel p ⟨h, r⟩ =
      .ok ((xs.find? (·.key = key)).map Bucket.addr, ⟨h, r⟩) := by
  induction xs generalizing fuel p with
  | nil =>
    obtain ⟨fuel, rfl⟩ := Nat.exists_eq_add_one.2 (Nat.zero_lt_of_lt hfuel)
    obtain rfl := hs
    rfl
  | cons b xs ih =>
    obtain ⟨fuel, rfl⟩ := Nat.exists_eq_add_one.2 (Nat.zero_lt_of_lt hfuel)
    obtain ⟨rfl, n, hn, hrest⟩ := hs
    rw [findBucket, bind_run_ok (load_run hn)]
    simp only [hash_and_key]
    by_cases hb : b.key = key
    · rw [if_pos hb, List.find?_cons_of_pos (by simpa using hb)]
      rfl
    · rw [if_neg hb, List.find?_cons_of_neg (by simpa using hb)]
      exact ih hrest (by simpa using hfuel)

/-- The loop to the last bucket of a chain. -/
theorem tail_located_run {xs : List (Bucket (Nat × α))} {b : Bucket (Nat × α)} {a : Nat}
    (hs : h.Chain (some a) ((xs ++ [b]).map Bucket.located)) :
    tail (h.brk + 1) a (⟨h, r⟩ : Memory _ _) = .ok (b.addr, ⟨h, r⟩) := by
  have hlength := hs.length_le
  rw [List.map_append] at hs
  refine tail_run hs ?_
  simp only [List.length_map, List.length_append] at hlength ⊢
  omega

/-! ## `hashmap_resize` -/

theorem Table.mem_chainAt_append {c b : Bucket (Nat × α)} (ht : 0 < t.length) {i : Nat}
    (hc : c ∈ (t.append b).chainAt i) : c ∈ t.chainAt i ∨ c = b := by
  rw [Table.append, Table.chainAt_modify _ _ _ _ (Table.slot_lt ht b.key)] at hc
  split at hc
  · exact (List.mem_append.1 hc).imp id List.mem_singleton.1
  · exact .inl hc

/-- What the loops of `hashmap_resize` leave as it was: all that is neither in the new table nor
    on the way into it, and which cells there are. -/
structure Rehung (h h' : Heap (BucketData α)) (moved : List (Bucket (Nat × α)))
    (ns : Table (Nat × α)) : Prop where
  brk : h'.brk = h.brk
  others : ∀ a, a ∉ moved.map Bucket.addr → (∀ i, ∀ c ∈ ns.chainAt i, c.addr ≠ a) →
    h'.cell a = h.cell a
  live : ∀ a, (h'.cell a).isSome = (h.cell a).isSome

theorem Rehung.refl : Rehung h h [] ns := ⟨rfl, fun _ _ _ => rfl, fun _ => rfl⟩

/-- The next bucket is hung at the end of its chain. -/
theorem rehang_step (fuel : Nat) {b : Bucket (Nat × α)} {n : Option Nat}
    (hpos : 0 < ns.length) (hsmall : ns.length < 2 ^ 32) (hm : InMemory h heads ns)
    (hb : Apart b ns) (hcell : h.cell b.addr = some ⟨⟨fnv1aHash b.key, b.key, b.val.2⟩, n⟩) :
    ∃ h₁ heads₁, rehang ns.length (fuel + 1) (some b.addr) heads ⟨h, r⟩ =
        rehang ns.length fuel n heads₁ ⟨h₁, r⟩ ∧
      InMemory h₁ heads₁ (ns.append b) ∧ Rehung h h₁ [b] ns := by
  have hi := Table.slot_lt hpos b.key
  obtain ⟨p, hp, hchain⟩ := hm.exists_head hi
  rw [rehang, bind_run_ok (load_run hcell)]
  dsimp only
  rw [bind_run_ok (slotOf_run hpos hsmall),
    bind_run_ok (readSlot_run hp)]
  rcases List.eq_nil_or_concat' (ns.chainAt (slot ns.length b.key)) with hempty | ⟨xs, c, hlast⟩
  · rw [hempty] at hchain
    obtain rfl := Heap.segment_nil.1 hchain
    simp only
    rw [bind_run_ok (writeSlot_run (hm.length ▸ hi)), bind_run_ok (setNext_run hcell none)]
    refine ⟨_, _, rfl, hm.append_head hpos hb hempty ?_ ?_, ⟨rfl, ?_, ?_⟩⟩
    · rw [Heap.cell_modify, if_pos rfl, hcell]
      rfl
    · exact fun a ha => if_neg ha
    · exact fun a ha _ => if_neg fun hab => ha (List.mem_singleton.2 hab)
    · intro a
      rw [Heap.cell_modify]
      split <;> simp
  · have hc : c ∈ ns.chainAt (slot ns.length b.key) := by rw [hlast]; simp
    obtain ⟨a, rfl⟩ : ∃ a, p = some a := by
      cases p with
      | none => rw [hlast] at hchain; cases xs <;> cases hchain.1
      | some a => exact ⟨a, rfl⟩
    obtain ⟨n', hn'⟩ := hm.cell hc
    have hcell' : (h.modify c.addr fun c => { c with next := some b.addr }).cell b.addr =
        some ⟨⟨fnv1aHash b.key, b.key, b.val.2⟩, n⟩ := by
      rw [Heap.cell_modify, if_neg (hb _ c hc), hcell]
    simp only
    rw [bind_run_ok chainSteps_run, bind_run_ok (tail_located_run (hlast ▸ hchain)),
      bind_run_ok (setNext_run hn' _), bind_run_ok (setNext_run hcell' none)]
    refine ⟨_, _, rfl, hm.append_tail hpos hb hlast hcell, ⟨rfl, fun a ha hns => ?_, fun a => ?_⟩⟩
    · rw [Heap.cell_modify, if_neg fun hab => ha (List.mem_singleton.2 hab), Heap.cell_modify,
        if_neg (hns _ c hc).symm]
    · rw [Heap.cell_modify, Heap.cell_modify]
      split <;> split <;> simp

theorem Rehung.cons {h₁ : Heap (BucketData α)} {b : Bucket (Nat × α)}
    {rest : List (Bucket (Nat × α))} (hpos : 0 < ns.length) (hfirst : Rehung h h₁ [b] ns)
    (hrest : Rehung h₁ h' rest (ns.append b)) : Rehung h h' (b :: rest) ns where
  brk := hrest.brk.trans hfirst.brk
  others a ha hns := by
    rw [List.map_cons, List.mem_cons, not_or] at ha
    rw [hrest.others a ha.2 fun i c hc hca => ?_,
      hfirst.others a (by simpa using ha.1) hns]
    rcases Table.mem_chainAt_append hpos hc with hc | rfl
    · exact hns i c hc hca
    · exact ha.1 hca.symm
  live a := (hrest.live a).trans (hfirst.live a)

/-- The rest of a chain goes to the new table, bucket by bucket. -/
theorem rehang_run {rest : List (Bucket (Nat × α))} {fuel : Nat} (hpos : 0 < ns.length)
    (hsmall : ns.length < 2 ^ 32) (hm : InMemory h heads ns)
    (hs : h.Chain p (rest.map Bucket.located)) (hapart : ∀ b ∈ rest, Apart b ns)
    (hfuel : rest.length < fuel) :
    ∃ h' heads', rehang ns.length fuel p heads ⟨h, r⟩ = .ok (heads', ⟨h', r⟩) ∧
      InMemory h' heads' (rest.foldl Table.append ns) ∧ Rehung h h' rest ns := by
  induction rest generalizing fuel p h heads ns with
  | nil =>
    obtain ⟨fuel, rfl⟩ := Nat.exists_eq_add_one.2 (Nat.zero_lt_of_lt hfuel)
    obtain rfl := hs
    exact ⟨h, heads, rfl, hm, .refl⟩
  | cons b rest ih =>
    obtain ⟨fuel, rfl⟩ := Nat.exists_eq_add_one.2 (Nat.zero_lt_of_lt hfuel)
    rw [List.forall_mem_cons] at hapart
    have hnodup := hs.nodup
    rw [addrs_located, List.map_cons, List.nodup_cons] at hnodup
    obtain ⟨rfl, n, hn, hchain⟩ := hs
    obtain ⟨h₁, heads₁, hrun, hm₁, hfirst⟩ := rehang_step (r := r) fuel hpos hsmall hm
      hapart.1 hn
    -- The cells that are left are neither the bucket nor in the new table.
    have hchain₁ : h₁.Chain n (rest.map Bucket.located) := hchain.frame fun a ha => by
      rw [addrs_located] at ha
      refine hfirst.others a (fun hab => ?_) ?_
      · obtain rfl := List.mem_singleton.1 hab
        exact hnodup.1 ha
      · rintro i c hc rfl
        obtain ⟨d, hd, hdc⟩ := List.mem_map.1 ha
        exact hapart.2 d hd i c hc hdc
    have hapart₁ : ∀ d ∈ rest, Apart d (ns.append b) := by
      intro d hd i c hc
      rcases Table.mem_chainAt_append hpos hc with hc | rfl
      · exact hapart.2 d hd i c hc
      · exact fun hdb => hnodup.1 (hdb ▸ List.mem_map_of_mem hd)
    have hlength := ns.length_append b
    obtain ⟨h', heads', hrun', hm', hrest⟩ := ih (by rwa [hlength]) (by rwa [hlength]) hm₁ hchain₁
      hapart₁ (by simpa using hfuel)
    rw [hlength] at hrun'
    exact ⟨h', heads', hrun.trans hrun', hm', hfirst.cons hpos hrest⟩

theorem Table.mem_chainAt_foldl {bs : List (Bucket (Nat × α))} (hpos : 0 < t.length)
    {c : Bucket (Nat × α)} {i : Nat} (hc : c ∈ (bs.foldl Table.append t).chainAt i) :
    c ∈ t.chainAt i ∨ c ∈ bs := by
  rw [Table.chainAt_foldl_append _ hpos] at hc
  exact (List.mem_append.1 hc).imp id fun hmem => List.mem_of_mem_filter hmem

theorem Rehung.trans {h₁ : Heap (BucketData α)} {bs bs' : List (Bucket (Nat × α))}
    (hpos : 0 < ns.length) (hfirst : Rehung h h₁ bs ns)
    (hrest : Rehung h₁ h' bs' (bs.foldl Table.append ns)) : Rehung h h' (bs ++ bs') ns where
  brk := hrest.brk.trans hfirst.brk
  others a ha hns := by
    rw [List.map_append, List.mem_append, not_or] at ha
    rw [hrest.others a ha.2 fun i c hc => ?_, hfirst.others a ha.1 hns]
    rcases Table.mem_chainAt_foldl hpos hc with hc | hc
    · exact hns i c hc
    · exact fun hca => ha.1 (hca ▸ List.mem_map_of_mem hc)
  live a := (hrest.live a).trans (hfirst.live a)

/-- The chains that are left go to the new table, slot by slot. -/
theorem rehangSlots_run {slots : List (Option Nat)} {olds : List (List (Bucket (Nat × α)))}
    (hpos : 0 < ns.length) (hsmall : ns.length < 2 ^ 32) (hm : InMemory h heads ns)
    (hs : Chains h slots olds)
    (hnodup : (olds.flatten.map Bucket.addr).Nodup) (hapart : ∀ b ∈ olds.flatten, Apart b ns) :
    ∃ h' heads', rehangSlots ns.length slots heads ⟨h, r⟩ = .ok (heads', ⟨h', r⟩) ∧
      InMemory h' heads' (olds.flatten.foldl Table.append ns) ∧
        Rehung h h' olds.flatten ns := by
  induction olds generalizing slots h heads ns with
  | nil =>
    cases hs
    exact ⟨h, heads, rfl, hm, .refl⟩
  | cons xs olds ih =>
    obtain _ | ⟨hchain, hs⟩ := hs
    rename_i p slots
    rw [List.flatten_cons, List.map_append, List.nodup_append] at hnodup
    rw [List.flatten_cons, List.forall_mem_append] at hapart
    have hlength := hchain.length_le
    rw [List.length_map] at hlength
    obtain ⟨h₁, heads₁, hrun, hm₁, hfirst⟩ := rehang_run (r := r) hpos hsmall hm hchain hapart.1
      (Nat.lt_succ_of_le hlength)
    -- The chains behind are neither in the slot nor in the new table.
    have hs₁ : Chains h₁ slots olds := Chains.frame hs fun b hb => by
      refine hfirst.others _ (fun hmem => ?_) fun i c hc => (hapart.2 b hb i c hc).symm
      exact hnodup.2.2 _ hmem _ (List.mem_map_of_mem hb) rfl
    have hapart₁ : ∀ b ∈ olds.flatten, Apart b (xs.foldl Table.append ns) := by
      intro b hb i c hc
      rcases Table.mem_chainAt_foldl hpos hc with hc | hc
      · exact hapart.2 b hb i c hc
      · exact fun hbc => hnodup.2.2 _ (List.mem_map_of_mem hc) _ (List.mem_map_of_mem hb) hbc.symm
    have hlength₁ := Table.length_foldl_append xs ns
    obtain ⟨h', heads', hrun', hm', hrest⟩ := ih (by rwa [hlength₁]) (by rwa [hlength₁]) hm₁ hs₁
      hnodup.2.1 hapart₁
    rw [hlength₁] at hrun'
    refine ⟨h', heads', ?_, ?_, hfirst.trans hpos hrest⟩
    · rw [rehangSlots, bind_run_ok chainSteps_run, bind_run_ok hrun, hrun']
    · rwa [List.flatten_cons, List.foldl_append]

/-! ## The whole table -/

/-- The table is in memory, with no other bucket. -/
structure Holds (m : Memory (BucketData α) (HashmapData α)) (t : Table (Nat × α)) : Prop where
  inMemory : InMemory m.heap m.rest.buckets t
  capacity : m.rest.capacity = t.length
  wf : t.WF
  only : ∀ a, (m.heap.cell a).isSome → ∃ i, ∃ b ∈ t.chainAt i, b.addr = a

/-- The memory that the resize leaves. -/
theorem hashmapResize_run {m : Memory (BucketData α) (HashmapData α)} (hm : Holds m t)
    (hsmall : t.length * 2 < 2 ^ 32) :
    ∃ h' heads', hashmapResize m =
        .ok ((), ⟨h', { m.rest with buckets := heads', capacity := t.length * 2 }⟩) ∧
      Holds ⟨h', { m.rest with buckets := heads', capacity := t.length * 2 }⟩ t.resize := by
  have hpos := hm.wf.capacity_pos
  have hlength : (List.replicate (t.length * 2) ([] : List (Bucket (Nat × α)))).length =
      t.length * 2 := List.length_replicate ..
  have hnone : InMemory m.heap (List.replicate (t.length * 2) none)
      (List.replicate (t.length * 2) []) := by
    refine ⟨by simp, fun i p hp => ?_, fun i j b hb => ?_⟩
    · rw [List.getElem?_replicate] at hp
      split at hp
      · cases hp
        rw [Table.chainAt_replicate_nil]
        rfl
      · cases hp
    · rw [Table.chainAt_replicate_nil] at hb
      cases hb
  have hapart : ∀ b ∈ t.flatten, Apart b (List.replicate (t.length * 2) []) := by
    intro b _ i c hc
    rw [Table.chainAt_replicate_nil] at hc
    cases hc
  obtain ⟨h', heads', hrun, hm', hrehung⟩ := rehangSlots_run (r := m.rest)
    (by rw [hlength]; omega) (by rwa [hlength]) hnone hm.inMemory.chains hm.inMemory.nodup hapart
  rw [hlength] at hrun
  refine ⟨h', heads', ?_, hm', (Table.length_resize t).symm, hm.wf.resize_spec.1, fun a ha => ?_⟩
  · unfold hashmapResize
    rw [bind_run_ok (get_run m), hm.capacity, bind_run_ok hrun]
    rfl
  · rw [hrehung.live] at ha
    obtain ⟨i, b, hb, rfl⟩ := hm.only a ha
    have hmem := (Table.mem_flatten_iff t b).2 ⟨i, hb⟩
    obtain ⟨j, hj⟩ := (Table.mem_flatten_iff t.resize b).1 ((hm.wf.resize_spec.2 b).2 hmem)
    exact ⟨j, b, hj, rfl⟩

/-- The bucket of a key. -/
def Table.find (t : Table (Nat × α)) (key : CStr) : Option (Bucket (Nat × α)) :=
  (t.chainAt (slot t.length key)).find? (·.key = key)

variable {m : Memory (BucketData α) (HashmapData α)}

/-- The pointer to the chain of a key. -/
theorem Holds.head (hm : Holds m t) (key : CStr) :
    ∃ p, m.rest.buckets[slot t.length key]? = some p ∧
      m.heap.Chain p ((t.chainAt (slot t.length key)).map Bucket.located) :=
  hm.inMemory.exists_head (Table.slot_lt hm.wf.capacity_pos key)

theorem Holds.slotOf (hm : Holds m t) (hsmall : t.length < 2 ^ 32)
    (m' : Memory (BucketData α) (HashmapData α)) :
    slotOf (fnv1aHash key) m.rest.capacity m' = .ok (slot t.length key, m') := by
  rw [hm.capacity]
  exact slotOf_run hm.wf.capacity_pos hsmall

theorem findBucket_chain_run (key : CStr) {xs : List (Bucket (Nat × α))}
    (hs : h.Chain p (xs.map Bucket.located)) :
    findBucket (fnv1aHash key) key (h.brk + 1) p ⟨h, r⟩ =
      .ok ((xs.find? (·.key = key)).map Bucket.addr, ⟨h, r⟩) := by
  have hlength := hs.length_le
  rw [List.length_map] at hlength
  exact findBucket_run hs (Nat.lt_succ_of_le hlength)

theorem hashmapGet_run (hm : Holds m t) (hsmall : t.length < 2 ^ 32) (key : CStr) :
    hashmapGet key m = .ok ((t.find key).map (·.val.2), m) := by
  obtain ⟨h, r⟩ := m
  obtain ⟨p, hp, hchain⟩ := hm.head key
  unfold hashmapGet Table.find
  rw [bind_run_ok (get_run _), bind_run_ok (hm.slotOf hsmall _), bind_run_ok (readSlot_run hp)]
  cases p with
  | none =>
    cases hxs : t.chainAt (slot t.length key) with
    | nil => rfl
    | cons b xs =>
      rw [hxs] at hchain
      cases hchain.1
  | some head =>
    have hfind := findBucket_chain_run (r := r) key hchain
    cases hxs : t.chainAt (slot t.length key) with
    | nil =>
      rw [hxs] at hchain
      cases hchain
    | cons b xs =>
      rw [hxs] at hchain hfind
      obtain ⟨hb, n, hn, hrest⟩ := id hchain
      obtain rfl := Option.some.inj hb
      simp only
      rw [bind_run_ok (load_run hn)]
      simp only [hash_and_key]
      by_cases hkey : b.key = key
      · rw [if_pos hkey, List.find?_cons_of_pos (by simpa using hkey)]
        rfl
      · rw [if_neg hkey, bind_run_ok chainSteps_run, bind_run_ok hfind]
        cases hfound : (b :: xs).find? (·.key = key) with
        | none => rfl
        | some c =>
          have hc : c ∈ t.chainAt (slot t.length key) := hxs ▸ List.mem_of_find?_eq_some hfound
          obtain ⟨n', hn'⟩ := hm.inMemory.cell hc
          simp only [Option.map_some]
          rw [bind_run_ok (load_run hn')]
          rfl

/-! ## `hashmap_insert` -/

/-- These values have been given to `val_free_func`. -/
def HashmapData.freed (r : HashmapData α) (vals : List α) : HashmapData α :=
  { r with valsFreed := r.valsFreed ++ if r.freesVals then vals else [] }

theorem freeVal_eq (r : HashmapData α) (val : α) : r.freeVal val = r.freed [val] := by
  obtain ⟨_, _, _, freesVals, _⟩ := r
  cases freesVals <;> simp [HashmapData.freeVal, HashmapData.freed]

theorem Holds.not_mem_keys (hm : Holds m t) (hfind : t.find key = none) :
    key ∉ t.flatten.map Bucket.key := by
  intro hmem
  obtain ⟨c, hc, rfl⟩ := List.mem_map.1 hmem
  have := List.find?_eq_none.1 hfind c ((hm.wf.mem_flatten c).1 hc)
  simp at this

/-- A table to which a bucket has been added, in a heap with one more cell. -/
theorem Holds.append (hm : Holds m t) {b : Bucket (Nat × α)} (hb : b.key ∉ t.flatten.map Bucket.key)
    {m' : Memory (BucketData α) (HashmapData α)} (hmem : InMemory m'.heap m'.rest.buckets (t.append b))
    (hcapacity : m'.rest.capacity = m.rest.capacity)
    (hlive : ∀ a, (m'.heap.cell a).isSome → a = b.addr ∨ (m.heap.cell a).isSome) :
    Holds m' (t.append b) where
  inMemory := hmem
  capacity := by rw [hcapacity, hm.capacity, Table.length_append]
  wf := hm.wf.append hb
  only a ha := by
    rcases hlive a ha with rfl | ha
    · exact ((Table.mem_flatten_iff _ b).1 ((hm.wf.mem_append b b).2 (.inr rfl))).imp fun i hi =>
        ⟨b, hi, rfl⟩
    · obtain ⟨i, c, hc, rfl⟩ := hm.only a ha
      have hflat := (Table.mem_flatten_iff t c).2 ⟨i, hc⟩
      exact ((Table.mem_flatten_iff _ c).1 ((hm.wf.mem_append b c).2 (.inl hflat))).imp fun i hi =>
        ⟨c, hi, rfl⟩

/-- A key that is not there gets a new bucket. -/
theorem insertBucket_new (val : α) (hm : Holds m t) (hsmall : t.length < 2 ^ 32)
    (hfind : t.find key = none) :
    ∃ h' heads', insertBucket key val m =
        .ok (0, ⟨h', { m.rest with buckets := heads', nBuckets := m.rest.nBuckets + 1 }⟩) ∧
      Holds ⟨h', { m.rest with buckets := heads', nBuckets := m.rest.nBuckets + 1 }⟩
        (t.append ⟨key, (m.heap.brk, val)⟩) := by
  obtain ⟨h, r⟩ := m
  have hpos := hm.wf.capacity_pos
  have hi := Table.slot_lt hpos key
  obtain ⟨p, hp, hchain⟩ := hm.head key
  have hnew := hm.not_mem_keys hfind
  have hlt : ∀ i, ∀ c ∈ t.chainAt i, c.addr ≠ h.brk := fun i c hc => by
    obtain ⟨n, hn⟩ := hm.inMemory.cell hc
    exact Nat.ne_of_lt (Heap.lt_brk hn)
  have hapart : Apart ⟨key, (h.brk, val)⟩ t := fun i c hc => (hlt i c hc).symm
  -- The table is in the heap with the new bucket as well.
  have hm₁ : InMemory (h.push ⟨⟨fnv1aHash key, key, val⟩, none⟩) r.buckets t :=
    hm.inMemory.frame fun i c hc => by rw [Heap.cell_push, if_neg (hlt i c hc)]
  have hcell : (h.push ⟨⟨fnv1aHash key, key, val⟩, none⟩).cell h.brk =
      some ⟨⟨fnv1aHash key, key, val⟩, none⟩ := by rw [Heap.cell_push, if_pos rfl]
  have hlive : ∀ a, ((h.push ⟨⟨fnv1aHash key, key, val⟩, none⟩).cell a).isSome →
      a = h.brk ∨ (h.cell a).isSome := by
    intro a ha
    rw [Heap.cell_push] at ha
    split at ha
    · exact .inl ‹_›
    · exact .inr ha
  unfold insertBucket newBucket
  rw [bind_run_ok (modify_run ..), bind_run_ok (alloc_run _), bind_run_ok (get_run _)]
  dsimp only
  rw [bind_run_ok (hm.slotOf hsmall _), bind_run_ok (readSlot_run hp)]
  rcases List.eq_nil_or_concat' (t.chainAt (slot t.length key)) with hempty | ⟨xs, c, hlast⟩
  · rw [hempty] at hchain
    obtain rfl := Heap.segment_nil.1 hchain
    dsimp only
    rw [bind_run_ok (writeSlot_run (hm.inMemory.length ▸ hi))]
    exact ⟨_, _, rfl, hm.append hnew (hm₁.append_head hpos hapart hempty hcell fun _ _ => rfl) rfl
      hlive⟩
  · have hc : c ∈ t.chainAt (slot t.length key) := by rw [hlast]; simp
    have hchain₁ := hm₁.chain _ _ hp
    obtain ⟨a, rfl⟩ : ∃ a, p = some a := by
      cases p with
      | none => rw [hlast] at hchain; cases xs <;> cases hchain.1
      | some a => exact ⟨a, rfl⟩
    obtain ⟨n, hn⟩ := hm₁.cell hc
    have hcell' : ((h.push ⟨⟨fnv1aHash key, key, val⟩, none⟩).modify c.addr
        fun c => { c with next := some h.brk }).cell h.brk =
        some ⟨⟨fnv1aHash key, key, val⟩, none⟩ := by
      rw [Heap.cell_modify, if_neg (hlt _ c hc).symm, hcell]
    dsimp only
    have hsearch := findBucket_chain_run
      (r := { r with nBuckets := r.nBuckets + 1 }) key hchain₁
    rw [show (t.chainAt (slot t.length key)).find? (·.key = key) = none from hfind] at hsearch
    rw [bind_run_ok chainSteps_run, bind_run_ok hsearch]
    dsimp only [Option.map_none]
    rw [bind_run_ok chainSteps_run, bind_run_ok (tail_located_run (hlast ▸ hchain₁)),
      bind_run_ok (setNext_run hn _), bind_run_ok (setNext_run hcell' none)]
    refine ⟨_, _, rfl, hm.append hnew (hm₁.append_tail hpos hapart hlast hcell) rfl fun a ha => ?_⟩
    refine hlive a ?_
    dsimp only at ha
    rw [Heap.cell_modify, Heap.cell_modify] at ha
    split at ha <;> split at ha <;> simpa using ha

/-- The chain of a key that is there, cut at its bucket. -/
theorem exists_cut_of_find {b : Bucket (Nat × α)} (hfind : t.find key = some b) :
    ∃ xs ys, t.chainAt (slot t.length key) = xs ++ b :: ys ∧ b.key = key ∧
      ∀ c ∈ xs, c.key ≠ key := by
  obtain ⟨hb, xs, ys, hcut, hxs⟩ := List.find?_eq_some_iff_append.1 hfind
  exact ⟨xs, ys, hcut, by simpa using hb, fun c hc => by simpa using hxs c hc⟩

/-- A table in which one slot has got another chain, with the buckets that are still there. -/
theorem Holds.modify (hm : Holds m t) {i : Nat} (hi : i < t.length)
    {f : List (Bucket (Nat × α)) → List (Bucket (Nat × α))}
    {m' : Memory (BucketData α) (HashmapData α)}
    (hmem : InMemory m'.heap m'.rest.buckets (List.modify t i f))
    (hcapacity : m'.rest.capacity = m.rest.capacity) (hwf : Table.WF (List.modify t i f))
    (hlive : ∀ a, (m'.heap.cell a).isSome → (m.heap.cell a).isSome ∧
      (a ∈ (t.chainAt i).map Bucket.addr → a ∈ (f (t.chainAt i)).map Bucket.addr)) :
    Holds m' (List.modify t i f) where
  inMemory := hmem
  capacity := by rw [hcapacity, hm.capacity, List.length_modify]
  wf := hwf
  only a ha := by
    obtain ⟨ha, hkept⟩ := hlive a ha
    obtain ⟨j, c, hc, rfl⟩ := hm.only a ha
    by_cases hij : i = j
    · subst hij
      obtain ⟨d, hd, hdc⟩ := List.mem_map.1 (hkept (List.mem_map_of_mem hc))
      refine ⟨i, d, ?_, hdc⟩
      rwa [Table.chainAt_modify _ _ _ _ hi, if_pos rfl]
    · refine ⟨j, c, ?_, rfl⟩
      rwa [Table.chainAt_modify _ _ _ _ hi, if_neg hij]

theorem freeBucket_run {xs : List (Nat × BucketData α)} (withVals : Bool) (hs : h.Chain p xs) :
    freeBucket withVals p ⟨h, r⟩ = .ok ((), ⟨h.erase (xs.map Prod.fst),
      if withVals then r.freed (xs.map (·.2.val)) else r⟩) := by
  have hfold : ∀ r : HashmapData α, xs.foldl
      (fun r x => if withVals then r.freeVal x.2.val else r) r =
        if withVals then r.freed (xs.map (·.2.val)) else r := by
    clear hs
    induction xs with
    | nil => intro r; cases withVals <;> simp [HashmapData.freed]
    | cons x xs ih =>
      intro r
      rw [List.foldl_cons, ih, freeVal_eq]
      cases withVals with
      | false => rfl
      | true =>
        obtain ⟨_, _, _, freesVals, _⟩ := r
        cases freesVals <;> simp [HashmapData.freed]
  unfold freeBucket
  rw [bind_run_ok chainSteps_run, drain_run _ hs (Nat.lt_succ_of_le hs.length_le), hfold]

/-- A key that is there gets the new value in its bucket. -/
theorem insertBucket_old (val : α) {b : Bucket (Nat × α)} (hm : Holds m t)
    (hsmall : t.length < 2 ^ 32) (hfind : t.find key = some b) :
    ∃ h' t', insertBucket key val m =
        .ok (0, ⟨h', { m.rest with nBuckets := m.rest.nBuckets + 1 }.freed [b.val.2]⟩) ∧
      Holds ⟨h', { m.rest with nBuckets := m.rest.nBuckets + 1 }.freed [b.val.2]⟩ t' ∧
        t'.map Prod.snd = (t.map Prod.snd).insert key val := by
  obtain ⟨h, r⟩ := m
  have hpos := hm.wf.capacity_pos
  have hi := Table.slot_lt hpos key
  obtain ⟨p, hp, hchain⟩ := hm.head key
  obtain ⟨xs, ys, hcut, hkey, hxs⟩ := exists_cut_of_find hfind
  have hb : b ∈ t.chainAt (slot t.length key) := by rw [hcut]; simp
  have hlt : ∀ i, ∀ c ∈ t.chainAt i, c.addr ≠ h.brk := fun i c hc => by
    obtain ⟨n, hn⟩ := hm.inMemory.cell hc
    exact Nat.ne_of_lt (Heap.lt_brk hn)
  have hm₁ : InMemory (h.push ⟨⟨fnv1aHash key, key, val⟩, none⟩) r.buckets t :=
    hm.inMemory.frame fun i c hc => by rw [Heap.cell_push, if_neg (hlt i c hc)]
  have hchain₁ := hm₁.chain _ _ hp
  obtain ⟨a, rfl⟩ : ∃ a, p = some a := by
    cases p with
    | none => rw [hcut] at hchain; cases xs <;> cases hchain.1
    | some a => exact ⟨a, rfl⟩
  obtain ⟨n, hn⟩ := hm₁.cell hb
  have hnodup := hchain₁.nodup
  rw [addrs_located, hcut, List.map_append, List.map_cons, List.nodup_append, List.nodup_cons]
    at hnodup
  have hsearch := findBucket_chain_run
    (r := { r with nBuckets := r.nBuckets + 1 }) key hchain₁
  rw [show (t.chainAt (slot t.length key)).find? (·.key = key) = some b from hfind] at hsearch
  -- The new bucket is a chain of its own, which is freed again.
  have hown : ((h.push ⟨⟨fnv1aHash key, key, val⟩, none⟩).modify b.addr
      fun c => { c with data := { c.data with val := val } }).Chain (some h.brk)
      [(h.brk, ⟨fnv1aHash key, key, val⟩)] := by
    refine ⟨rfl, none, ?_, rfl⟩
    rw [Heap.cell_modify, if_neg (hlt _ b hb).symm, Heap.cell_push, if_pos rfl]
  unfold insertBucket newBucket
  rw [bind_run_ok (modify_run ..), bind_run_ok (alloc_run _), bind_run_ok (get_run _)]
  dsimp only
  rw [bind_run_ok (hm.slotOf hsmall _), bind_run_ok (readSlot_run hp)]
  dsimp only
  rw [bind_run_ok chainSteps_run, bind_run_ok hsearch]
  dsimp only [Option.map_some]
  rw [bind_run_ok (load_run hn), bind_run_ok (modify_run ..), bind_run_ok (write_run hn _),
    bind_run_ok (freeBucket_run false hown), freeVal_eq]
  subst hkey
  have hmap : Table.map Prod.snd (List.modify t (slot t.length b.key)
      fun _ => xs ++ ⟨b.key, (b.addr, val)⟩ :: ys) = (t.map Prod.snd).insert b.key val := by
    unfold Table.insert
    rw [Table.length_map]
    refine Table.map_modify hi ?_
    rw [hcut, List.map_append, List.map_append, List.map_cons, List.map_cons]
    refine (Table.chainInsert_of_mem (b := b.map Prod.snd) val (fun c hc => ?_) rfl).symm
    obtain ⟨d, hd, rfl⟩ := List.mem_map.1 hc
    exact hxs d hd
  -- The chain has the same addresses as before.
  have haddr : ((xs ++ ⟨b.key, (b.addr, val)⟩ :: ys).map Bucket.addr : List Nat) =
      (t.chainAt (slot t.length b.key)).map Bucket.addr := by
    rw [hcut, List.map_append, List.map_append]
    rfl
  refine ⟨_, _, rfl, hm.modify hi (hm.inMemory.modify_chain hi hp ?_ ?_ ?_) rfl ?_ ?_, hmap⟩
  · rw [hcut, List.map_append, List.map_cons] at hchain₁
    rw [List.map_append, List.map_cons]
    refine (hchain₁.assign ?_ ?_ fun d => { d with val := val }).erase ?_
    · rw [addrs_located]
      exact fun hmem => hnodup.2.2 _ hmem _ List.mem_cons_self rfl
    · rw [addrs_located]
      exact hnodup.2.1.1
    · refine List.forall_mem_singleton.2 fun hmem => ?_
      rw [List.map_append, List.map_cons, addrs_located, addrs_located] at hmem
      have hold : h.brk ∈ (t.chainAt (slot t.length b.key)).map Bucket.addr := by
        rwa [hcut, List.map_append, List.map_cons]
      obtain ⟨c, hc, hcb⟩ := List.mem_map.1 hold
      exact hlt _ c hc hcb
  · intro j hj c hc
    have hcb : c.addr ≠ b.addr := fun heq => hj (hm.inMemory.apart j _ c hc b hb heq)
    rw [Heap.cell_erase, if_neg (by simpa using hlt j c hc), Heap.cell_modify, if_neg hcb,
      Heap.cell_push, if_neg (hlt j c hc)]
  · intro j hj c hc d hd heq
    have hmem := haddr ▸ List.mem_map_of_mem (f := Bucket.addr) hc
    obtain ⟨e, he, hec⟩ := List.mem_map.1 hmem
    exact hj (hm.inMemory.apart _ j e he d hd (hec.trans heq)).symm
  · exact Table.wf_map.1 (hmap ▸ (Table.wf_map.2 hm.wf).insert b.key val)
  · intro a ha
    refine ⟨?_, fun hmem => haddr ▸ hmem⟩
    dsimp only at ha
    rw [Heap.cell_erase] at ha
    split at ha
    · cases ha
    · rename_i hne
      rw [Heap.cell_modify] at ha
      have hpush : ((h.push ⟨⟨fnv1aHash b.key, b.key, val⟩, none⟩).cell a).isSome := by
        split at ha
        · rwa [Option.isSome_map] at ha
        · exact ha
      rwa [Heap.cell_push, if_neg (by simpa using hne)] at hpush

/-! ## `hashmap_remove` -/

theorem removeBucket_none {idx fuel : Nat} {prev : Option Nat} {xs : List (Bucket (Nat × α))}
    (hs : h.Chain p (xs.map Bucket.located)) (hxs : ∀ c ∈ xs, c.key ≠ key)
    (hfuel : xs.length < fuel) :
    removeBucket (fnv1aHash key) key idx fuel prev p ⟨h, r⟩ = .ok (1, ⟨h, r⟩) := by
  induction xs generalizing fuel p prev with
  | nil =>
    obtain ⟨fuel, rfl⟩ := Nat.exists_eq_add_one.2 (Nat.zero_lt_of_lt hfuel)
    obtain rfl := hs
    rfl
  | cons b xs ih =>
    obtain ⟨fuel, rfl⟩ := Nat.exists_eq_add_one.2 (Nat.zero_lt_of_lt hfuel)
    obtain ⟨rfl, n, hn, hrest⟩ := hs
    rw [List.forall_mem_cons] at hxs
    rw [removeBucket, bind_run_ok (load_run hn)]
    simp only [hash_and_key]
    rw [if_neg hxs.1]
    exact ih hrest hxs.2 (by simpa using hfuel)

/-- The loop comes to the bucket of the key, behind the last one before it. -/
theorem removeBucket_some (idx fuel : Nat) (prev : Option Nat) {b : Bucket (Nat × α)}
    {xs ys : List (Bucket (Nat × α))} (hs : h.Chain p ((xs ++ b :: ys).map Bucket.located))
    (hxs : ∀ c ∈ xs, c.key ≠ key) (hb : b.key = key) (hfuel : xs.length < fuel) :
    ∃ n, h.cell b.addr = some ⟨b.located.2, n⟩ ∧ h.Chain n (ys.map Bucket.located) ∧
      removeBucket (fnv1aHash key) key idx fuel prev p ⟨h, r⟩ =
        unlinkBucket idx ((xs.getLast?.map Bucket.addr).or prev) b.addr n ⟨h, r⟩ := by
  induction xs generalizing fuel p prev with
  | nil =>
    obtain ⟨fuel, rfl⟩ := Nat.exists_eq_add_one.2 (Nat.zero_lt_of_lt hfuel)
    obtain ⟨rfl, n, hn, hrest⟩ := hs
    refine ⟨n, hn, hrest, ?_⟩
    rw [removeBucket, bind_run_ok (load_run hn)]
    simp only [hash_and_key]
    rw [if_pos hb]
    rfl
  | cons c xs ih =>
    obtain ⟨fuel, rfl⟩ := Nat.exists_eq_add_one.2 (Nat.zero_lt_of_lt hfuel)
    obtain ⟨rfl, n, hn, hrest⟩ := hs
    rw [List.forall_mem_cons] at hxs
    obtain ⟨n', hn', hys, hrun⟩ := ih fuel (some c.addr) hrest hxs.2
      (by simpa using hfuel)
    refine ⟨n', hn', hys, ?_⟩
    rw [removeBucket, bind_run_ok (load_run hn)]
    simp only [hash_and_key]
    rw [if_neg hxs.1]
    refine hrun.trans ?_
    cases xs with
    | nil => rfl
    | cons d xs => rw [List.getLast?_cons_cons, List.getLast?_cons]; rfl

/-- The table with one bucket less. -/
def HashmapData.unlinked (r : HashmapData α) (heads : List (Option Nat)) (val : α) :
    HashmapData α :=
  { r with buckets := heads, nBuckets := r.nBuckets - 1 }.freed [val]

/-- The bucket that has been unlinked is freed. -/
theorem freeUnlinked_run {a : Nat} {c : Cell (BucketData α)} (hcell : h.cell a = some c) :
    (do
      setNext a none
      freeBucket true (some a)
      modify fun m => { m with rest := { m.rest with nBuckets := m.rest.nBuckets - 1 } }
      pure 0 : BucketM α Int) ⟨h, r⟩ =
      .ok (0, ⟨h.erase [a], r.unlinked r.buckets c.data.val⟩) := by
  have hown : (h.modify a fun c => { c with next := none }).Chain (some a) [(a, c.data)] := by
    refine ⟨rfl, none, ?_, rfl⟩
    rw [Heap.cell_modify, if_pos rfl, hcell]
    rfl
  rw [bind_run_ok (setNext_run hcell none), bind_run_ok (freeBucket_run true hown)]
  have herase : (h.modify a fun c => { c with next := none }).erase [a] = h.erase [a] := by
    refine Heap.ext (fun b => ?_) rfl
    rw [Heap.cell_erase, Heap.cell_erase]
    split
    · rfl
    · rename_i hne
      rw [Heap.cell_modify, if_neg (by simpa using hne)]
  rw [List.map_singleton, herase]
  rfl

theorem unlinkBucket_none {idx a : Nat} {n : Option Nat} {c : Cell (BucketData α)}
    (hcell : h.cell a = some c) (hidx : idx < r.buckets.length) :
    unlinkBucket idx none a n ⟨h, r⟩ =
      .ok (0, ⟨h.erase [a], r.unlinked (r.buckets.set idx n) c.data.val⟩) := by
  unfold unlinkBucket
  dsimp only
  rw [bind_run_ok (get_run _), bind_run_ok (writeSlot_run hidx), bind_run_ok (modify_run ..)]
  exact freeUnlinked_run hcell

theorem unlinkBucket_some {idx a b : Nat} {n : Option Nat} {c d : Cell (BucketData α)}
    (hcell : h.cell a = some c) (hprev : h.cell b = some d) (hab : a ≠ b) :
    unlinkBucket idx (some b) a n ⟨h, r⟩ =
      .ok (0, ⟨(h.modify b fun c => { c with next := n }).erase [a],
        r.unlinked r.buckets c.data.val⟩) := by
  unfold unlinkBucket
  dsimp only
  rw [bind_run_ok (setNext_run hprev n)]
  exact freeUnlinked_run (by rw [Heap.cell_modify, if_neg hab, hcell])

theorem hashmapRemove_none (hm : Holds m t) (hsmall : t.length < 2 ^ 32)
    (hfind : t.find key = none) : hashmapRemove key m = .ok (1, m) := by
  obtain ⟨h, r⟩ := m
  obtain ⟨p, hp, hchain⟩ := hm.head key
  have hlength := hchain.length_le
  rw [List.length_map] at hlength
  unfold hashmapRemove
  rw [bind_run_ok (get_run _), bind_run_ok (hm.slotOf hsmall _), bind_run_ok chainSteps_run,
    bind_run_ok (readSlot_run hp)]
  refine removeBucket_none hchain (fun c hc => ?_) (Nat.lt_succ_of_le hlength)
  simpa using List.find?_eq_none.1 hfind c hc

/-- The bucket of the key goes, and its neighbours are linked. -/
theorem hashmapRemove_some {b : Bucket (Nat × α)} (hm : Holds m t) (hsmall : t.length < 2 ^ 32)
    (hfind : t.find key = some b) :
    ∃ h' heads', hashmapRemove key m = .ok (0, ⟨h', m.rest.unlinked heads' b.val.2⟩) ∧
      Holds ⟨h', m.rest.unlinked heads' b.val.2⟩ (t.remove key) := by
  obtain ⟨h, r⟩ := m
  have hi := Table.slot_lt hm.wf.capacity_pos key
  obtain ⟨p, hp, hchain⟩ := hm.head key
  obtain ⟨xs, ys, hcut, hkey, hxs⟩ := exists_cut_of_find hfind
  have hb : b ∈ t.chainAt (slot t.length key) := by rw [hcut]; simp
  have hrest : (t.chainAt (slot t.length key)).eraseP (·.key = key) = xs ++ ys := by
    rw [hcut, List.eraseP_append_right _ fun c hc => by simpa using hxs c hc,
      List.eraseP_cons_of_pos (by simpa using hkey)]
  have hnodup := hchain.nodup
  have hlength := hchain.length_le
  rw [addrs_located, hcut, List.map_append, List.map_cons, List.nodup_append, List.nodup_cons]
    at hnodup
  rw [hcut] at hchain hlength
  rw [List.length_map, List.length_append] at hlength
  dsimp only at hlength
  obtain ⟨n, hn, hys, hrun⟩ := removeBucket_some (r := r) (slot t.length key) (h.brk + 1) none
    hchain hxs hkey (by omega)
  have hremove : hashmapRemove key ⟨h, r⟩ = unlinkBucket (slot t.length key)
      ((xs.getLast?.map Bucket.addr).or none) b.addr n ⟨h, r⟩ := by
    unfold hashmapRemove
    rw [bind_run_ok (get_run _), bind_run_ok (hm.slotOf hsmall _), bind_run_ok chainSteps_run,
      bind_run_ok (readSlot_run hp)]
    exact hrun
  -- What is live afterwards was live before, and is not the bucket.
  have hkept : ∀ a, a ≠ b.addr → a ∈ (t.chainAt (slot t.length key)).map Bucket.addr →
      a ∈ ((t.chainAt (slot t.length key)).eraseP (·.key = key)).map Bucket.addr := by
    intro a ha hmem
    rw [hrest, List.map_append, List.mem_append]
    rw [hcut, List.map_append, List.map_cons, List.mem_append, List.mem_cons] at hmem
    rcases hmem with hmem | hmem | hmem
    · exact .inl hmem
    · exact absurd hmem ha
    · exact .inr hmem
  have hapart : ∀ j, j ≠ slot t.length key →
      ∀ c ∈ (t.chainAt (slot t.length key)).eraseP (·.key = key), ∀ d ∈ t.chainAt j,
        c.addr ≠ d.addr :=
    fun j hj c hc d hd heq => hj (hm.inMemory.apart _ j c (List.mem_of_mem_eraseP hc) d hd heq).symm
  have hothers : ∀ j, j ≠ slot t.length key → ∀ c ∈ t.chainAt j, c.addr ≠ b.addr :=
    fun j hj c hc heq => hj (hm.inMemory.apart j _ c hc b hb heq)
  rw [hremove]
  rcases List.eq_nil_or_concat' xs with rfl | ⟨zs, z, rfl⟩
  · rw [List.getLast?_nil, Option.map_none, Option.or_none,
      unlinkBucket_none hn (hm.inMemory.length ▸ hi)]
    refine ⟨_, _, rfl, hm.modify hi (hm.inMemory.modify hi ?_ ?_ hapart) rfl (hm.wf.remove key) ?_⟩
    · rw [hrest]
      exact hys.erase (List.forall_mem_singleton.2 (by rw [addrs_located]; exact hnodup.2.1.1))
    · intro j hj c hc
      rw [Heap.cell_erase, if_neg (by simpa using hothers j hj c hc)]
    · intro a ha
      dsimp only at ha
      rw [Heap.cell_erase] at ha
      split at ha
      · cases ha
      · rename_i hne
        exact ⟨ha, hkept a (by simpa using hne)⟩
  · have hz : z ∈ t.chainAt (slot t.length key) := by rw [hcut]; simp
    have hzb : b.addr ≠ z.addr := fun heq =>
      hnodup.2.2 z.addr (List.mem_map_of_mem (by simp)) b.addr List.mem_cons_self heq.symm
    obtain ⟨n', hn'⟩ := hm.inMemory.cell hz
    rw [List.getLast?_concat, Option.map_some, Option.some_or, unlinkBucket_some hn hn' hzb]
    refine ⟨_, _, rfl, hm.modify hi (hm.inMemory.modify_chain hi hp ?_ ?_ hapart) rfl
      (hm.wf.remove key) ?_⟩
    · rw [List.map_append] at hchain
      obtain ⟨q, hzs, _⟩ := Heap.segment_append.1 hchain
      rw [List.map_append] at hzs
      rw [List.map_append] at hnodup
      have hlast : z.addr ∉ (zs.map Bucket.located).map Prod.fst := by
        rw [addrs_located]
        exact fun hmem => (List.nodup_append.1 hnodup.1).2.2 _ hmem _ List.mem_cons_self rfl
      have hbehind : z.addr ∉ (ys.map Bucket.located).map Prod.fst := by
        rw [addrs_located]
        exact fun hmem => hnodup.2.2 z.addr (by simp) z.addr (List.mem_cons_of_mem _ hmem) rfl
      rw [hrest, List.map_append]
      refine Heap.Segment.erase (Heap.segment_append.2
        ⟨n, ?_, hys.modify hbehind _⟩) (List.forall_mem_singleton.2 ?_)
      · rw [List.map_append]
        exact hzs.relink hlast n
      · rw [← List.map_append, addrs_located, List.map_append, List.mem_append]
        rintro (hmem | hmem)
        · rw [List.map_append] at hmem
          exact hnodup.2.2 _ hmem _ List.mem_cons_self rfl
        · exact hnodup.2.1.1 hmem
    · intro j hj c hc
      have hcz : c.addr ≠ z.addr := fun heq => hj (hm.inMemory.apart j _ c hc z hz heq)
      rw [Heap.cell_erase, if_neg (by simpa using hothers j hj c hc), Heap.cell_modify, if_neg hcz]
    · intro a ha
      dsimp only at ha
      rw [Heap.cell_erase] at ha
      split at ha
      · cases ha
      · rename_i hne
        refine ⟨?_, hkept a (by simpa using hne)⟩
        rw [Heap.cell_modify] at ha
        split at ha
        · rwa [Option.isSome_map] at ha
        · exact ha

/-! ## `hashmap_get_keys` -/

theorem copyKeys_run {xs : List (Bucket (Nat × α))} {room fuel : Nat} {keys : List CStr}
    (hs : h.Chain p (xs.map Bucket.located)) (hroom : keys.length + xs.length ≤ room)
    (hfuel : xs.length < fuel) :
    copyKeys room fuel p keys ⟨h, r⟩ = .ok (keys ++ xs.map Bucket.key, ⟨h, r⟩) := by
  induction xs generalizing fuel p keys with
  | nil =>
    obtain ⟨fuel, rfl⟩ := Nat.exists_eq_add_one.2 (Nat.zero_lt_of_lt hfuel)
    obtain rfl := hs
    rw [List.map_nil, List.append_nil]
    rfl
  | cons b xs ih =>
    obtain ⟨fuel, rfl⟩ := Nat.exists_eq_add_one.2 (Nat.zero_lt_of_lt hfuel)
    obtain ⟨rfl, n, hn, hrest⟩ := hs
    rw [List.length_cons] at hroom hfuel
    rw [copyKeys, bind_run_ok (load_run hn), if_pos (by omega),
      ih hrest (by rw [List.length_append, List.length_singleton]; omega) (by omega),
      List.append_assoc]
    rfl

theorem copySlots_run {slots : List (Option Nat)} {chains : List (List (Bucket (Nat × α)))}
    {room : Nat} {keys : List CStr} (hs : Chains h slots chains)
    (hroom : keys.length + chains.flatten.length ≤ room) :
    copySlots room slots keys ⟨h, r⟩ =
      .ok (keys ++ chains.flatten.map Bucket.key, ⟨h, r⟩) := by
  induction hs generalizing keys with
  | nil =>
    rw [List.flatten_nil, List.map_nil, List.append_nil]
    rfl
  | @cons p xs slots chains hchain _ ih =>
    have hlength := hchain.length_le
    rw [List.length_map] at hlength
    rw [List.flatten_cons, List.length_append] at hroom
    rw [copySlots, bind_run_ok chainSteps_run,
      bind_run_ok (copyKeys_run hchain (by omega) (Nat.lt_succ_of_le hlength)),
      ih (by rw [List.length_append, List.length_map]; omega), List.flatten_cons, List.map_append,
      List.append_assoc]

/-- The keys fit into the array, which has room for `n_buckets` of them. -/
theorem hashmapGetKeys_run (hm : Holds m t) (hroom : t.flatten.length ≤ m.rest.nBuckets) :
    hashmapGetKeys m = .ok (t.flatten.map Bucket.key, m) := by
  obtain ⟨h, r⟩ := m
  unfold hashmapGetKeys
  rw [bind_run_ok (get_run _)]
  exact copySlots_run hm.inMemory.chains (by simpa using hroom)

/-! ## `hashmap_free` -/

theorem freed_freed (r : HashmapData α) (vals vals' : List α) :
    (r.freed vals).freed vals' = r.freed (vals ++ vals') := by
  obtain ⟨_, _, _, freesVals, _⟩ := r
  cases freesVals <;> simp [HashmapData.freed]

theorem freeSlots_run {slots : List (Option Nat)} {chains : List (List (Bucket (Nat × α)))}
    (hs : Chains h slots chains) (hnodup : (chains.flatten.map Bucket.addr).Nodup) :
    freeSlots slots ⟨h, r⟩ = .ok ((), ⟨h.erase (chains.flatten.map Bucket.addr),
      r.freed (chains.flatten.map (·.val.2))⟩) := by
  induction chains generalizing slots h r with
  | nil =>
    cases hs
    rw [List.flatten_nil, List.map_nil, List.map_nil, Heap.erase_nil]
    obtain ⟨_, _, _, freesVals, _⟩ := r
    cases freesVals <;> simp [HashmapData.freed, freeSlots]
  | cons xs chains ih =>
    obtain _ | ⟨hchain, hs⟩ := hs
    rename_i p slots
    rw [List.flatten_cons, List.map_append, List.nodup_append] at hnodup
    have hs₁ : Chains (h.erase (xs.map Bucket.addr)) slots chains :=
      Chains.frame hs fun b hb => by
        rw [Heap.cell_erase, if_neg]
        exact fun hmem => hnodup.2.2 _ hmem _ (List.mem_map_of_mem hb) rfl
    rw [freeSlots, bind_run_ok (freeBucket_run true hchain), addrs_located, ih hs₁ hnodup.2.1,
      Heap.erase_erase, if_pos rfl, freed_freed, List.flatten_cons, List.map_append,
      List.map_append, List.map_map]
    rfl

/-- No bucket is left, and each value has been freed once. -/
theorem hashmapFree_run (hm : Holds m t) :
    ∃ h', hashmapFree m = .ok ((), ⟨h', m.rest.freed (t.flatten.map (·.val.2))⟩) ∧
      ∀ a, h'.cell a = none := by
  obtain ⟨h, r⟩ := m
  refine ⟨h.erase (t.flatten.map Bucket.addr), ?_, fun a => ?_⟩
  · unfold hashmapFree
    rw [bind_run_ok (get_run _), freeSlots_run hm.inMemory.chains hm.inMemory.nodup]
  · rw [Heap.cell_erase]
    split
    · rfl
    · rename_i hne
      refine Option.not_isSome_iff_eq_none.1 fun ha => hne ?_
      obtain ⟨i, b, hb, rfl⟩ := hm.only a ha
      exact List.mem_map_of_mem ((Table.mem_flatten_iff t b).2 ⟨i, hb⟩)

end Agendafs
