import Agendafs.ForStd.Rounding
import Agendafs.Native.Path
import Mathlib.Data.List.Nodup

/-!
# The chained hash table of `hashmap.c`

`Hashmap` carries the invariant of the table as a field: every bucket hangs in
the chain its key hashes to, and no chain holds a key twice. The lemmas about
`get`, `insert`, `remove` and `keys` are what the rest of the development uses
of the table; the order of `keys` (slot by slot, chain by chain) is the order
`load_root_node_tree` walks the notes in.
-/

namespace Agendafs

open Rounding

/-- `struct bucket`. Its `hash` field is always `fnv1a_hash` of the key. -/
structure Bucket (α : Type) where
  key : CStr
  val : α

/-- `fnv1a`: hash a single byte. -/
def fnv1a (byte : UInt8) (hash : UInt32) : UInt32 := (byte.toUInt32 ^^^ hash) * 0x01000193

/-- `fnv1a_hash`. -/
def fnv1aHash (str : CStr) : UInt32 := str.foldl (fun hash b => fnv1a b hash) 0x811C9DC5

/-- The slot of a key in a table of `capacity` chains. -/
def slot (capacity : Nat) (key : CStr) : Nat := (fnv1aHash key).toNat % capacity

/-- `hm->buckets`: one chain a slot. -/
abbrev Table (α : Type) := List (List (Bucket α))

namespace Table

variable {α : Type}

/-- The chain in slot `i`. -/
def chainAt (t : Table α) (i : Nat) : List (Bucket α) := t[i]?.getD []

/-- Give the first bucket with this key a new value, or append a bucket. -/
def chainInsert (key : CStr) (val : α) : List (Bucket α) → List (Bucket α)
  | [] => [⟨key, val⟩]
  | b :: chain => if b.key = key then ⟨b.key, val⟩ :: chain else b :: chainInsert key val chain

/-- The loop of `hashmap_insert` over the chain of the key. -/
def insert (t : Table α) (key : CStr) (val : α) : Table α :=
  t.modify (slot t.length key) (chainInsert key val)

/-- `_hashmap_remove`: unlink the first bucket with this key. -/
def remove (t : Table α) (key : CStr) : Table α :=
  t.modify (slot t.length key) (·.eraseP (·.key = key))

/-- Hang a bucket at the end of the chain of its key. -/
def append (t : Table α) (b : Bucket α) : Table α := t.modify (slot t.length b.key) (· ++ [b])

/-- The loop of `hashmap_resize`: rehang every bucket in a table twice as large. -/
def resize (t : Table α) : Table α := t.flatten.foldl append (List.replicate (t.length * 2) [])

/-- The invariant of the table. -/
structure WF (t : Table α) : Prop where
  capacity_pos : 0 < t.length
  placed : ∀ i, ∀ b ∈ t.chainAt i, slot t.length b.key = i
  distinct : ∀ i, ((t.chainAt i).map Bucket.key).Nodup

theorem chainAt_modify (t : Table α) (i j : Nat) (f : List (Bucket α) → List (Bucket α))
    (hi : i < t.length) :
    chainAt (t.modify i f) j = if i = j then f (t.chainAt j) else t.chainAt j := by
  unfold chainAt
  rw [List.getElem?_modify]
  by_cases hij : i = j
  · subst hij
    simp [List.getElem?_eq_getElem hi]
  · simp [hij]

theorem mem_flatten_iff (t : Table α) (b : Bucket α) :
    b ∈ t.flatten ↔ ∃ i, b ∈ t.chainAt i := by
  rw [List.mem_flatten]
  constructor
  · rintro ⟨chain, hchain, hb⟩
    obtain ⟨i, hi, rfl⟩ := List.getElem_of_mem hchain
    exact ⟨i, by simpa [chainAt, List.getElem?_eq_getElem hi] using hb⟩
  · rintro ⟨i, hb⟩
    unfold chainAt at hb
    cases h : t[i]? with
    | none => simp [h] at hb
    | some chain =>
      rw [h] at hb
      exact ⟨chain, List.mem_of_getElem? h, hb⟩

/-- A well-formed table holds a bucket exactly in the chain of its key. -/
theorem WF.mem_flatten {t : Table α} (h : t.WF) (b : Bucket α) :
    b ∈ t.flatten ↔ b ∈ t.chainAt (slot t.length b.key) := by
  rw [mem_flatten_iff]
  constructor
  · rintro ⟨i, hb⟩
    rw [h.placed i b hb]
    exact hb
  · exact fun hb => ⟨_, hb⟩

/-- No key occurs twice in a well-formed table. -/
theorem WF.nodup_keys {t : Table α} (h : t.WF) : (t.flatten.map Bucket.key).Nodup := by
  rw [List.map_flatten, List.nodup_flatten]
  constructor
  · intro keys hkeys
    obtain ⟨chain, hchain, rfl⟩ := List.mem_map.1 hkeys
    obtain ⟨i, hi, rfl⟩ := List.getElem_of_mem hchain
    simpa [chainAt, List.getElem?_eq_getElem hi] using h.distinct i
  · -- A key in two chains would hash to two slots.
    rw [List.pairwise_map, List.pairwise_iff_getElem]
    intro i j hi hj hij key hkey hkey'
    obtain ⟨b, hb, rfl⟩ := List.mem_map.1 hkey
    obtain ⟨b', hb', hbb'⟩ := List.mem_map.1 hkey'
    have h₁ := h.placed i b (by simpa [chainAt, List.getElem?_eq_getElem hi] using hb)
    have h₂ := h.placed j b' (by simpa [chainAt, List.getElem?_eq_getElem hj] using hb')
    rw [hbb'] at h₂
    omega

theorem slot_lt {capacity : Nat} (h : 0 < capacity) (key : CStr) : slot capacity key < capacity :=
  Nat.mod_lt _ h

@[simp] theorem length_insert (t : Table α) (key : CStr) (val : α) :
    (t.insert key val).length = t.length := by
  simp [insert]

@[simp] theorem length_remove (t : Table α) (key : CStr) : (t.remove key).length = t.length := by
  simp [remove]

/-! ## One chain -/

theorem mem_chainInsert {key : CStr} {val : α} {chain : List (Bucket α)}
    (hd : (chain.map Bucket.key).Nodup) (b : Bucket α) :
    b ∈ chainInsert key val chain ↔ b = ⟨key, val⟩ ∨ b.key ≠ key ∧ b ∈ chain := by
  induction chain with
  | nil => simp [chainInsert]
  | cons c chain ih =>
    rw [List.map_cons, List.nodup_cons] at hd
    unfold chainInsert
    by_cases hc : c.key = key
    · -- The key is here, so nowhere in the rest of the chain.
      have hrest : ∀ d ∈ chain, d.key ≠ key := fun d hd' hk =>
        hd.1 (hc ▸ hk ▸ List.mem_map_of_mem hd')
      rw [if_pos hc, List.mem_cons, List.mem_cons, hc]
      constructor
      · rintro (rfl | hb)
        · exact .inl rfl
        · exact .inr ⟨hrest b hb, .inr hb⟩
      · rintro (rfl | ⟨hk, rfl | hb⟩)
        · exact .inl rfl
        · exact absurd hc hk
        · exact .inr hb
    · rw [if_neg hc, List.mem_cons, List.mem_cons, ih hd.2]
      constructor
      · rintro (rfl | h | ⟨hk, hb⟩)
        · exact .inr ⟨hc, .inl rfl⟩
        · exact .inl h
        · exact .inr ⟨hk, .inr hb⟩
      · rintro (h | ⟨hk, rfl | hb⟩)
        · exact .inr (.inl h)
        · exact .inl rfl
        · exact .inr (.inr ⟨hk, hb⟩)

theorem keys_chainInsert_subset {key : CStr} {val : α} {chain : List (Bucket α)} {k : CStr}
    (h : k ∈ (chainInsert key val chain).map Bucket.key) : k = key ∨ k ∈ chain.map Bucket.key := by
  induction chain with
  | nil => simpa [chainInsert] using h
  | cons c chain ih =>
    unfold chainInsert at h
    split at h
    · rw [List.map_cons, List.mem_cons] at h ⊢
      exact .inr h
    · rw [List.map_cons, List.mem_cons] at h ⊢
      rcases h with h | h
      · exact .inr (.inl h)
      · exact (ih h).imp_right .inr

theorem nodup_chainInsert {key : CStr} {val : α} {chain : List (Bucket α)}
    (hd : (chain.map Bucket.key).Nodup) : ((chainInsert key val chain).map Bucket.key).Nodup := by
  induction chain with
  | nil => simp [chainInsert]
  | cons c chain ih =>
    rw [List.map_cons, List.nodup_cons] at hd
    unfold chainInsert
    split
    · exact List.nodup_cons.2 hd
    · rename_i hc
      rw [List.map_cons, List.nodup_cons]
      refine ⟨fun h => ?_, ih hd.2⟩
      rcases keys_chainInsert_subset h with h | h
      · exact hc h
      · exact hd.1 h

theorem mem_eraseP_key {key : CStr} {chain : List (Bucket α)}
    (hd : (chain.map Bucket.key).Nodup) (b : Bucket α) :
    b ∈ chain.eraseP (·.key = key) ↔ b.key ≠ key ∧ b ∈ chain := by
  induction chain with
  | nil => simp
  | cons c chain ih =>
    rw [List.map_cons, List.nodup_cons] at hd
    by_cases hc : c.key = key
    · -- Only the first bucket goes, and the rest of the chain has no other with this key.
      have hrest : ∀ d ∈ chain, d.key ≠ key := fun d hd' hk =>
        hd.1 (hc ▸ hk ▸ List.mem_map_of_mem hd')
      rw [List.eraseP_cons_of_pos (by simpa using hc), List.mem_cons]
      constructor
      · exact fun hb => ⟨hrest b hb, .inr hb⟩
      · rintro ⟨hk, rfl | hb⟩
        · exact absurd hc hk
        · exact hb
    · rw [List.eraseP_cons_of_neg (by simpa using hc), List.mem_cons, List.mem_cons, ih hd.2]
      constructor
      · rintro (rfl | ⟨hk, hb⟩)
        · exact ⟨hc, .inl rfl⟩
        · exact ⟨hk, .inr hb⟩
      · rintro ⟨hk, rfl | hb⟩
        · exact .inl rfl
        · exact .inr ⟨hk, hb⟩

/-! ## The operations keep the invariant -/

/-- Changing the chain of one slot keeps the invariant when the new chain has
    distinct keys that belong there. -/
theorem WF.modify {t : Table α} (h : t.WF) {i : Nat} (hi : i < t.length)
    {f : List (Bucket α) → List (Bucket α)}
    (hplaced : ∀ b ∈ f (t.chainAt i), slot t.length b.key = i)
    (hdistinct : ((f (t.chainAt i)).map Bucket.key).Nodup) : WF (t.modify i f) where
  capacity_pos := by rw [List.length_modify]; exact h.capacity_pos
  placed j b hb := by
    rw [List.length_modify]
    rw [chainAt_modify t i j f hi] at hb
    split at hb
    · rename_i hij; subst hij; exact hplaced b hb
    · exact h.placed j b hb
  distinct j := by
    rw [chainAt_modify t i j f hi]
    split
    · rename_i hij; subst hij; exact hdistinct
    · exact h.distinct j

theorem WF.insert {t : Table α} (h : t.WF) (key : CStr) (val : α) : (t.insert key val).WF := by
  refine h.modify (slot_lt h.capacity_pos key) (fun b hb => ?_) (nodup_chainInsert (h.distinct _))
  rcases (mem_chainInsert (h.distinct _) b).1 hb with rfl | ⟨_, hb⟩
  · rfl
  · exact h.placed _ b hb

theorem WF.remove {t : Table α} (h : t.WF) (key : CStr) : (t.remove key).WF := by
  refine h.modify (slot_lt h.capacity_pos key) (fun b hb => ?_) ?_
  · exact h.placed _ b ((mem_eraseP_key (h.distinct _) b).1 hb).2
  · exact (h.distinct _).sublist (List.eraseP_sublist.map _)

theorem chainAt_replicate_nil (n i : Nat) : chainAt (α := α) (List.replicate n []) i = [] := by
  unfold chainAt
  rw [List.getElem?_replicate]
  split <;> rfl

theorem wf_replicate {n : Nat} (hn : 0 < n) : WF (α := α) (List.replicate n []) where
  capacity_pos := by rw [List.length_replicate]; exact hn
  placed i b hb := by rw [chainAt_replicate_nil] at hb; exact nomatch hb
  distinct i := by rw [chainAt_replicate_nil]; exact List.nodup_nil

theorem WF.append {t : Table α} (h : t.WF) {b : Bucket α}
    (hb : b.key ∉ t.flatten.map Bucket.key) : (t.append b).WF := by
  refine h.modify (slot_lt h.capacity_pos b.key) (fun c hc => ?_) ?_
  · rcases List.mem_append.1 hc with hc | hc
    · exact h.placed _ c hc
    · rw [List.mem_singleton.1 hc]
  · -- The key is new to the whole table, so it is new to this chain.
    rw [List.map_append, List.nodup_append]
    refine ⟨h.distinct _, List.nodup_singleton _, ?_⟩
    rintro k hk _ hk' rfl
    obtain ⟨c, hc, hck⟩ := List.mem_map.1 hk
    rw [List.map_singleton, List.mem_singleton] at hk'
    exact hb (List.mem_map.2 ⟨c, (mem_flatten_iff t c).2 ⟨_, hc⟩, hck.trans hk'⟩)

theorem WF.mem_append {t : Table α} (h : t.WF) (b c : Bucket α) :
    c ∈ (t.append b).flatten ↔ c ∈ t.flatten ∨ c = b := by
  have hlt := slot_lt h.capacity_pos b.key
  rw [mem_flatten_iff, mem_flatten_iff, Table.append]
  constructor
  · rintro ⟨i, hc⟩
    rw [chainAt_modify _ _ _ _ hlt] at hc
    split at hc
    · rcases List.mem_append.1 hc with hc | hc
      · exact .inl ⟨i, hc⟩
      · exact .inr (List.mem_singleton.1 hc)
    · exact .inl ⟨i, hc⟩
  · rintro (⟨i, hc⟩ | rfl)
    · refine ⟨i, ?_⟩
      rw [chainAt_modify _ _ _ _ hlt]
      split
      · exact List.mem_append_left _ hc
      · exact hc
    · exact ⟨slot t.length c.key, by rw [chainAt_modify _ _ _ _ hlt, if_pos rfl]; simp⟩

/-- Rehanging a list of buckets with new, distinct keys. -/
theorem WF.foldl_append (bs : List (Bucket α)) {t : Table α} (h : t.WF)
    (hd : (bs.map Bucket.key).Nodup)
    (hnew : ∀ b ∈ bs, b.key ∉ t.flatten.map Bucket.key) :
    (bs.foldl Table.append t).WF ∧
      ∀ c, c ∈ (bs.foldl Table.append t).flatten ↔ c ∈ t.flatten ∨ c ∈ bs := by
  -- Over the buckets left, with the table built so far.
  induction bs generalizing t with
  | nil => exact ⟨h, fun c => by simp⟩
  | cons b bs ih =>
    rw [List.map_cons, List.nodup_cons] at hd
    have hb := hnew b List.mem_cons_self
    have hnew' : ∀ c ∈ bs, c.key ∉ (t.append b).flatten.map Bucket.key := by
      intro c hc hmem
      obtain ⟨d, hd', hdk⟩ := List.mem_map.1 hmem
      rcases (h.mem_append b d).1 hd' with hd' | rfl
      · exact hnew c (List.mem_cons_of_mem _ hc) (List.mem_map.2 ⟨d, hd', hdk⟩)
      · exact hd.1 (hdk ▸ List.mem_map_of_mem hc)
    obtain ⟨hwf, hmem⟩ := ih (h.append hb) hd.2 hnew'
    refine ⟨hwf, fun c => ?_⟩
    rw [List.foldl_cons, hmem c, h.mem_append b c, List.mem_cons, or_assoc]

theorem flatten_replicate_nil (n : Nat) :
    (List.replicate n ([] : List (Bucket α))).flatten = [] := by
  induction n with
  | zero => rfl
  | succ n ih => rw [List.replicate_succ, List.flatten_cons, ih]; rfl

theorem WF.resize_spec {t : Table α} (h : t.WF) :
    t.resize.WF ∧ ∀ c, c ∈ t.resize.flatten ↔ c ∈ t.flatten := by
  have hpos : 0 < t.length * 2 := Nat.mul_pos h.capacity_pos (by decide)
  obtain ⟨hwf, hmem⟩ := (wf_replicate hpos).foldl_append t.flatten h.nodup_keys
    (fun b _ hb => by rw [flatten_replicate_nil] at hb; exact nomatch hb)
  refine ⟨hwf, fun c => ?_⟩
  rw [resize, hmem c, flatten_replicate_nil]
  exact ⟨fun hc => hc.resolve_left (List.not_mem_nil), .inr⟩

end Table

/-- The test `(float)(n) > 0.70f * (float)capacity` of `hashmap_insert`, in units of 2^-24:
    a `float` has 24 bits, and `0.70f` is 11744051 of these units. -/
def overloaded (n capacity : Nat) : Bool :=
  decide (roundTo 24 (11744051 * roundTo 24 capacity) < 2 ^ 24 * roundTo 24 n)

example : overloaded 46976205 (2 ^ 26) = false ∧ overloaded 46976206 (2 ^ 26) = true := by decide

/-- `struct hashmap`, with the invariant of its table. -/
structure Hashmap (α : Type) where
  buckets : Table α
  nBuckets : Nat
  wf : buckets.WF

namespace Hashmap

variable {α : Type}

/-- `hashmap_new`. -/
def new : Hashmap α := ⟨List.replicate 16 [], 0, Table.wf_replicate (by decide)⟩

/-- `hashmap_resize`. -/
def resize (hm : Hashmap α) : Hashmap α :=
  ⟨hm.buckets.resize, hm.nBuckets, hm.wf.resize_spec.1⟩

/-- `hashmap_insert`. -/
def insert (hm : Hashmap α) (key : CStr) (val : α) : Hashmap α :=
  if overloaded (hm.nBuckets + 1) hm.buckets.length then
    ⟨hm.resize.buckets.insert key val, hm.nBuckets + 1, hm.resize.wf.insert key val⟩
  else ⟨hm.buckets.insert key val, hm.nBuckets + 1, hm.wf.insert key val⟩

/-- `hashmap_get`. -/
def get (hm : Hashmap α) (key : CStr) : Option α :=
  ((hm.buckets.chainAt (slot hm.buckets.length key)).find? (·.key = key)).map Bucket.val

/-- `hashmap_remove`. -/
def remove (hm : Hashmap α) (key : CStr) : Hashmap α :=
  ⟨hm.buckets.remove key, if (hm.get key).isSome then hm.nBuckets - 1 else hm.nBuckets,
    hm.wf.remove key⟩

/-- `hashmap_get_keys`. -/
def getKeys (hm : Hashmap α) : List CStr := hm.buckets.flatten.map Bucket.key

/-! ## The table as a finite map -/

/-- `get` finds exactly the bucket of the key. -/
theorem get_eq_some (hm : Hashmap α) (key : CStr) (val : α) :
    hm.get key = some val ↔ ⟨key, val⟩ ∈ hm.buckets.flatten := by
  rw [hm.wf.mem_flatten]
  unfold get
  -- What is left is about one chain with distinct keys.
  generalize hchain : hm.buckets.chainAt (slot hm.buckets.length key) = chain
  have hd : (chain.map Bucket.key).Nodup := hchain ▸ hm.wf.distinct _
  clear hchain
  induction chain with
  | nil => simp
  | cons b chain ih =>
    rw [List.map_cons, List.nodup_cons] at hd
    by_cases hb : b.key = key
    · rw [List.find?_cons_of_pos (by simpa using hb), Option.map_some, Option.some.injEq,
        List.mem_cons]
      constructor
      · rintro rfl; exact .inl (by rw [← hb])
      · rintro (rfl | hmem)
        · rfl
        · exact absurd (hb ▸ List.mem_map_of_mem hmem) hd.1
    · rw [List.find?_cons_of_neg (by simpa using hb), List.mem_cons]
      refine (ih hd.2).trans ⟨.inr, fun h => h.resolve_left fun he => hb ?_⟩
      rw [← he]

theorem get_new (key : CStr) : (new : Hashmap α).get key = none := by
  rw [Option.eq_none_iff_forall_ne_some]
  intro val h
  have := (get_eq_some _ _ _).1 h
  rw [show (new : Hashmap α).buckets.flatten = [] from Table.flatten_replicate_nil 16] at this
  exact nomatch this

theorem resize_get (hm : Hashmap α) (key : CStr) : hm.resize.get key = hm.get key := by
  ext val
  rw [get_eq_some, get_eq_some]
  exact hm.wf.resize_spec.2 _

private theorem get_table_insert (hm : Hashmap α) (key : CStr) (val : α) (n : Nat) (k : CStr) :
    (⟨hm.buckets.insert key val, n, hm.wf.insert key val⟩ : Hashmap α).get k =
      if k = key then some val else hm.get k := by
  ext v
  have hlt := Table.slot_lt hm.wf.capacity_pos key
  rw [get_eq_some, Table.WF.mem_flatten (hm.wf.insert key val), Table.length_insert]
  unfold Table.insert
  rw [Table.chainAt_modify _ _ _ _ hlt]
  by_cases hk : k = key
  · subst hk
    rw [if_pos rfl, if_pos rfl, Table.mem_chainInsert (hm.wf.distinct _)]
    simp [eq_comm]
  · rw [if_neg hk, get_eq_some, hm.wf.mem_flatten]
    split
    · rw [Table.mem_chainInsert (hm.wf.distinct _)]
      simp [hk]
    · rfl

/-- `insert` sets the value of its key and of no other. -/
theorem get_insert (hm : Hashmap α) (key : CStr) (val : α) (k : CStr) :
    (hm.insert key val).get k = if k = key then some val else hm.get k := by
  unfold insert
  split
  · exact (get_table_insert hm.resize key val _ k).trans (by rw [resize_get])
  · exact get_table_insert hm key val _ k

/-- `remove` forgets its key and no other. -/
theorem get_remove (hm : Hashmap α) (key k : CStr) :
    (hm.remove key).get k = if k = key then none else hm.get k := by
  ext v
  have hlt := Table.slot_lt hm.wf.capacity_pos key
  unfold remove
  rw [get_eq_some, Table.WF.mem_flatten (hm.wf.remove key), Table.length_remove]
  unfold Table.remove
  rw [Table.chainAt_modify _ _ _ _ hlt]
  by_cases hk : k = key
  · subst hk
    rw [if_pos rfl, if_pos rfl, Table.mem_eraseP_key (hm.wf.distinct _)]
    simp
  · rw [if_neg hk, get_eq_some, hm.wf.mem_flatten]
    split
    · rw [Table.mem_eraseP_key (hm.wf.distinct _)]
      simp [hk]
    · rfl

/-- `getKeys` lists every key that has a value. -/
theorem mem_getKeys (hm : Hashmap α) (key : CStr) :
    key ∈ hm.getKeys ↔ ∃ val, hm.get key = some val := by
  unfold getKeys
  rw [List.mem_map]
  constructor
  · rintro ⟨b, hb, rfl⟩
    exact ⟨b.val, (hm.get_eq_some _ _).2 hb⟩
  · rintro ⟨val, h⟩
    exact ⟨_, (hm.get_eq_some _ _).1 h, rfl⟩

/-- `getKeys` lists no key twice. -/
theorem nodup_getKeys (hm : Hashmap α) : hm.getKeys.Nodup := hm.wf.nodup_keys

end Hashmap

/-! ## The order of the keys -/

namespace Table

variable {α : Type}

theorem flatten_eq (t : Table α) : t.flatten = (List.range t.length).flatMap t.chainAt := by
  have hmap : (List.range t.length).map t.chainAt = t := by
    refine List.ext_getElem (by simp) fun i hi _ => ?_
    rw [List.length_map, List.length_range] at hi
    simp [chainAt, List.getElem?_eq_getElem hi]
  conv_lhs => rw [← hmap]
  rfl

/-- A new key goes to the end of its chain. -/
theorem chainInsert_of_not_mem {key : CStr} (val : α) {chain : List (Bucket α)}
    (h : key ∉ chain.map Bucket.key) : chainInsert key val chain = chain ++ [⟨key, val⟩] := by
  induction chain with
  | nil => rfl
  | cons c chain ih =>
    rw [List.map_cons, List.mem_cons, not_or] at h
    rw [chainInsert, if_neg fun hc => h.1 hc.symm, ih h.2, List.cons_append]

/-- Rehanging appends buckets to their chains in order. -/
theorem chainAt_foldl_append (bs : List (Bucket α)) {t : Table α} (h : 0 < t.length) (i : Nat) :
    (bs.foldl Table.append t).chainAt i = t.chainAt i ++ bs.filter (slot t.length ·.key = i) := by
  induction bs generalizing t with
  | nil => simp
  | cons b bs ih =>
    have hlength : (t.append b).length = t.length := List.length_modify ..
    rw [List.foldl_cons, ih (by rw [hlength]; exact h), hlength, append,
      chainAt_modify _ _ _ _ (slot_lt h b.key), List.filter_cons]
    by_cases hi : slot t.length b.key = i
    · simp [hi]
    · simp [hi]

/-- The chain of each slot has the keys of the list that belong there, in the order of the list. -/
def Lists (t : Table α) (ks : List CStr) : Prop :=
  ∀ i, (t.chainAt i).map Bucket.key = ks.filter (slot t.length · = i)

theorem Lists.insert {t : Table α} {ks : List CStr} (h : t.Lists ks) (ht : 0 < t.length)
    {key : CStr} (hkey : key ∉ ks) (val : α) : (t.insert key val).Lists (ks ++ [key]) := by
  intro i
  have hnew : key ∉ (t.chainAt (slot t.length key)).map Bucket.key := by
    rw [h]
    exact fun hmem => hkey (List.mem_of_mem_filter hmem)
  rw [length_insert, List.filter_append, ← h, Table.insert,
    chainAt_modify _ _ _ _ (slot_lt ht key)]
  split
  · rename_i hi
    subst hi
    rw [chainInsert_of_not_mem val hnew]
    simp
  · rename_i hi
    simp [hi]

theorem length_foldl_append (bs : List (Bucket α)) (t : Table α) :
    (bs.foldl Table.append t).length = t.length := by
  induction bs generalizing t with
  | nil => rfl
  | cons b bs ih => rw [List.foldl_cons, ih, append, List.length_modify]

theorem length_resize (t : Table α) : t.resize.length = t.length * 2 := by
  rw [resize, length_foldl_append, List.length_replicate]

/-- Keys that go to one chain of the larger table come from one chain, so they keep their order. -/
theorem Lists.resize {t : Table α} {ks : List CStr} (h : t.Lists ks) (ht : 0 < t.length) :
    t.resize.Lists ks := by
  intro i
  have hpos : 0 < (List.replicate (t.length * 2) ([] : List (Bucket α))).length := by
    rw [List.length_replicate]
    exact Nat.mul_pos ht (by decide)
  have hslot : ∀ k, slot (t.length * 2) k = i → slot t.length k = i % t.length := by
    rintro k rfl
    exact (Nat.mod_mul_right_mod _ _ _).symm
  have hchain : ∀ j, ((t.chainAt j).filter (slot (t.length * 2) ·.key = i)).map Bucket.key =
      ks.filter fun k => slot (t.length * 2) k = i && slot t.length k = j := by
    intro j
    rw [← List.filter_filter, ← h j, List.filter_map]
    rfl
  rw [length_resize, Table.resize, chainAt_foldl_append _ hpos, chainAt_replicate_nil,
    List.nil_append, List.length_replicate, flatten_eq, List.filter_flatMap, List.map_flatMap,
    List.flatMap_congr fun j _ => hchain j]
  obtain ⟨js, js', hjs⟩ := List.append_of_mem (List.mem_range.2 (Nat.mod_lt i ht))
  have hnodup := List.nodup_range (n := t.length)
  rw [hjs, List.nodup_append, List.nodup_cons] at hnodup
  have hempty : ∀ l : List Nat, i % t.length ∉ l →
      (l.flatMap fun j => ks.filter fun k =>
        slot (t.length * 2) k = i && slot t.length k = j) = [] := by
    intro l hl
    refine List.flatMap_eq_nil_iff.2 fun j hj => List.filter_eq_nil_iff.2 fun k _ hk => hl ?_
    simp only [Bool.and_eq_true, decide_eq_true_eq] at hk
    rw [← hslot k hk.1, hk.2]
    exact hj
  rw [hjs, List.flatMap_append, List.flatMap_cons,
    hempty js fun hmem => hnodup.2.2 _ hmem _ List.mem_cons_self rfl, hempty js' hnodup.2.1.1,
    List.nil_append, List.append_nil]
  refine List.filter_congr fun k _ => ?_
  by_cases hk : slot (t.length * 2) k = i
  · simp [hk, hslot k hk]
  · simp [hk]

end Table

namespace Hashmap

variable {α : Type}

/-- The number of chains after so many keys have been inserted. -/
def capacityAfter : Nat → Nat
  | 0 => 16
  | n + 1 =>
    if overloaded (n + 1) (capacityAfter n) then capacityAfter n * 2 else capacityAfter n

/-- The keys as `hashmap_get_keys` returns them, when they have been inserted in this order. -/
def keyOrder (ks : List CStr) : List CStr :=
  (List.range (capacityAfter ks.length)).flatMap fun i =>
    ks.filter (slot (capacityAfter ks.length) · = i)

theorem capacityAfter_pos (n : Nat) : 0 < capacityAfter n := by
  induction n with
  | zero => decide
  | succ n ih =>
    rw [capacityAfter]
    split <;> omega

/-- The slot of a key in a table of so many keys is one that `keyOrder` goes through. -/
theorem slot_mem_range (n : Nat) (key : CStr) :
    slot (capacityAfter n) key ∈ List.range (capacityAfter n) :=
  List.mem_range.2 (Table.slot_lt (capacityAfter_pos n) key)

theorem mem_keyOrder {ks : List CStr} {key : CStr} : key ∈ keyOrder ks ↔ key ∈ ks := by
  unfold keyOrder
  rw [List.mem_flatMap]
  constructor
  · rintro ⟨_, _, hmem⟩
    exact List.mem_of_mem_filter hmem
  · exact fun hmem => ⟨_, slot_mem_range _ key, List.mem_filter.2 ⟨hmem, decide_eq_true rfl⟩⟩

theorem nodup_keyOrder {ks : List CStr} (h : ks.Nodup) : (keyOrder ks).Nodup := by
  unfold keyOrder
  rw [List.nodup_flatMap]
  refine ⟨fun i _ => h.filter _, List.nodup_range.imp fun {i j} hij => ?_⟩
  -- A key in two chains would hash to two slots.
  intro key hi hj
  rw [List.mem_filter, decide_eq_true_iff] at hi hj
  exact hij (hi.2.symm.trans hj.2)

theorem keyOrder_perm {ks : List CStr} (h : ks.Nodup) : (keyOrder ks).Perm ks :=
  (List.perm_ext_iff_of_nodup (nodup_keyOrder h) h).2 fun _ => mem_keyOrder

/-- The table into which these keys have been inserted, each once. -/
structure Lists (hm : Hashmap α) (ks : List CStr) : Prop where
  nBuckets : hm.nBuckets = ks.length
  capacity : hm.buckets.length = capacityAfter ks.length
  chains : hm.buckets.Lists ks

theorem lists_new : (new : Hashmap α).Lists [] where
  nBuckets := rfl
  capacity := rfl
  chains i := by
    change ((Table.chainAt (List.replicate 16 []) i).map _) = _
    rw [Table.chainAt_replicate_nil]
    rfl

theorem Lists.insert {hm : Hashmap α} {ks : List CStr} (h : hm.Lists ks) {key : CStr}
    (hkey : key ∉ ks) (val : α) : (hm.insert key val).Lists (ks ++ [key]) := by
  have hpos := hm.wf.capacity_pos
  have hsize : (hm.insert key val).buckets.length = capacityAfter (ks.length + 1) := by
    rw [capacityAfter, ← h.capacity, ← h.nBuckets, Hashmap.insert]
    split
    · exact (Table.length_insert ..).trans (Table.length_resize _)
    · exact Table.length_insert ..
  refine ⟨?_, by rw [hsize, List.length_append, List.length_singleton], ?_⟩
  · rw [List.length_append, List.length_singleton, ← h.nBuckets, Hashmap.insert]
    split <;> rfl
  · rw [Hashmap.insert]
    split
    · refine (h.chains.resize hpos).insert ?_ hkey val
      rw [Table.length_resize]
      exact Nat.mul_pos hpos (by decide)
    · exact h.chains.insert hpos hkey val

theorem Lists.getKeys {hm : Hashmap α} {ks : List CStr} (h : hm.Lists ks) :
    hm.getKeys = keyOrder ks := by
  rw [Hashmap.getKeys, Table.flatten_eq, List.map_flatMap, h.capacity, keyOrder]
  exact List.flatMap_congr fun i _ => (h.chains i).trans (by rw [h.capacity])

end Hashmap

end Agendafs
