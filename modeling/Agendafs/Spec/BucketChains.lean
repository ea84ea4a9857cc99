import Agendafs.Native.Buckets

/-!
# The table in memory

A table whose buckets have addresses is in memory if each slot of the array points to
its chain, and no bucket hangs in two chains. This file says how the writes of
`hashmap.c` change such a table, chain by chain.

## Key results

- `InMemory.modify`: a new chain in one slot
- `InMemory.append_head`, `InMemory.append_tail`: one more bucket
- `findBucket_run`: the search of a chain
-/

namespace Agendafs

open Prog Linked

variable {α β : Type}

/-! ## Tables and their values -/

/-- The bucket with another value. -/
def Bucket.map (f : α → β) (b : Bucket α) : Bucket β := ⟨b.key, f b.val⟩

namespace Table

/-- The table with other values. -/
def map (f : α → β) (t : Table α) : Table β := List.map (List.map (Bucket.map f)) t

variable {f : α → β} {t : Table α}

@[simp] theorem length_map : (t.map f).length = t.length := List.length_map ..

theorem chainAt_map (i : Nat) : (t.map f).chainAt i = (t.chainAt i).map (Bucket.map f) := by
  unfold chainAt map
  rw [List.getElem?_map]
  cases t[i]? <;> rfl

protected theorem ext {t u : Table α} (hlength : t.length = u.length)
    (hchain : ∀ i, t.chainAt i = u.chainAt i) : t = u := by
  refine List.ext_getElem hlength fun i hi hi' => ?_
  have := hchain i
  unfold chainAt at this
  rwa [List.getElem?_eq_getElem hi, List.getElem?_eq_getElem hi'] at this

theorem map_modify {i : Nat} (hi : i < t.length) {g : List (Bucket α) → List (Bucket α)}
    {g' : List (Bucket β) → List (Bucket β)}
    (hg : (g (t.chainAt i)).map (Bucket.map f) = g' ((t.chainAt i).map (Bucket.map f))) :
    map f (List.modify t i g) = List.modify (t.map f) i g' := by
  refine Table.ext (by simp [map]) fun j => ?_
  rw [chainAt_map, chainAt_modify _ _ _ _ hi, chainAt_modify _ _ _ _ (by simpa using hi),
    chainAt_map]
  split
  · rename_i hij
    rw [← hij, hg]
  · rfl

theorem map_append (h : 0 < t.length) (b : Bucket α) :
    (t.append b).map f = (t.map f).append (b.map f) := by
  unfold append
  rw [length_map]
  exact map_modify (slot_lt h b.key) (by rw [List.map_append]; rfl)

theorem length_append (t : Table α) (b : Bucket α) : (t.append b).length = t.length :=
  List.length_modify ..

theorem map_foldl_append (bs : List (Bucket α)) (h : 0 < t.length) :
    (bs.foldl append t).map f = (bs.map (Bucket.map f)).foldl append (t.map f) := by
  induction bs generalizing t with
  | nil => rfl
  | cons b bs ih =>
    rw [List.foldl_cons, ih (by rwa [length_append]), map_append h]
    rfl

theorem map_flatten : (t.map f).flatten = t.flatten.map (Bucket.map f) := by
  rw [List.map_flatten]
  rfl

/-- Rehanging does not look at the values. -/
theorem map_resize (h : 0 < t.length) : t.resize.map f = (t.map f).resize := by
  unfold resize
  rw [map_foldl_append _ (by rw [List.length_replicate]; omega), map_flatten, length_map]
  congr 1
  simp [map]

/-- The invariant does not look at the values. -/
theorem wf_map : (t.map f).WF ↔ t.WF := by
  have hkeys : ∀ i, ((t.map f).chainAt i).map Bucket.key = (t.chainAt i).map Bucket.key := by
    intro i
    rw [chainAt_map, List.map_map]
    rfl
  constructor
  · refine fun h => ⟨by simpa using h.capacity_pos, fun i b hb => ?_, fun i => ?_⟩
    · have hplaced := h.placed i (b.map f) (by rw [chainAt_map]; exact List.mem_map_of_mem hb)
      rwa [length_map] at hplaced
    · exact hkeys i ▸ h.distinct i
  · refine fun h => ⟨by simpa using h.capacity_pos, fun i b hb => ?_, fun i => ?_⟩
    · rw [chainAt_map] at hb
      obtain ⟨c, hc, rfl⟩ := List.mem_map.1 hb
      rw [length_map]
      exact h.placed i c hc
    · exact (hkeys i).symm ▸ h.distinct i

/-- A new key gets a bucket at the end of its chain. -/
theorem insert_of_not_mem {key : CStr} (val : α) (ht : 0 < t.length)
    (hkey : key ∉ (t.chainAt (slot t.length key)).map Bucket.key) :
    t.insert key val = t.append ⟨key, val⟩ := by
  unfold insert append
  refine Table.ext (by simp) fun i => ?_
  rw [chainAt_modify _ _ _ _ (slot_lt ht key), chainAt_modify _ _ _ _ (slot_lt ht key)]
  split
  · rename_i hi
    rw [chainInsert_of_not_mem val (hi ▸ hkey)]
  · rfl

/-- A key that is there gets the new value in its bucket. -/
theorem chainInsert_of_mem {key : CStr} (val : α) {xs ys : List (Bucket α)} {b : Bucket α}
    (hxs : ∀ c ∈ xs, c.key ≠ key) (hb : b.key = key) :
    chainInsert key val (xs ++ b :: ys) = xs ++ ⟨key, val⟩ :: ys := by
  induction xs with
  | nil => rw [List.nil_append, chainInsert, if_pos hb, hb, List.nil_append]
  | cons c xs ih =>
    rw [List.forall_mem_cons] at hxs
    rw [List.cons_append, chainInsert, if_neg hxs.1, ih hxs.2, List.cons_append]

end Table

/-! ## Tables in memory -/

/-- The address of a bucket. -/
def Bucket.addr (b : Bucket (Nat × α)) : Nat := b.val.1

/-- A bucket with its address, as a cell of a list. -/
def Bucket.located (b : Bucket (Nat × α)) : Nat × BucketData α :=
  (b.addr, ⟨fnv1aHash b.key, b.key, b.val.2⟩)

theorem addrs_located (xs : List (Bucket (Nat × α))) :
    (xs.map Bucket.located).map Prod.fst = xs.map Bucket.addr := List.map_map ..

/-- The array points to the chains of the table, and these have no bucket in common. -/
structure InMemory (h : Heap (BucketData α)) (heads : List (Option Nat))
    (t : Table (Nat × α)) : Prop where
  length : heads.length = t.length
  chain : ∀ i p, heads[i]? = some p → h.Chain p ((t.chainAt i).map Bucket.located)
  apart : ∀ i j, ∀ b ∈ t.chainAt i, ∀ c ∈ t.chainAt j, b.addr = c.addr → i = j

variable {h h' : Heap (BucketData α)} {heads : List (Option Nat)} {t : Table (Nat × α)}

theorem Table.lt_length_of_mem {t : Table β} {i : Nat} {b : Bucket β} (hb : b ∈ t.chainAt i) :
    i < t.length := by
  by_contra hi
  unfold chainAt at hb
  rw [List.getElem?_eq_none (Nat.le_of_not_lt hi)] at hb
  cases hb

/-- The pointer in a slot. -/
theorem InMemory.exists_head (hm : InMemory h heads t) {i : Nat} (hi : i < t.length) :
    ∃ p, heads[i]? = some p ∧ h.Chain p ((t.chainAt i).map Bucket.located) := by
  have hlt : i < heads.length := hm.length ▸ hi
  exact ⟨heads[i], List.getElem?_eq_getElem hlt, hm.chain i _ (List.getElem?_eq_getElem hlt)⟩

/-- The cell of a bucket. -/
theorem InMemory.cell (hm : InMemory h heads t) {i : Nat} {b : Bucket (Nat × α)}
    (hb : b ∈ t.chainAt i) :
    ∃ n, h.cell b.addr = some ⟨⟨fnv1aHash b.key, b.key, b.val.2⟩, n⟩ := by
  obtain ⟨p, _, hchain⟩ := hm.exists_head (Table.lt_length_of_mem hb)
  exact hchain.cell (List.mem_map_of_mem hb)

theorem chain_frame {p : Option Nat} {xs : List (Bucket (Nat × α))}
    (hs : h.Chain p (xs.map Bucket.located)) (hsame : ∀ b ∈ xs, h'.cell b.addr = h.cell b.addr) :
    h'.Chain p (xs.map Bucket.located) :=
  hs.frame fun a ha => by
    rw [addrs_located] at ha
    obtain ⟨b, hb, rfl⟩ := List.mem_map.1 ha
    exact hsame b hb

/-- A heap with the same cells at all buckets. -/
theorem InMemory.frame (hm : InMemory h heads t)
    (hsame : ∀ i, ∀ b ∈ t.chainAt i, h'.cell b.addr = h.cell b.addr) : InMemory h' heads t where
  length := hm.length
  chain i p hp := chain_frame (hm.chain i p hp) (hsame i)
  apart := hm.apart

/-- One slot gets a new chain, which has no bucket of the other ones. -/
theorem InMemory.modify (hm : InMemory h heads t) {i : Nat} (hi : i < t.length) {p : Option Nat}
    {f : List (Bucket (Nat × α)) → List (Bucket (Nat × α))}
    (hchain : h'.Chain p ((f (t.chainAt i)).map Bucket.located))
    (hsame : ∀ j, j ≠ i → ∀ b ∈ t.chainAt j, h'.cell b.addr = h.cell b.addr)
    (hapart : ∀ j, j ≠ i → ∀ b ∈ f (t.chainAt i), ∀ c ∈ t.chainAt j, b.addr ≠ c.addr) :
    InMemory h' (heads.set i p) (List.modify t i f) where
  length := by rw [List.length_set, List.length_modify, hm.length]
  chain j q hq := by
    rw [Table.chainAt_modify _ _ _ _ hi]
    by_cases hij : i = j
    · subst hij
      rw [List.getElem?_set_self (hm.length ▸ hi)] at hq
      cases hq
      rwa [if_pos rfl]
    · rw [List.getElem?_set_ne hij] at hq
      rw [if_neg hij]
      exact chain_frame (hm.chain j q hq) (hsame j (Ne.symm hij))
  apart j k b hb c hc heq := by
    rw [Table.chainAt_modify _ _ _ _ hi] at hb hc
    split at hb <;> split at hc
    · rename_i hj hk
      exact hj.symm.trans hk
    · rename_i hj hk
      subst hj
      exact absurd heq (hapart k (Ne.symm hk) b hb c hc)
    · rename_i hj hk
      subst hk
      exact absurd heq.symm (hapart j (Ne.symm hj) c hc b hb)
    · exact hm.apart j k b hb c hc heq

/-- A slot keeps its pointer and gets a new chain. -/
theorem InMemory.modify_chain (hm : InMemory h heads t) {i : Nat} (hi : i < t.length)
    {p : Option Nat} (hp : heads[i]? = some p)
    {f : List (Bucket (Nat × α)) → List (Bucket (Nat × α))}
    (hchain : h'.Chain p ((f (t.chainAt i)).map Bucket.located))
    (hsame : ∀ j, j ≠ i → ∀ b ∈ t.chainAt j, h'.cell b.addr = h.cell b.addr)
    (hapart : ∀ j, j ≠ i → ∀ b ∈ f (t.chainAt i), ∀ c ∈ t.chainAt j, b.addr ≠ c.addr) :
    InMemory h' heads (List.modify t i f) := by
  have hset : heads.set i p = heads := by
    obtain ⟨hlt, rfl⟩ := List.getElem?_eq_some_iff.1 hp
    exact List.set_getElem_self hlt
  rw [← hset]
  exact hm.modify hi hchain hsame hapart

/-! ## All chains -/

/-- The pointers lead to these chains, one after the other. -/
abbrev Chains (h : Heap (BucketData α)) (slots : List (Option Nat))
    (chains : List (List (Bucket (Nat × α)))) : Prop :=
  List.Forall₂ (fun p xs => h.Chain p (xs.map Bucket.located)) slots chains

theorem Chains.frame {slots : List (Option Nat)} {chains : List (List (Bucket (Nat × α)))}
    (hs : Chains h slots chains) (hsame : ∀ b ∈ chains.flatten, h'.cell b.addr = h.cell b.addr) :
    Chains h' slots chains := by
  induction hs with
  | nil => exact .nil
  | cons hchain _ ih =>
    rw [List.flatten_cons, List.forall_mem_append] at hsame
    exact .cons (chain_frame hchain hsame.1) (ih hsame.2)

theorem InMemory.chains (hm : InMemory h heads t) : Chains h heads t := by
  refine List.forall₂_iff_get.2 ⟨hm.length, fun i hi hi' => ?_⟩
  have hchain := hm.chain i heads[i] (List.getElem?_eq_getElem hi)
  rwa [Table.chainAt, List.getElem?_eq_getElem hi', Option.getD_some] at hchain

/-- No bucket of the table has the address of another one. -/
theorem InMemory.nodup (hm : InMemory h heads t) : (t.flatten.map Bucket.addr).Nodup := by
  rw [List.map_flatten, List.nodup_flatten]
  constructor
  · intro addrs haddrs
    obtain ⟨xs, hxs, rfl⟩ := List.mem_map.1 haddrs
    obtain ⟨i, hi, rfl⟩ := List.getElem_of_mem hxs
    have hnodup := (List.forall₂_iff_get.1 hm.chains).2 i (hm.length ▸ hi) hi |>.nodup
    rwa [addrs_located] at hnodup
  · rw [List.pairwise_map, List.pairwise_iff_getElem]
    rintro i j hi hj hij a ha ha'
    obtain ⟨b, hb, rfl⟩ := List.mem_map.1 ha
    obtain ⟨c, hc, hcb⟩ := List.mem_map.1 ha'
    have := hm.apart i j b (by simpa [Table.chainAt, List.getElem?_eq_getElem hi] using hb)
      c (by simpa [Table.chainAt, List.getElem?_eq_getElem hj] using hc) hcb.symm
    omega

/-! ## One more bucket -/

/-- The bucket is in none of the chains. -/
def Apart (b : Bucket (Nat × α)) (t : Table (Nat × α)) : Prop :=
  ∀ i, ∀ c ∈ t.chainAt i, b.addr ≠ c.addr

/-- A bucket in an empty slot. -/
theorem InMemory.append_head (hm : InMemory h heads t) (ht : 0 < t.length)
    {b : Bucket (Nat × α)} (hb : Apart b t) (hempty : t.chainAt (slot t.length b.key) = [])
    (hcell : h'.cell b.addr = some ⟨b.located.2, none⟩)
    (hsame : ∀ a, a ≠ b.addr → h'.cell a = h.cell a) :
    InMemory h' (heads.set (slot t.length b.key) (some b.addr)) (t.append b) := by
  refine hm.modify (Table.slot_lt ht b.key) ?_ (fun j _ c hc => hsame _ (hb j c hc).symm) ?_
  · rw [hempty]
    exact ⟨rfl, none, hcell, rfl⟩
  · intro j _ c hc d hd
    rw [hempty] at hc
    obtain rfl := List.mem_singleton.1 hc
    exact hb j d hd

/-- The two writes that hang a cell behind the last one of a chain. -/
theorem chain_append_cell {γ : Type} {h : Heap γ} {p n : Option Nat} {xs : List (Nat × γ)}
    {a b : Nat} {x y : γ} (hs : h.Chain p (xs ++ [(a, x)])) (hb : b ∉ (xs ++ [(a, x)]).map Prod.fst)
    (hcell : h.cell b = some ⟨y, n⟩) :
    ((h.modify a fun c => { c with next := some b }).modify b fun c => { c with next := none }).Chain
      p (xs ++ [(a, x)] ++ [(b, y)]) := by
  have hba : b ≠ a := fun hba => hb (by simp [hba])
  have hnodup := hs.nodup
  rw [List.map_append, List.nodup_append] at hnodup
  have hlast : a ∉ xs.map Prod.fst := fun ha =>
    hnodup.2.2 a ha a (List.mem_singleton.2 rfl) rfl
  refine Heap.segment_append.2 ⟨some b, (hs.relink hlast (some b)).modify hb _, rfl, none, ?_, rfl⟩
  rw [Heap.cell_modify, if_pos rfl, Heap.cell_modify, if_neg hba, hcell]
  rfl

/-- A bucket behind the last one of a chain. -/
theorem InMemory.append_tail (hm : InMemory h heads t) (ht : 0 < t.length)
    {b c : Bucket (Nat × α)} (hb : Apart b t) {xs : List (Bucket (Nat × α))} {n : Option Nat}
    (hlast : t.chainAt (slot t.length b.key) = xs ++ [c])
    (hcell : h.cell b.addr = some ⟨b.located.2, n⟩) :
    InMemory ((h.modify c.addr fun c => { c with next := some b.addr }).modify b.addr
      fun c => { c with next := none }) heads (t.append b) := by
  have hi := Table.slot_lt ht b.key
  obtain ⟨p, hp, hchain⟩ := hm.exists_head hi
  have hnew : b.addr ∉ ((xs ++ [c]).map Bucket.located).map Prod.fst := by
    rw [addrs_located, ← hlast]
    intro hmem
    obtain ⟨d, hd, hda⟩ := List.mem_map.1 hmem
    exact hb _ d hd hda.symm
  refine hm.modify_chain hi hp ?_ (fun j hj d hd => ?_) fun j hj d hd e he => ?_
  · rw [hlast, List.map_append] at hchain
    rw [List.map_append] at hnew
    rw [hlast, List.map_append, List.map_append]
    exact chain_append_cell hchain hnew hcell
  · have hdc : d.addr ≠ c.addr := fun heq =>
      hj (hm.apart j _ d hd c (hlast ▸ List.mem_append_right xs List.mem_cons_self) heq)
    rw [Heap.cell_modify, if_neg (hb j d hd).symm, Heap.cell_modify, if_neg hdc]
  · rcases List.mem_append.1 hd with hd | hd
    · exact fun heq => hj (hm.apart _ j d hd e he heq).symm
    · obtain rfl := List.mem_singleton.1 hd
      exact hb j e he

end Agendafs
