import Agendafs.ForStd.Linked
import Agendafs.Native.Hashmap

/-!
# hashmap.c in memory

The hash table as the source has it: an array of pointers to buckets that are
allocated, linked, relinked and freed. An access through NULL or through a pointer
to a freed bucket, outside of an array, or a division by zero stops. `calloc` and
`strdup` succeed.
-/

namespace Agendafs

open Linked

/-- `struct bucket`, without its `next`. -/
structure BucketData (α : Type) where
  hash : UInt32
  key : CStr
  val : α

/-- `struct hashmap`, and the values that have been given to `val_free_func`. -/
structure HashmapData (α : Type) where
  buckets : List (Option Nat)
  nBuckets : Nat
  capacity : Nat
  /-- Is `val_free_func` there? -/
  freesVals : Bool
  valsFreed : List α

/-- Programs on the table and its buckets. -/
abbrev BucketM (α β : Type) := Prog Fault (Memory (BucketData α) (HashmapData α)) β

section

variable {α : Type}

/-- Call `val_free_func` if it is there. -/
def HashmapData.freeVal (hm : HashmapData α) (val : α) : HashmapData α :=
  if hm.freesVals then { hm with valsFreed := hm.valsFreed ++ [val] } else hm

/-- The number of steps that a loop along a chain may take. -/
def chainSteps : BucketM α Nat := do pure ((← get).heap.brk + 1)

/-- `hash % (uint32_t)(capacity)`. -/
def slotOf (hash : UInt32) (capacity : Nat) : BucketM α Nat :=
  if capacity % 2 ^ 32 = 0 then throw .divisionByZero
  else pure (hash.toNat % (capacity % 2 ^ 32))

/-- Read an entry of an array of pointers. -/
def readSlot (buckets : List (Option Nat)) (idx : Nat) : BucketM α (Option Nat) :=
  match buckets[idx]? with
  | none => throw .outOfBounds
  | some p => pure p

/-- Write an entry of an array of pointers. -/
def writeSlot (buckets : List (Option Nat)) (idx : Nat) (p : Option Nat) :
    BucketM α (List (Option Nat)) :=
  if idx < buckets.length then pure (buckets.set idx p) else throw .outOfBounds

/-- `new_bucket`. -/
def newBucket (key : CStr) (val : α) : BucketM α Nat := alloc ⟨⟨fnv1aHash key, key, val⟩, none⟩

/-- `hashmap_new`. -/
def hashmapNew (freesVals : Bool) : Memory (BucketData α) (HashmapData α) :=
  ⟨.empty, ⟨List.replicate 16 none, 0, 16, freesVals, []⟩⟩

/-- `free_bucket`, where `withVals` tells whether it is called with `val_free_func`. -/
def freeBucket (withVals : Bool) (b : Option Nat) : BucketM α Unit := do
  drain (fun curr hm => if withVals then hm.freeVal curr.val else hm) (← chainSteps) b

/-- The loop of `hashmap_free` over the slots that are left. -/
def freeSlots : List (Option Nat) → BucketM α Unit
  | [] => pure ()
  | b :: buckets => do
    freeBucket true b
    freeSlots buckets

/-- `hashmap_free`. -/
def hashmapFree : BucketM α Unit := do
  freeSlots (← get).rest.buckets

/-- The inner loop of `hashmap_resize`: hang the buckets from `target` on into the new array. -/
def rehang (newSize : Nat) : Nat → Option Nat → List (Option Nat) → BucketM α (List (Option Nat))
  | 0, _, _ => throw .endless
  | _ + 1, none, buckets => pure buckets
  | fuel + 1, some curr, buckets => do
    let c ← load (some curr)
    let currNewIdx ← slotOf c.data.hash newSize
    match ← readSlot buckets currNewIdx with
    | none => do
      let buckets ← writeSlot buckets currNewIdx (some curr)
      setNext curr none
      rehang newSize fuel c.next buckets
    | some ptr => do
      -- Collision: the bucket goes behind the last one of the chain.
      let last ← tail (← chainSteps) ptr
      setNext last (some curr)
      setNext curr none
      rehang newSize fuel c.next buckets

/-- The outer loop of `hashmap_resize`, over the slots that are left. -/
def rehangSlots (newSize : Nat) : List (Option Nat) → List (Option Nat) →
    BucketM α (List (Option Nat))
  | [], buckets => pure buckets
  | target :: slots, buckets => do
    let buckets ← rehang newSize (← chainSteps) target buckets
    rehangSlots newSize slots buckets

/-- `hashmap_resize`. -/
def hashmapResize : BucketM α Unit := do
  let hm := (← get).rest
  let newSize := hm.capacity * 2
  let buckets ← rehangSlots newSize hm.buckets (List.replicate newSize none)
  modify fun m => { m with rest := { m.rest with buckets := buckets, capacity := newSize } }

/-- The loops over a chain that look for a key: the first bucket with it. -/
def findBucket (hash : UInt32) (key : CStr) : Nat → Option Nat → BucketM α (Option Nat)
  | 0, _ => throw .endless
  | _ + 1, none => pure none
  | fuel + 1, some curr => do
    let c ← load (some curr)
    if c.data.hash = hash ∧ c.data.key = key then pure (some curr)
    else findBucket hash key fuel c.next

/-- `hashmap_insert`, once the table is large enough. -/
def insertBucket (key : CStr) (val : α) : BucketM α Int := do
  modify fun m => { m with rest := { m.rest with nBuckets := m.rest.nBuckets + 1 } }
  let b ← newBucket key val
  let hm := (← get).rest
  let idx ← slotOf (fnv1aHash key) hm.capacity
  match ← readSlot hm.buckets idx with
  | none => do
    let buckets ← writeSlot hm.buckets idx (some b)
    modify fun m => { m with rest := { m.rest with buckets := buckets } }
    pure 0
  | some head => do
    match ← findBucket (fnv1aHash key) key (← chainSteps) (some head) with
    | some curr => do
      -- The key is there: its bucket gets the new value, and the new bucket goes.
      let c ← load (some curr)
      modify fun m => { m with rest := m.rest.freeVal c.data.val }
      write curr fun c => { c with data := { c.data with val := val } }
      freeBucket false (some b)
      pure 0
    | none => do
      let last ← tail (← chainSteps) head
      setNext last (some b)
      setNext b none
      pure 0

/-- `hashmap_insert`. -/
def hashmapInsert (key : CStr) (val : α) : BucketM α Int := do
  let hm := (← get).rest
  if overloaded (hm.nBuckets + 1) hm.capacity then hashmapResize
  insertBucket key val

/-- `hashmap_get`. -/
def hashmapGet (key : CStr) : BucketM α (Option α) := do
  let hm := (← get).rest
  let idx ← slotOf (fnv1aHash key) hm.capacity
  match ← readSlot hm.buckets idx with
  | none => pure none
  | some head => do
    let c ← load (some head)
    if c.data.hash = fnv1aHash key ∧ c.data.key = key then pure (some c.data.val)
    else
      -- The loop starts at the first bucket again.
      match ← findBucket (fnv1aHash key) key (← chainSteps) (some head) with
      | none => pure none
      | some curr => do pure (some (← load (some curr)).data.val)

/-- What `_hashmap_remove` does with the bucket it has found behind `prev`. -/
def unlinkBucket (idx : Nat) (prev : Option Nat) (target : Nat) (next : Option Nat) :
    BucketM α Int := do
  match prev with
  | none => do
    let buckets ← writeSlot (← get).rest.buckets idx next
    modify fun m => { m with rest := { m.rest with buckets := buckets } }
  | some prev => setNext prev next
  setNext target none
  freeBucket true (some target)
  modify fun m => { m with rest := { m.rest with nBuckets := m.rest.nBuckets - 1 } }
  pure 0

/-- The loop of `_hashmap_remove`, from `target` on. -/
def removeBucket (hash : UInt32) (key : CStr) (idx : Nat) :
    Nat → Option Nat → Option Nat → BucketM α Int
  | 0, _, _ => throw .endless
  | _ + 1, _, none => pure 1
  | fuel + 1, prev, some target => do
    let c ← load (some target)
    if c.data.hash = hash ∧ c.data.key = key then unlinkBucket idx prev target c.next
    else removeBucket hash key idx fuel (some target) c.next

/-- `hashmap_remove`. -/
def hashmapRemove (key : CStr) : BucketM α Int := do
  let hm := (← get).rest
  let idx ← slotOf (fnv1aHash key) hm.capacity
  removeBucket (fnv1aHash key) key idx (← chainSteps) none (← readSlot hm.buckets idx)

/-- The inner loop of `hashmap_get_keys`: `keys` has room for `room` keys. -/
def copyKeys (room : Nat) : Nat → Option Nat → List CStr → BucketM α (List CStr)
  | 0, _, _ => throw .endless
  | _ + 1, none, keys => pure keys
  | fuel + 1, some b, keys => do
    let c ← load (some b)
    if keys.length < room then copyKeys room fuel c.next (keys ++ [c.data.key])
    else throw .outOfBounds

/-- The outer loop of `hashmap_get_keys`, over the slots that are left. -/
def copySlots (room : Nat) : List (Option Nat) → List CStr → BucketM α (List CStr)
  | [], keys => pure keys
  | b :: buckets, keys => do
    let keys ← copyKeys room (← chainSteps) b keys
    copySlots room buckets keys

/-- `hashmap_get_keys`. -/
def hashmapGetKeys : BucketM α (List CStr) := do
  let hm := (← get).rest
  copySlots hm.nBuckets hm.buckets []

end

end Agendafs
