import Agendafs.ForStd.Prog
import Mathlib.Data.List.Nodup
import Mathlib.Data.Finset.Card

/-!
# Linked lists in memory

Cells with a datum and a pointer to the next cell, in a memory where a pointer may be
NULL or dangle. `Heap.Segment` says which cells a pointer leads through; a chain is a
segment that ends in NULL. A chain never comes back to a cell, so loops along chains
end, and what is written outside of a chain leaves it as it is.

## Key results

- `Heap.Segment.frame`: what is written elsewhere leaves a segment
- `Heap.Chain.nodup`: a chain has no cell twice
- `tail_run`, `drain_run`: the loop to the last cell, and the loop that frees a chain
-/

namespace Linked

open Prog

variable {α τ β : Type}

/-! ## Memory -/

/-- Why a program on memory stops. -/
inductive Fault
  | nullPointer
  /-- The cell has been freed, or never been there. -/
  | dangling
  | outOfBounds
  /-- A value is read before it has been written. -/
  | uninitialised
  | divisionByZero
  /-- A loop goes on past the bound it is given. -/
  | endless
deriving DecidableEq

/-- A cell of a list. -/
structure Cell (α : Type) where
  data : α
  next : Option Nat

/-- The cells that are allocated, by their addresses. -/
structure Heap (α : Type) where
  cell : Nat → Option (Cell α)
  /-- The next address to be given. -/
  brk : Nat
  fresh : ∀ a, brk ≤ a → cell a = none

namespace Heap

def empty : Heap α := ⟨fun _ => none, 0, fun _ _ => rfl⟩

/-- The heap with one more cell. -/
def push (h : Heap α) (c : Cell α) : Heap α where
  cell a := if a = h.brk then some c else h.cell a
  brk := h.brk + 1
  fresh a ha := by rw [if_neg (by omega)]; exact h.fresh a (by omega)

/-- The heap with `f` applied to one cell. -/
def modify (h : Heap α) (a : Nat) (f : Cell α → Cell α) : Heap α where
  cell b := if b = a then (h.cell b).map f else h.cell b
  brk := h.brk
  fresh b hb := by rw [h.fresh b hb]; split <;> rfl

/-- The heap without the cells at these addresses. -/
def erase (h : Heap α) (as : List Nat) : Heap α where
  cell b := if b ∈ as then none else h.cell b
  brk := h.brk
  fresh b hb := by rw [h.fresh b hb]; split <;> rfl

@[simp] theorem brk_push (h : Heap α) (c : Cell α) : (h.push c).brk = h.brk + 1 := rfl

@[simp] theorem brk_modify (h : Heap α) (a : Nat) (f : Cell α → Cell α) :
    (h.modify a f).brk = h.brk := rfl

@[simp] theorem brk_erase (h : Heap α) (as : List Nat) : (h.erase as).brk = h.brk := rfl

theorem cell_push (h : Heap α) (c : Cell α) (a : Nat) :
    (h.push c).cell a = if a = h.brk then some c else h.cell a := rfl

theorem cell_modify (h : Heap α) (a : Nat) (f : Cell α → Cell α) (b : Nat) :
    (h.modify a f).cell b = if b = a then (h.cell b).map f else h.cell b := rfl

theorem cell_erase (h : Heap α) (as : List Nat) (b : Nat) :
    (h.erase as).cell b = if b ∈ as then none else h.cell b := rfl

@[ext] theorem ext {h h' : Heap α} (hcell : ∀ a, h.cell a = h'.cell a) (hbrk : h.brk = h'.brk) :
    h = h' := by
  obtain ⟨cell, brk, _⟩ := h
  obtain ⟨cell', brk', _⟩ := h'
  obtain rfl : cell = cell' := funext hcell
  obtain rfl : brk = brk' := hbrk
  rfl

@[simp] theorem erase_nil (h : Heap α) : h.erase [] = h := by
  ext a : 1
  · exact (cell_erase h [] a).trans (if_neg List.not_mem_nil)
  · rfl

theorem erase_erase (h : Heap α) (as bs : List Nat) :
    (h.erase as).erase bs = h.erase (as ++ bs) := by
  ext a : 1
  · simp only [cell_erase, List.mem_append]
    split <;> split <;> simp_all
  · rfl

theorem lt_brk {h : Heap α} {a : Nat} {c : Cell α} (hc : h.cell a = some c) : a < h.brk := by
  by_contra ha
  rw [h.fresh a (by omega)] at hc
  cases hc

end Heap

/-- A heap next to other data. -/
structure Memory (α τ : Type) where
  heap : Heap α
  rest : τ

/-- Read the cell behind a pointer. -/
def load (p : Option Nat) : Prog Fault (Memory α τ) (Cell α) := do
  match p with
  | none => throw .nullPointer
  | some a =>
    match (← get).heap.cell a with
    | none => throw .dangling
    | some c => pure c

/-- Allocate a cell. -/
def alloc (c : Cell α) : Prog Fault (Memory α τ) Nat := do
  let m ← get
  modify fun m => { m with heap := m.heap.push c }
  pure m.heap.brk

/-- Write to a cell. -/
def write (a : Nat) (f : Cell α → Cell α) : Prog Fault (Memory α τ) Unit := do
  let _ ← load (some a)
  modify fun m => { m with heap := m.heap.modify a f }

/-- Set the pointer of a cell. -/
def setNext (a : Nat) (p : Option Nat) : Prog Fault (Memory α τ) Unit :=
  write a fun c => { c with next := p }

/-- Free a cell. -/
def free (a : Nat) : Prog Fault (Memory α τ) Unit := do
  let _ ← load (some a)
  modify fun m => { m with heap := m.heap.erase [a] }

section

variable {h : Heap α} {r : τ} {a : Nat} {c : Cell α}

theorem load_run (hc : h.cell a = some c) :
    load (some a) (⟨h, r⟩ : Memory α τ) = .ok (c, ⟨h, r⟩) := by
  change (match h.cell a with
    | none => throw .dangling
    | some c => pure c : Prog Fault (Memory α τ) (Cell α)) _ = _
  rw [hc]
  rfl

theorem alloc_run (c : Cell α) : alloc c (⟨h, r⟩ : Memory α τ) = .ok (h.brk, ⟨h.push c, r⟩) := rfl

theorem write_run (hc : h.cell a = some c) (f : Cell α → Cell α) :
    write a f (⟨h, r⟩ : Memory α τ) = .ok ((), ⟨h.modify a f, r⟩) := by
  unfold write
  rw [bind_run_ok (load_run hc)]
  rfl

theorem setNext_run (hc : h.cell a = some c) (p : Option Nat) :
    setNext a p (⟨h, r⟩ : Memory α τ) = .ok ((), ⟨h.modify a fun c => { c with next := p }, r⟩) :=
  write_run hc _

theorem free_run (hc : h.cell a = some c) :
    free a (⟨h, r⟩ : Memory α τ) = .ok ((), ⟨h.erase [a], r⟩) := by
  unfold free
  rw [bind_run_ok (load_run hc)]
  rfl

end

/-! ## Chains -/

namespace Heap

/-- The pointer `p` leads through these cells to the pointer `q`. -/
def Segment (h : Heap α) (p : Option Nat) : List (Nat × α) → Option Nat → Prop
  | [], q => p = q
  | (a, x) :: xs, q => p = some a ∧ ∃ n, h.cell a = some ⟨x, n⟩ ∧ h.Segment n xs q

/-- The pointer leads through these cells to NULL. -/
abbrev Chain (h : Heap α) (p : Option Nat) (xs : List (Nat × α)) : Prop := h.Segment p xs none

variable {h h' : Heap α} {p q : Option Nat} {xs ys : List (Nat × α)} {a : Nat} {x : α}

@[simp] theorem segment_nil : h.Segment p [] q ↔ p = q := Iff.rfl

theorem segment_cons : h.Segment p ((a, x) :: xs) q ↔
    p = some a ∧ ∃ n, h.cell a = some ⟨x, n⟩ ∧ h.Segment n xs q := Iff.rfl

theorem segment_append : h.Segment p (xs ++ ys) q ↔ ∃ r, h.Segment p xs r ∧ h.Segment r ys q := by
  induction xs generalizing p with
  | nil => simp
  | cons y xs ih =>
    obtain ⟨a, x⟩ := y
    rw [List.cons_append, segment_cons]
    constructor
    · rintro ⟨rfl, n, hn, hrest⟩
      obtain ⟨r, hxs, hys⟩ := ih.1 hrest
      exact ⟨r, ⟨rfl, n, hn, hxs⟩, hys⟩
    · rintro ⟨r, ⟨rfl, n, hn, hxs⟩, hys⟩
      exact ⟨rfl, n, hn, ih.2 ⟨r, hxs, hys⟩⟩

/-- What is written elsewhere leaves a segment as it is. -/
theorem Segment.frame (hs : h.Segment p xs q)
    (hsame : ∀ a ∈ xs.map Prod.fst, h'.cell a = h.cell a) : h'.Segment p xs q := by
  induction xs generalizing p with
  | nil => exact hs
  | cons y xs ih =>
    obtain ⟨a, x⟩ := y
    obtain ⟨rfl, n, hn, hrest⟩ := hs
    rw [List.map_cons, List.forall_mem_cons] at hsame
    exact ⟨rfl, n, hsame.1.trans hn, ih hrest hsame.2⟩

theorem Segment.cell (hs : h.Segment p xs q) {y : Nat × α} (hy : y ∈ xs) :
    ∃ n, h.cell y.1 = some ⟨y.2, n⟩ := by
  induction xs generalizing p with
  | nil => cases hy
  | cons z xs ih =>
    obtain ⟨a, x⟩ := z
    obtain ⟨rfl, n, hn, hrest⟩ := hs
    rcases List.mem_cons.1 hy with rfl | hy
    · exact ⟨n, hn⟩
    · exact ih hrest hy

theorem Segment.erase (hs : h.Segment p xs q) {as : List Nat}
    (has : ∀ a ∈ as, a ∉ xs.map Prod.fst) : (h.erase as).Segment p xs q :=
  hs.frame fun b hb => by rw [cell_erase, if_neg fun hmem => has b hmem hb]

theorem Segment.modify (hs : h.Segment p xs q) (ha : a ∉ xs.map Prod.fst)
    (f : Cell α → Cell α) : (h.modify a f).Segment p xs q :=
  hs.frame fun b hb => by rw [cell_modify, if_neg (by rintro rfl; exact ha hb)]

theorem Segment.push (hs : h.Segment p xs q) (c : Cell α) : (h.push c).Segment p xs q := by
  refine hs.frame fun b hb => ?_
  obtain ⟨y, hy, rfl⟩ := List.mem_map.1 hb
  obtain ⟨n, hn⟩ := hs.cell hy
  rw [cell_push, if_neg (Nat.ne_of_lt (lt_brk hn))]

/-- A chain is determined by its pointer. -/
theorem Chain.unique (hs : h.Chain p xs) (hs' : h.Chain p ys) : xs = ys := by
  induction xs generalizing p ys with
  | nil =>
    obtain rfl := segment_nil.1 hs
    cases ys with
    | nil => rfl
    | cons y ys => cases hs'.1
  | cons y xs ih =>
    obtain ⟨a, x⟩ := y
    obtain ⟨rfl, n, hn, hrest⟩ := hs
    cases ys with
    | nil => cases hs'
    | cons z ys =>
      obtain ⟨b, y⟩ := z
      obtain ⟨hb, n', hn', hrest'⟩ := hs'
      cases hb
      cases hn.symm.trans hn'
      rw [ih hrest hrest']

/-- A chain has no cell twice: from there on it would never end. -/
theorem Chain.nodup (hs : h.Chain p xs) : (xs.map Prod.fst).Nodup := by
  induction xs generalizing p with
  | nil => exact List.nodup_nil
  | cons y xs ih =>
    obtain ⟨a, x⟩ := y
    have hfirst := hs
    obtain ⟨rfl, n, hn, hrest⟩ := hs
    refine List.nodup_cons.2 ⟨fun hmem => ?_, ih hrest⟩
    obtain ⟨⟨b, z⟩, hz, rfl⟩ := List.mem_map.1 hmem
    obtain ⟨pre, post, rfl⟩ := List.append_of_mem hz
    obtain ⟨r, _, hagain⟩ := segment_append.1 hrest
    obtain rfl := hagain.1
    have hlength := congrArg List.length (Chain.unique hfirst hagain)
    simp only [List.length_cons, List.length_append] at hlength
    omega

/-- A loop along a chain takes no more steps than there are addresses. -/
theorem Chain.length_le (hs : h.Chain p xs) : xs.length ≤ h.brk := by
  have hsub : xs.map Prod.fst ⊆ List.range h.brk := by
    intro a ha
    obtain ⟨y, hy, rfl⟩ := List.mem_map.1 ha
    obtain ⟨n, hn⟩ := hs.cell hy
    exact List.mem_range.2 (lt_brk hn)
  have := (hs.nodup.subperm hsub).length_le
  rwa [List.length_map, List.length_range] at this

/-- A new pointer in the last cell of a segment. -/
theorem Segment.relink (hs : h.Segment p (xs ++ [(a, x)]) q) (ha : a ∉ xs.map Prod.fst)
    (r : Option Nat) :
    (h.modify a fun c => { c with next := r }).Segment p (xs ++ [(a, x)]) r := by
  obtain ⟨_, hxs, rfl, n, hn, _⟩ := segment_append.1 hs
  refine segment_append.2 ⟨some a, hxs.modify ha _, rfl, r, ?_, rfl⟩
  rw [cell_modify, if_pos rfl, hn]
  rfl

/-- A new datum in a cell of a segment. -/
theorem Segment.assign (hs : h.Segment p (xs ++ (a, x) :: ys) q) (ha : a ∉ xs.map Prod.fst)
    (ha' : a ∉ ys.map Prod.fst) (f : α → α) :
    (h.modify a fun c => { c with data := f c.data }).Segment p (xs ++ (a, f x) :: ys) q := by
  obtain ⟨_, hxs, rfl, n, hn, hys⟩ := segment_append.1 hs
  refine segment_append.2 ⟨some a, hxs.modify ha _, rfl, n, ?_, hys.modify ha' _⟩
  rw [cell_modify, if_pos rfl, hn]
  rfl

end Heap

/-! ## Loops along a chain -/

/-- The last cell of a chain: `while (ptr->next != NULL) ptr = ptr->next`. -/
def tail : Nat → Nat → Prog Fault (Memory α τ) Nat
  | 0, _ => throw .endless
  | fuel + 1, a => do
    match (← load (some a)).next with
    | none => pure a
    | some b => tail fuel b

/-- Free the cells of a chain, after a look at each. -/
def drain (visit : α → τ → τ) : Nat → Option Nat → Prog Fault (Memory α τ) Unit
  | 0, _ => throw .endless
  | _ + 1, none => pure ()
  | fuel + 1, some a => do
    let c ← load (some a)
    modify fun m => { m with rest := visit c.data m.rest }
    free a
    drain visit fuel c.next

section

variable {h : Heap α} {r : τ} {p : Option Nat} {xs : List (Nat × α)}

theorem tail_run {fuel a₀ a : Nat} {x : α} (hs : h.Chain (some a₀) (xs ++ [(a, x)]))
    (hfuel : xs.length < fuel) : tail fuel a₀ (⟨h, r⟩ : Memory α τ) = .ok (a, ⟨h, r⟩) := by
  induction xs generalizing fuel a₀ with
  | nil =>
    obtain ⟨fuel, rfl⟩ := Nat.exists_eq_add_one.2 (Nat.zero_lt_of_lt hfuel)
    obtain ⟨ha, n, hn, rfl⟩ := hs
    cases ha
    rw [tail, bind_run_ok (load_run hn)]
    rfl
  | cons y xs ih =>
    obtain ⟨b, y⟩ := y
    obtain ⟨fuel, rfl⟩ := Nat.exists_eq_add_one.2 (Nat.zero_lt_of_lt hfuel)
    obtain ⟨hb, n, hn, hrest⟩ := hs
    cases hb
    rw [tail, bind_run_ok (load_run hn)]
    cases n with
    | none => cases xs <;> cases hrest.1
    | some b' => exact ih hrest (by simpa using hfuel)

/-- Each cell of the chain is freed once, and nothing else. -/
theorem drain_run (visit : α → τ → τ) {fuel : Nat} (hs : h.Chain p xs) (hfuel : xs.length < fuel) :
    drain visit fuel p (⟨h, r⟩ : Memory α τ) =
      .ok ((), ⟨h.erase (xs.map Prod.fst), xs.foldl (fun r x => visit x.2 r) r⟩) := by
  induction xs generalizing fuel p h r with
  | nil =>
    obtain ⟨fuel, rfl⟩ := Nat.exists_eq_add_one.2 (Nat.zero_lt_of_lt hfuel)
    obtain rfl := hs
    rw [List.map_nil, Heap.erase_nil]
    rfl
  | cons y xs ih =>
    obtain ⟨a, x⟩ := y
    obtain ⟨fuel, rfl⟩ := Nat.exists_eq_add_one.2 (Nat.zero_lt_of_lt hfuel)
    have hnodup := List.nodup_cons.1 hs.nodup
    obtain ⟨rfl, n, hn, hrest⟩ := hs
    have hframe : (h.erase [a]).Chain n xs :=
      hrest.erase (List.forall_mem_singleton.2 hnodup.1)
    rw [drain, bind_run_ok (load_run hn), bind_run_ok (modify_run ..), bind_run_ok (free_run hn),
      ih hframe (by simpa using hfuel), Heap.erase_erase]
    rfl

end

end Linked
