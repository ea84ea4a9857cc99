import Mathlib.Data.List.Nodup

/-!
# Lists with one iterator

A list that hands out its elements through an iterator of its own: `first` and
`next` move it to the next element of a kind, and when an element is removed on
which it stands, it moves on to the one behind. A loop over the elements may
remove the one that it has if it has asked for the next before (`sweep`).

## Key results

- `sweep_first`: such a loop removes the elements that it is to remove, and no other
-/

universe u

variable {α : Type u} [DecidableEq α]

/-- The elements of a list behind one of them. -/
def behind (x : α) (l : List α) : List α := (l.dropWhile (· ≠ x)).tail

theorem behind_append {x : α} {pre : List α} (h : x ∉ pre) (post : List α) :
    behind x (pre ++ x :: post) = post := by
  have hpre : ∀ y ∈ pre, decide (y ≠ x) = true := fun y hy =>
    decide_eq_true fun hyx => h (hyx ▸ hy)
  rw [behind, List.dropWhile_append_of_pos hpre, List.dropWhile_cons, if_neg (by simp),
    List.tail_cons]

/-- A list and the element that its iterator stands on. -/
structure Cursor (α : Type u) where
  items : List α
  iterator : Option α

namespace Cursor

/-- Move to the first element of a kind. -/
def first (kind : α → Bool) (c : Cursor α) : Option α × Cursor α :=
  let found := c.items.find? kind
  (found, { c with iterator := found })

/-- Move to the next element of a kind. -/
def next (kind : α → Bool) (c : Cursor α) : Option α × Cursor α :=
  match c.iterator with
  | none => (none, c)
  | some x =>
    let found := (behind x c.items).find? kind
    (found, { c with iterator := found })

/-- Remove an element. -/
def remove (x : α) (c : Cursor α) : Cursor α where
  items := c.items.erase x
  iterator := if c.iterator = some x then (behind x c.items).head? else c.iterator

/-- A loop over the elements of a kind from one of them on, for at most this many tests of its
    condition: the next one is asked for before the one at hand is removed. -/
def sweep (kind removes : α → Bool) : Nat → Option α → Cursor α → Option (Cursor α)
  | 0, _, _ => none
  | _ + 1, none, c => some c
  | fuel + 1, some x, c =>
    let (found, c) := c.next kind
    sweep kind removes fuel found (if removes x then c.remove x else c)

variable {kind removes : α → Bool}

theorem next_append {x : α} {pre : List α} (h : x ∉ pre) (post : List α) :
    next kind ⟨pre ++ x :: post, some x⟩ =
      (post.find? kind, ⟨pre ++ x :: post, post.find? kind⟩) := by
  simp only [next, behind_append h]

/-- Removing an element in front of the iterator does not move it. -/
theorem remove_append {x : α} {pre post : List α} (h : (pre ++ x :: post).Nodup) :
    remove x ⟨pre ++ x :: post, post.find? kind⟩ = ⟨pre ++ post, post.find? kind⟩ := by
  have hx : x ∉ pre ++ post := (List.nodup_middle.1 h).notMem
  rw [List.mem_append, not_or] at hx
  have hfound : post.find? kind ≠ some x := fun hfound => hx.2 (List.mem_of_find?_eq_some hfound)
  simp only [remove, if_neg hfound, List.erase_append_right _ hx.1, List.erase_cons_head]

/-- From the elements in front of the iterator nothing is removed any more. -/
theorem sweep_run {fuel : Nat} {pre rest : List α} (h : (pre ++ rest).Nodup)
    (hfuel : (rest.filter kind).length < fuel) :
    sweep kind removes fuel (rest.find? kind) ⟨pre ++ rest, rest.find? kind⟩ =
      some ⟨pre ++ rest.filter (fun x => !(kind x && removes x)), none⟩ := by
  -- Induction on the tests; each round leaves behind the elements up to the next of the kind.
  induction fuel generalizing pre rest with
  | zero => omega
  | succ fuel ih =>
    cases hfind : rest.find? kind with
    | none =>
      have hkept : rest.filter (fun x => !(kind x && removes x)) = rest := by
        refine List.filter_eq_self.2 fun x hx => ?_
        rw [Bool.eq_false_iff.2 (List.find?_eq_none.1 hfind x hx)]
        rfl
      rw [sweep, hkept]
    | some x =>
      obtain ⟨hkind, mid, post, rfl, hmid⟩ := List.find?_eq_some_iff_append.1 hfind
      rw [← List.append_assoc] at h
      have hx : x ∉ pre ++ mid := fun hx =>
        (List.nodup_middle.1 h).notMem (List.mem_append_left _ hx)
      have hkept : mid.filter (fun x => !(kind x && removes x)) = mid :=
        List.filter_eq_self.2 fun y hy => by simp [(Bool.not_eq_true' (kind y)).mp (hmid y hy)]
      have hless : (post.filter kind).length < fuel := by
        rw [List.filter_append, List.filter_cons_of_pos hkind, List.length_append,
          List.length_cons] at hfuel
        omega
      rw [sweep, ← List.append_assoc, next_append hx, List.filter_append, hkept, List.filter_cons]
      simp only
      cases hremoves : removes x with
      | true =>
        have hpost : (pre ++ mid ++ post).Nodup := (List.nodup_middle.1 h).of_cons
        rw [if_pos rfl, remove_append h, ih hpost hless, hkind]
        simp
      | false =>
        have hcons : pre ++ mid ++ x :: post = pre ++ mid ++ [x] ++ post := List.append_cons ..
        rw [hcons] at h
        rw [if_neg Bool.false_ne_true, hcons, ih h hless, Bool.and_false]
        simp

/-- The loop over all elements of a kind ends, and removes those that it is to remove. -/
theorem sweep_first {fuel : Nat} {c : Cursor α} (h : c.items.Nodup)
    (hfuel : (c.items.filter kind).length < fuel) :
    sweep kind removes fuel (c.first kind).1 (c.first kind).2 =
      some ⟨c.items.filter (fun x => !(kind x && removes x)), none⟩ := by
  -- Nothing is in front of the first element.
  have hrun : sweep kind removes fuel (c.items.find? kind) ⟨[] ++ c.items, c.items.find? kind⟩ = _ :=
    sweep_run h hfuel
  exact hrun

end Cursor
