import Mathlib.Algebra.Group.Nat.Defs
import Mathlib.Data.List.Basic
import Mathlib.Data.List.TakeWhile

/-!
# Fields in a buffer

A program that gets a buffer from outside reads numbers and strings at fixed places of
it. Numbers are little-endian; strings end with a zero byte. Reading beyond the end of
the buffer gives nothing.

## Key results

- `fieldAt_append`: a number is read as it was written
- `cstringAt_append`: a string is read as it was written
-/

namespace Layout

/-- The `width` little-endian bytes of a number. -/
def leBytes : Nat → Nat → List UInt8
  | 0, _ => []
  | width + 1, n => UInt8.ofNat (n % 256) :: leBytes width (n / 256)

/-- The number of these little-endian bytes. -/
def leValue : List UInt8 → Nat
  | [] => 0
  | b :: bs => b.toNat + 256 * leValue bs

/-- The number of `width` bytes at `i`. -/
def fieldAt (buffer : List UInt8) (i width : Nat) : Option Nat :=
  if i + width ≤ buffer.length then some (leValue ((buffer.drop i).take width)) else none

/-- The string at `i`, up to the next zero byte. -/
def cstringAt (buffer : List UInt8) (i : Nat) : Option (List UInt8) :=
  if 0 ∈ buffer.drop i then some ((buffer.drop i).takeWhile (· ≠ 0)) else none

@[simp] theorem length_leBytes (width n : Nat) : (leBytes width n).length = width := by
  induction width generalizing n with
  | zero => rfl
  | succ width ih => exact congrArg (· + 1) (ih _)

theorem leValue_leBytes {width n : Nat} (hn : n < 256 ^ width) :
    leValue (leBytes width n) = n := by
  induction width generalizing n with
  | zero => exact (Nat.lt_one_iff.1 hn).symm
  | succ width ih =>
    have hrest : n / 256 < 256 ^ width := by
      rw [Nat.div_lt_iff_lt_mul (by decide), ← Nat.pow_succ]
      exact hn
    rw [leBytes, leValue, ih hrest, UInt8.toNat_ofNat_of_lt' (Nat.mod_lt _ (by decide))]
    exact Nat.mod_add_div n 256

/-- A number is read as it was written. -/
theorem fieldAt_append (width n : Nat) (hn : n < 256 ^ width) (pre post : List UInt8) {i : Nat}
    (hi : i = pre.length) : fieldAt (pre ++ (leBytes width n ++ post)) i width = some n := by
  unfold fieldAt
  rw [if_pos (by simp [hi]), hi, List.drop_left, List.take_left' (length_leBytes width n),
    leValue_leBytes hn]

/-- A string is read as it was written. -/
theorem cstringAt_append {name : List UInt8} {i : Nat} (hname : 0 ∉ name) (pre post : List UInt8)
    (hi : i = pre.length) : cstringAt (pre ++ (name ++ 0 :: post)) i = some name := by
  have hall : ∀ b ∈ name, decide (b ≠ 0) = true := by
    intro b hb
    exact decide_eq_true fun hzero => hname (hzero ▸ hb)
  unfold cstringAt
  rw [hi, List.drop_left, if_pos (by simp), List.takeWhile_append_of_pos hall]
  simp

end Layout
