import Mathlib.Data.List.TakeWhile
import Agendafs.Spec.XattrCalls

/-!
# Which bytes of a value setxattr reads

The value of `fuse_setxattr` has a size and no NUL at its end. Only the categories are
copied with the size; the length is taken, and every other attribute is compared or
stored, up to the first NUL of the memory, wherever it is.

## Key results

- `fuseSetxattr_congr`: what two values must have in common for the same run
- `setxattrSeen_iff`: for which values the bytes behind the size do not matter
-/

namespace Agendafs

open Icalcomponent Store

variable {Text : Type} {cfg : Config Text} {path attrib : CStr} {s flags : Nat}
  {v x y : List UInt8}

/-- What can be seen of setting an attribute: the status, and the notes afterwards. -/
def setxattrSeen (cfg : Config Text) (w : World Text) (path attrib : CStr) (value : List UInt8)
    (s flags : Nat) : Except Crash (Int × (NodeId → Option Icalcomponent)) :=
  (fuseSetxattr cfg path attrib value s flags w).map fun r => (r.1, r.2.component cfg)

/-- The text and the first `s` bytes are all that is read of a value. -/
theorem fuseSetxattr_congr (hstring : cString x = cString y) (htake : x.take s = y.take s) :
    fuseSetxattr cfg path attrib x s flags = fuseSetxattr cfg path attrib y s flags := by
  unfold fuseSetxattr setNodeCategories withCategories
  rw [hstring, htake]

/-! ## The text of a value -/

theorem cString_append_of_mem (h : (0 : UInt8) ∈ v) (rest : List UInt8) :
    cString (v ++ rest) = cString v := by
  unfold cString
  rw [List.takeWhile_append, if_neg]
  intro hlength
  have hself := (List.takeWhile_prefix (decide <| · ≠ (0 : UInt8))).eq_of_length hlength
  exact of_decide_eq_true (List.takeWhile_eq_self_iff.1 hself 0 h) rfl

theorem cString_append_of_not_mem (h : (0 : UInt8) ∉ v) (rest : List UInt8) :
    cString (v ++ rest) = v ++ cString rest :=
  List.takeWhile_append_of_pos fun b hb => decide_eq_true fun hb' : b = 0 => h (hb' ▸ hb)

/-- A buffer that begins with a value without NUL has a text at least as long. -/
theorem le_length_cString (hv : x.take v.length = v) (h : (0 : UInt8) ∉ v) :
    v.length ≤ (cString x).length := by
  rw [← List.take_append_drop v.length x, hv, cString_append_of_not_mem h, List.length_append]
  exact Nat.le_add_right _ _

/-- A buffer that begins with a value that has a NUL has the text of the value. -/
theorem cString_of_take (hv : x.take v.length = v) (h : (0 : UInt8) ∈ v) :
    cString x = cString v := by
  rw [← List.take_append_drop v.length x, hv, cString_append_of_mem h]

/-! ## The status of a value that is not too long -/

/-- What holds of every end of the second part holds of a sequence. -/
theorem wp_bind_forall {α β : Type} {m : FsM Text α} {m' : α → FsM Text β}
    {Q : β → World Text → Prop} {w : World Text}
    (h : ∀ a w', Prog.wp (m' a) Q (fun _ => True) w') :
    Prog.wp (m >>= m') Q (fun _ => True) w :=
  (Prog.wp_bind ..).2 (Prog.wp_of_forall_ok fun a w' _ => h a w')

/-- Writing a file gives 0 or `- EIO`. -/
theorem wp_written (cfg : Config Text) (w : World Text) (n : NodeId) (ic : Icalcomponent) :
    Prog.wp (writeIcalFile cfg n ic >>= fun r => pure (intOfSize r.1))
      (fun status _ => status ≠ -EMSGSIZE) (fun _ => True) w := by
  unfold writeIcalFile
  simp only [bind_assoc]
  refine wp_bind_forall fun now w₁ => wp_bind_forall fun filepath w₂ => ?_
  rw [Prog.wp_bind_ok (writeToFile_run _ _), Prog.wp_bind_ok (Prog.pure_run _ _),
    Prog.wp_of_ok (Prog.pure_run _ _), (intOfSize_sizeOfInt_status w₂.outcome).1,
    (intOfSize_sizeOfInt_status w₂.outcome).2]
  cases w₂.outcome <;> simp only [WriteOutcome.status] <;> decide

theorem wp_writtenNull (cfg : Config Text) (w : World Text) (n : NodeId) :
    Prog.wp (writeNullIcalFile cfg n >>= fun res => pure (intOfSize res))
      (fun status _ => status ≠ -EMSGSIZE) (fun _ => True) w := by
  unfold writeNullIcalFile
  simp only [bind_assoc]
  refine wp_bind_forall fun now w₁ => wp_bind_forall fun filepath w₂ => ?_
  have hwrite := writeNullToFile_run (w := w₂) filepath
  cases ho : w₂.outcome with
  | openFailed =>
    rw [ho] at hwrite
    rw [Prog.wp_bind_ok hwrite]
    exact (by decide : intOfSize (sizeOfInt (intOfSize (sizeOfInt (- EIO)))) ≠ -EMSGSIZE)
  | writeFailed left =>
    rw [ho] at hwrite
    rw [Prog.wp_bind_error hwrite]
    trivial
  | written =>
    rw [ho] at hwrite
    rw [Prog.wp_bind_error hwrite]
    trivial

/-- The status for a name or a value that is too long comes from nowhere else. -/
theorem editXattrAt_ne_emsgsize (cfg : Config Text) (w : World Text) (path attrib : CStr)
    (edit : Option (Icalcomponent → Icalcomponent)) {refusal : Int} (h : refusal ≠ -EMSGSIZE) :
    Prog.wp (editXattrAt cfg path attrib edit refusal) (fun status _ => status ≠ -EMSGSIZE)
      (fun _ => True) w := by
  unfold editXattrAt
  refine wp_bind_forall fun found w₁ => ?_
  cases found with
  | none => exact (by decide : (-ENONET : Int) ≠ -EMSGSIZE)
  | some n =>
    cases edit with
    | none => exact h
    | some f =>
      simp only
      unfold editXattr editNode editNodeUnchecked editNodeAsserted
      split
      -- Every status is 0, `-EIO` or a refusal.
      · refine wp_bind_forall fun o w₂ => ?_
        cases o with
        | none => exact (by decide : (0 : Int) ≠ -EMSGSIZE)
        | some c => exact wp_written cfg w₂ n _
      · split
        · refine wp_bind_forall fun o w₂ => ?_
          cases o with
          | none => exact wp_writtenNull cfg w₂ n
          | some c => exact wp_written cfg w₂ n _
        · refine wp_bind_forall fun o w₂ => ?_
          cases o with
          | none => trivial
          | some c => exact wp_written cfg w₂ n _

/-! ## The bytes behind the size -/

/-- The bytes behind the size make no difference exactly if the value has a NUL of its own, or is
    refused for its length or for that of the name. -/
theorem setxattrSeen_iff (cfg : Config Text) (w : World Text) (path attrib : CStr)
    (s flags : Nat) {v : List UInt8} (hv : v.length = s) :
    (∀ x y : List UInt8, x.take s = v → y.take s = v →
      setxattrSeen cfg w path attrib x s flags = setxattrSeen cfg w path attrib y s flags) ↔
      (0 : UInt8) ∈ v ∨ 256 ≤ attrib.length ∨ 64 * 1024 ≤ s := by
  subst hv
  constructor
  · intro hall
    by_contra hcond
    obtain ⟨hnul, hshort⟩ := not_or.1 hcond
    obtain ⟨hattrib, hsize⟩ := not_or.1 hshort
    -- The value may end at its size, or go on for longer than is allowed.
    have htake : ∀ rest, (v ++ rest).take v.length = v := fun rest => List.take_left
    have hsame := hall (v ++ [0]) (v ++ (List.replicate (64 * 1024) 1 ++ [0])) (htake _) (htake _)
    have hstring : (cString (v ++ [0])).length < 64 * 1024 := by
      rw [cString_append_of_not_mem hnul]
      simpa [cString] using hsize
    have hlong : 64 * 1024 ≤ (cString (v ++ (List.replicate (64 * 1024) 1 ++ [0]))).length := by
      have hones : (0 : UInt8) ∉ List.replicate (64 * 1024) 1 := fun hmem =>
        absurd (List.eq_of_mem_replicate hmem) (by decide)
      rw [cString_append_of_not_mem hnul, cString_append_of_not_mem hones, List.length_append,
        List.length_append, List.length_replicate]
      omega
    unfold setxattrSeen at hsame
    rw [fuseSetxattr_tooLong (.inr hlong), Prog.pure_run,
      fuseSetxattr_eq (not_or.2 ⟨hattrib, Nat.not_le.2 hstring⟩)] at hsame
    have hrefusal : setxattrRefusal attrib ≠ -EMSGSIZE := by
      unfold setxattrRefusal
      split <;> decide
    have hstatus := editXattrAt_ne_emsgsize cfg w path attrib
      (setxattrEdit cfg attrib (v ++ [0]) v.length) hrefusal
    cases hrun : editXattrAt cfg path attrib (setxattrEdit cfg attrib (v ++ [0]) v.length)
        (setxattrRefusal attrib) w with
    | error crash =>
      rw [hrun] at hsame
      cases hsame
    | ok r =>
      rw [hrun] at hsame
      exact hstatus.ok hrun (congrArg Prod.fst (Except.ok.inj hsame))
  · intro hcond x y hx hy
    unfold setxattrSeen
    by_cases hnul : (0 : UInt8) ∈ v
    · rw [fuseSetxattr_congr ((cString_of_take hx hnul).trans (cString_of_take hy hnul).symm)
        (hx.trans hy.symm)]
    · have htooLong : ∀ z : List UInt8, z.take v.length = v →
          256 ≤ attrib.length ∨ 64 * 1024 ≤ (cString z).length := fun z hz =>
        (hcond.resolve_left hnul).imp_right fun hsize => hsize.trans (le_length_cString hz hnul)
      rw [fuseSetxattr_tooLong (htooLong x hx), fuseSetxattr_tooLong (htooLong y hy)]

/-- A value that ends with a NUL. -/
theorem setxattrSeen_iff_terminated :
    setxattrSeen sampleConfig (sampleMount nestedNote {}) (bytes "/Dir/Note.txt")
        (bytes "user.x") (bytes "v" ++ [0, 1]) 2 0 =
      setxattrSeen sampleConfig (sampleMount nestedNote {}) (bytes "/Dir/Note.txt")
        (bytes "user.x") (bytes "v" ++ [0, 2]) 2 0 :=
  (setxattrSeen_iff sampleConfig (sampleMount nestedNote {}) (bytes "/Dir/Note.txt")
    (bytes "user.x") 2 0 (v := bytes "v" ++ [0]) (by decide)).2 (.inl (by decide)) _ _ (by decide)
    (by decide)

/-- The byte behind a value of one byte is stored. -/
theorem not_all_values_end_at_their_size :
    ¬ ∀ (w : World Icalcomponent) (path attrib : CStr) (s flags : Nat) (x y : List UInt8),
      Reachable sampleConfig w → s ≤ x.length → s ≤ y.length → (0 : UInt8) ∈ x →
      (0 : UInt8) ∈ y → x.take s = y.take s →
        setxattrSeen sampleConfig w path attrib x s flags =
          setxattrSeen sampleConfig w path attrib y s flags := by
  intro hall
  have hsame := hall _ (bytes "/Dir/Note.txt") (bytes "user.x") 1 0 (bytes "v" ++ [0])
    (bytes "vw" ++ [0]) reachable_nestedNote (by decide) (by decide) (by decide) (by decide)
    (by decide)
  -- What is stored is the C string, whatever the size is.
  have hstored : ∀ value, (fuseSetxattr sampleConfig (bytes "/Dir/Note.txt") (bytes "user.x")
      (value ++ [0]) 1 0).check (sampleMount nestedNote {}) (fun _ w' => decide
        ((w'.component sampleConfig 2).bind (xattrOf sampleConfig · (bytes "user.x")) =
          some value)) = true →
      (setxattrSeen sampleConfig (sampleMount nestedNote {}) (bytes "/Dir/Note.txt")
        (bytes "user.x") (value ++ [0]) 1 0).map (fun r =>
          (r.2 2).bind (xattrOf sampleConfig · (bytes "user.x"))) = .ok (some value) := by
    intro value hcheck
    obtain ⟨status, hrun, hvalue⟩ := Prog.run_of_check hcheck
    unfold setxattrSeen
    rw [hrun]
    exact congrArg Except.ok (of_decide_eq_true hvalue)
  have hv := hstored (bytes "v") (by decide +kernel)
  have hvw := hstored (bytes "vw") (by decide +kernel)
  rw [hsame, hvw] at hv
  exact absurd (Except.ok.inj hv) (by decide)

end Agendafs
