import Agendafs.Spec.ReadsAndWrites

/-!
# The calls for extended attributes

What the four calls for extended attributes do, said once for each call over the
component of the note: the value an attribute has, the names that are listed and
the edits that are written. The protocols that `getxattr(2)` and `listxattr(2)`
ask for are then facts about copying a value into the caller's buffer.

## Key results

- `fuseGetxattr_run`, `fuseListxattr_run`: the calls as functions of the component
- `getxattr_protocol_iff`: for which sizes the value is handed over as it should be
-/

namespace Agendafs

open Icalcomponent Store

variable {Text : Type} {cfg : Config Text} {w w' : World Text} {c : Icalcomponent}
  {path attrib : CStr} {n : NodeId} {k : CStr}

/-! ## The attributes of a component -/

/-- The categories that `get_node_categories` finds. -/
def categoriesOf (c : Icalcomponent) : CStr := joinCategories (c.getInner.elim [] (·.properties))

/-- The class that `get_node_class` finds. -/
def classOf (c : Icalcomponent) : Option CStr :=
  (c.getInner.bind (·.getFirstProperty .classification)).bind
    fun classp => formatIcalClass (icalpropertyGetClass classp)

/-- The status that `get_node_status` finds. -/
def statusOf (c : Icalcomponent) : Option CStr :=
  (c.getInner.bind (·.getFirstProperty .status)).bind
    fun statusp => formatIcalStatus (icalpropertyGetStatus statusp)

/-- The start that `get_dtstart` finds. -/
def dtstartOf (cfg : Config Text) (c : Icalcomponent) : Option CStr :=
  (c.getText .dtstart).bind cfg.ical.timeFromString

/-- The value of an attribute, for a component that has it. -/
def xattrOf (cfg : Config Text) (c : Icalcomponent) (attrib : CStr) : Option CStr :=
  if attrib = bytes "user.categories" then if categoriesOf c = [] then none else some (categoriesOf c)
  else if attrib = bytes "user.uid" then c.getUid
  else if attrib = bytes "user.class" then classOf c
  else if attrib = bytes "user.status" then statusOf c
  else if attrib = bytes "user.dtstart" then dtstartOf cfg c
  else if startsWithStr attrib (bytes "user.") then
    icalcomponentGetCustomXValue cfg.ical c (attrib.drop 5)
  else none

theorem classOf_ne_nil : classOf c ≠ some [] := by
  intro h
  obtain ⟨p, _, hp⟩ := Option.bind_eq_some_iff.1 h
  revert hp
  cases icalpropertyGetClass p <;> decide

theorem statusOf_ne_nil : statusOf c ≠ some [] := by
  intro h
  obtain ⟨p, _, hp⟩ := Option.bind_eq_some_iff.1 h
  revert hp
  cases icalpropertyGetStatus p <;> decide

/-- What `fuse_getxattr` gives for the component of a node. A missing UID fails an assertion. -/
def getxattrResult (cfg : Config Text) (component : Option Icalcomponent) (attrib : CStr)
    (buf : List UInt8) (s : Nat) : Except Crash (Int × List UInt8) :=
  match component.bind (xattrOf cfg · attrib) with
  | some value => .ok (handValue value buf s)
  | none => if attrib = bytes "user.uid" then .error .assertFailed else .ok (-ENODATA, buf)

theorem getxattrResult_of_some {o : Option Icalcomponent} {value : CStr}
    (h : o.bind (xattrOf cfg · attrib) = some value) (buf : List UInt8) (s : Nat) :
    getxattrResult cfg o attrib buf s = .ok (handValue value buf s) := by
  unfold getxattrResult
  rw [h]

/-- Without a value nothing is written to the buffer. -/
theorem getxattrResult_of_none {o : Option Icalcomponent}
    (h : o.bind (xattrOf cfg · attrib) = none) {buf : List UInt8} {s : Nat}
    {r : Int × List UInt8} (hr : getxattrResult cfg o attrib buf s = .ok r) : r.2 = buf := by
  unfold getxattrResult at hr
  rw [h] at hr
  simp only at hr
  split at hr
  · cases hr
  · cases hr
    rfl

/-! ## Reading an attribute -/

/-- The node that a path leads to can be read: it is the root, or its file opens. -/
structure World.ReadsAt (cfg : Config Text) (w : World Text) (path : CStr) (n : NodeId) :
    Prop where
  segments : (splitPath path).length ≤ 255
  found : w.store.lookup path = some n
  opens : ∀ e, w.store.entry n = some e → w.Readable cfg e.filenameVdir

theorem World.OpensAt.entry (h : w.OpensAt cfg path n k) :
    ∃ e, w.store.entry n = some e ∧ e.filenameVdir = k := Option.map_eq_some_iff.1 h.file

theorem World.OpensAt.component (h : w.OpensAt cfg path n k) :
    w.component cfg n = w.fileComponent cfg k := by
  obtain ⟨e, he, rfl⟩ := h.entry
  exact component_of_entry he

theorem World.OpensAt.readsAt (h : w.OpensAt cfg path n k) : w.ReadsAt cfg path n where
  segments := h.segments
  found := h.found
  opens e he := by
    have hfile := h.file
    rw [he, Option.map_some, Option.some.injEq] at hfile
    rw [hfile]
    exact h.readable

section Getters

variable (h : w.store.Inv) (hn : w.ReadsAt cfg path n)

include h hn

theorem getIcalcomponentFromNode_readsAt :
    getIcalcomponentFromNode cfg n w = .ok (w.component cfg n, w) :=
  getIcalcomponentFromNode_opens (h.live_of_lookup hn.found) hn.opens

theorem getNodeCategories_run :
    getNodeCategories cfg n w = .ok ((w.component cfg n).map categoriesOf, w) := by
  unfold getNodeCategories
  rw [Prog.bind_run_ok (getIcalcomponentFromNode_readsAt h hn)]
  cases w.component cfg n <;> rfl

theorem getNodeClass_run :
    getNodeClass cfg n w = .ok ((w.component cfg n).bind classOf, w) := by
  unfold getNodeClass
  rw [Prog.bind_run_ok (getIcalcomponentFromNode_readsAt h hn)]
  cases w.component cfg n <;> rfl

theorem getNodeStatus_run :
    getNodeStatus cfg n w = .ok ((w.component cfg n).bind statusOf, w) := by
  unfold getNodeStatus
  rw [Prog.bind_run_ok (getIcalcomponentFromNode_readsAt h hn)]
  cases w.component cfg n <;> rfl

theorem getDtstart_run :
    getDtstart cfg n w = .ok ((w.component cfg n).bind (dtstartOf cfg), w) := by
  unfold getDtstart
  rw [Prog.bind_run_ok (getIcalcomponentFromNode_readsAt h hn)]
  cases w.component cfg n <;> rfl

/-- `fuse_getxattr` hands over the value that the component of the node has. -/
theorem fuseGetxattr_run (attrib : CStr) (buf : List UInt8) (s : Nat) :
    fuseGetxattr cfg path attrib buf s w =
      (getxattrResult cfg (w.component cfg n) attrib buf s).map (·, w) := by
  have hnode := getNodeByPath_found h hn.segments
  rw [hn.found] at hnode
  unfold fuseGetxattr getxattrResult xattrOf
  rw [Prog.bind_run_ok hnode]
  simp only
  split
  · rename_i hattrib
    rw [Prog.bind_run_ok (getNodeCategories_run h hn)]
    cases w.component cfg n with
    | none => rw [hattrib]; rfl
    | some c =>
      simp only [Option.map_some, Option.bind_some]
      by_cases hcats : categoriesOf c = []
      · simp only [if_pos hcats, hattrib]
        rfl
      · simp only [if_neg hcats]
        rfl
  split
  · rename_i hattrib
    rw [Prog.bind_run_ok (getIcalcomponentFromNode_readsAt h hn)]
    cases (w.component cfg n).bind (·.getUid) <;> rfl
  split
  -- The callers test for an empty text, which the formatters never give.
  · rw [Prog.bind_run_ok (getNodeClass_run h hn)]
    cases hclass : (w.component cfg n).bind classOf with
    | none => rfl
    | some value =>
      have hvalue : value ≠ [] := fun hnil => by
        obtain ⟨c, _, hc⟩ := Option.bind_eq_some_iff.1 hclass
        exact classOf_ne_nil (hnil ▸ hc)
      simp only [if_neg hvalue]
      rfl
  split
  · rw [Prog.bind_run_ok (getNodeStatus_run h hn)]
    cases hstatus : (w.component cfg n).bind statusOf with
    | none => rfl
    | some value =>
      have hvalue : value ≠ [] := fun hnil => by
        obtain ⟨c, _, hc⟩ := Option.bind_eq_some_iff.1 hstatus
        exact statusOf_ne_nil (hnil ▸ hc)
      simp only [if_neg hvalue]
      rfl
  split
  · rw [Prog.bind_run_ok (getDtstart_run h hn)]
    cases (w.component cfg n).bind (dtstartOf cfg) <;> rfl
  split
  · rw [Prog.bind_run_ok (getIcalcomponentFromNode_readsAt h hn)]
    cases (w.component cfg n).bind (icalcomponentGetCustomXValue cfg.ical · (attrib.drop 5)) <;> rfl
  · cases w.component cfg n <;> rfl

end Getters

/-! ## The protocol of getxattr -/

/-- What `getxattr(2)` asks for: the size 0 asks for the length, a size that is large enough gets
    the value, and a size that is too small gets `- ERANGE` and no byte behind the buffer. -/
structure GetxattrProtocol (value : CStr) (s : Nat) (buf : List UInt8) (r : Int × List UInt8) :
    Prop where
  asks : s = 0 → r.1 = value.length ∧ r.2 = buf
  fits : value.length ≤ s → r.1 = value.length ∧ r.2.take value.length = value
  short : 0 < s → s < value.length → r.1 = - ERANGE ∧ r.2.drop s = buf.drop s

theorem snprintf_of_lt {buf : List UInt8} {s : Nat} {value : CStr} (h : value.length < s) :
    snprintf buf s value = value ++ 0 :: buf.drop (value.length + 1) := by
  have htake : value.take (s - 1) = value := List.take_of_length_le (by omega)
  have hlength : (value ++ [0]).length ≤ value.length + 1 := by simp
  unfold snprintf memcpy
  rw [htake, List.take_of_length_le hlength, List.append_assoc]
  rfl

theorem snprintf_of_le {buf : List UInt8} {s : Nat} {value : CStr} (hs : 0 < s)
    (h : s ≤ value.length) :
    snprintf buf s value = value.take (s - 1) ++ 0 :: buf.drop s := by
  have hlength : (value.take (s - 1)).length = s - 1 := by
    rw [List.length_take]
    omega
  have hlength' : (value.take (s - 1) ++ [0]).length ≤ s - 1 + 1 := by
    rw [List.length_append, hlength]
    simp
  unfold snprintf memcpy
  rw [hlength, List.take_of_length_le hlength', List.append_assoc, Nat.sub_add_cancel hs]
  rfl

theorem intOfSize_eq_iff {m : Nat} : intOfSize m = m ↔ m < 2 ^ 31 := by
  unfold intOfSize
  rw [Int.bmod_def]
  omega

theorem handValue_fst (value : CStr) (buf : List UInt8) (s : Nat) :
    (handValue value buf s).1 = intOfSize value.length := by dsimp only [handValue]

theorem handValue_snd (value : CStr) (buf : List UInt8) (s : Nat) :
    (handValue value buf s).2 = if 0 < s then snprintf buf s value else buf := by
  dsimp only [handValue]

/-- The terminating NUL is counted, so a value is cut short in a buffer of its own length. -/
theorem handValue_protocol_iff {value : CStr} (hnul : (0 : UInt8) ∉ value) (s : Nat) :
    (∀ buf, GetxattrProtocol value s buf (handValue value buf s)) ↔
      value.length < 2 ^ 31 ∧ (s = 0 ∨ value.length < s) ∨
        0 < s ∧ s < value.length ∧ intOfSize value.length = - ERANGE := by
  constructor
  · intro hall
    obtain ⟨hasks, hfits, hshort⟩ := hall []
    rw [handValue_fst] at hasks hfits hshort
    rcases Nat.eq_zero_or_pos s with hs | hs
    · exact .inl ⟨intOfSize_eq_iff.1 (hasks hs).1, .inl hs⟩
    rcases lt_trichotomy s value.length with hlt | heq | hgt
    · exact .inr ⟨hs, hlt, (hshort hs hlt).1⟩
    -- The last byte of the buffer is the NUL.
    · have hvalue := (hfits (Nat.le_of_eq heq.symm)).2
      rw [handValue_snd, if_pos hs, snprintf_of_le hs (Nat.le_of_eq heq)] at hvalue
      have hzero : (0 : UInt8) ∈ (value.take (s - 1) ++ 0 :: [].drop s).take value.length := by
        rw [List.take_append, List.length_take]
        refine List.mem_append_right _ ?_
        obtain ⟨m, hm⟩ : ∃ m, value.length - min (s - 1) value.length = m + 1 :=
          ⟨value.length - min (s - 1) value.length - 1, by omega⟩
        rw [hm, List.take_succ_cons]
        exact List.mem_cons_self
      rw [hvalue] at hzero
      exact absurd hzero hnul
    · exact .inl ⟨intOfSize_eq_iff.1 (hfits (Nat.le_of_lt hgt)).1, .inr hgt⟩
  · rintro (⟨hsize, hs⟩ | ⟨hs, hlt, hrange⟩) buf
    · have hlength := intOfSize_eq_iff.2 hsize
      refine ⟨fun hzero => ?_, fun hle => ?_, fun hpos hlt => by omega⟩
      · rw [handValue_fst, handValue_snd, if_neg (by omega)]
        exact ⟨hlength, rfl⟩
      · rw [handValue_fst, handValue_snd]
        refine ⟨hlength, ?_⟩
        rcases hs with rfl | hs
        · have hnil : value = [] := List.eq_nil_of_length_eq_zero (by omega)
          rw [hnil]
          rfl
        · rw [if_pos (by omega), snprintf_of_lt hs, List.take_left]
    -- The length of the value wraps to the error.
    · refine ⟨fun hzero => by omega, fun hle => by omega, fun _ _ => ?_⟩
      have hlength : (value.take (s - 1) ++ [0]).length = s := by
        rw [List.length_append, List.length_take, List.length_singleton]
        omega
      rw [handValue_fst, handValue_snd, if_pos hs, snprintf_of_le hs (by omega),
        ← List.singleton_append, ← List.append_assoc, List.drop_left' hlength]
      exact ⟨hrange, rfl⟩

/-- The two-call protocol is kept for an attribute and a size exactly if the value is shorter than
    the buffer or its length is asked for. -/
theorem getxattr_protocol_iff (h : Reachable cfg w) (hn : w.ReadsAt cfg path n) {value : CStr}
    (hvalue : (w.component cfg n).bind (xattrOf cfg · attrib) = some value)
    (hnul : (0 : UInt8) ∉ value) (s : Nat) :
    (∀ buf, ∃ r, fuseGetxattr cfg path attrib buf s w = .ok (r, w) ∧
      GetxattrProtocol value s buf r) ↔
      value.length < 2 ^ 31 ∧ (s = 0 ∨ value.length < s) ∨
        0 < s ∧ s < value.length ∧ intOfSize value.length = - ERANGE := by
  have hrun : ∀ buf, fuseGetxattr cfg path attrib buf s w = .ok (handValue value buf s, w) := by
    intro buf
    rw [fuseGetxattr_run h.sound.toInv hn, getxattrResult_of_some hvalue]
    rfl
  -- The result of the call is unique.
  have hkept : ∀ buf, (∃ r, fuseGetxattr cfg path attrib buf s w = .ok (r, w) ∧
      GetxattrProtocol value s buf r) ↔ GetxattrProtocol value s buf (handValue value buf s) := by
    intro buf
    rw [hrun buf]
    constructor
    · rintro ⟨r, hr, hr'⟩
      rw [Except.ok.injEq, Prod.mk.injEq] at hr
      rw [hr.1]
      exact hr'
    · exact fun hr => ⟨_, rfl, hr⟩
  exact (forall_congr' hkept).trans (handValue_protocol_iff hnul s)

/-- A mount with a note in a directory, whose UID is one byte long. -/
theorem nestedNote_readsAt :
    (sampleMount nestedNote {}).ReadsAt sampleConfig (bytes "/Dir/Note.txt") 2 where
  segments := by decide +kernel
  found := by decide +kernel
  opens e he := by
    have hentry : (sampleMount nestedNote {}).store.entry 2 =
        some ⟨bytes "Note.txt", bytes "n.ics"⟩ := by decide +kernel
    cases hentry.symm.trans he
    exact (Option.any_eq_true ..).1 (by decide +kernel)

theorem nestedNote_uid : ((sampleMount nestedNote {}).component sampleConfig 2).bind
    (xattrOf sampleConfig · (bytes "user.uid")) = some (bytes "n") := by decide +kernel

theorem getxattr_protocol_iff_nestedNote : ∃ r,
    fuseGetxattr sampleConfig (bytes "/Dir/Note.txt") (bytes "user.uid") [7, 7] 2
        (sampleMount nestedNote {}) = .ok (r, sampleMount nestedNote {}) ∧
      GetxattrProtocol (bytes "n") 2 [7, 7] r :=
  (getxattr_protocol_iff reachable_nestedNote nestedNote_readsAt nestedNote_uid (by decide) 2).2
    (.inl ⟨by decide, .inr (by decide)⟩) [7, 7]

/-- A buffer of the length that was asked for gets a NUL in place of the last byte. -/
theorem not_all_getxattr_protocol :
    ¬ ∀ (w : World Icalcomponent) (path attrib value : CStr) (n : NodeId) (s : Nat)
      (buf : List UInt8), Reachable sampleConfig w → w.ReadsAt sampleConfig path n →
      (w.component sampleConfig n).bind (xattrOf sampleConfig · attrib) = some value →
      (0 : UInt8) ∉ value → buf.length = s → value.length < 64 * 1024 →
        ∃ r, fuseGetxattr sampleConfig path attrib buf s w = .ok (r, w) ∧
          GetxattrProtocol value s buf r := by
  intro hall
  obtain ⟨r, hr, hkept⟩ := hall _ _ _ _ 2 1 [7] reachable_nestedNote nestedNote_readsAt
    nestedNote_uid (by decide) rfl (by decide)
  have hcheck : (fuseGetxattr sampleConfig (bytes "/Dir/Note.txt") (bytes "user.uid") [7] 1).check
      (sampleMount nestedNote {}) (fun r _ => decide (r.2 = [0])) = true := by decide +kernel
  rw [Prog.check_run hr] at hcheck
  have hvalue := (hkept.fits (by decide)).2
  rw [of_decide_eq_true hcheck] at hvalue
  exact absurd hvalue (by decide)

/-! ## Listing the attributes -/

/-- The names of the custom attributes of a component. -/
def customNames (c : Icalcomponent) : List CStr :=
  ((icalcomponentGetInnermost c).properties.filter fun p =>
    p.kind = .x && startsWithStr p.xName customPropertyPrefix).map fun p =>
      bytes "user." ++ p.xName.drop customPropertyPrefix.length

/-- The names that `fuse_listxattr` lists. -/
def listedXattrs (cfg : Config Text) (c : Icalcomponent) : List CStr :=
  (if categoriesOf c ≠ [] then [bytes "user.categories"] else []) ++
  (if (dtstartOf cfg c).isSome then [bytes "user.dtstart"] else []) ++
  [bytes "user.uid"] ++
  (if (classOf c).isSome then [bytes "user.class"] else []) ++
  (if (statusOf c).isSome then [bytes "user.status"] else []) ++
  customNames c

/-- The names as `listxattr(2)` hands them over, each with its NUL. -/
def nameList (names : List CStr) : List UInt8 := names.flatMap (· ++ [0])

theorem nameList_append (names more : List CStr) :
    nameList (names ++ more) = nameList names ++ nameList more := List.flatMap_append

theorem printName_eq (name : CStr) (present : Bool) :
    printName name present = nameList (if present then [name] else []) := by
  cases present with
  | false => rfl
  | true => exact (List.append_nil _).symm

theorem icalcomponentPrintXProps_eq (c : Icalcomponent) :
    icalcomponentPrintXProps c = nameList (customNames c) := by
  unfold icalcomponentPrintXProps nameList customNames
  rw [List.flatMap_map]

/-- A text that is never empty is present whenever there is one. -/
theorem any_ne_nil {o : Option CStr} (h : o ≠ some []) : o.any (· ≠ []) = o.isSome := by
  cases o with
  | none => rfl
  | some value => exact decide_eq_true fun hnil => h (congrArg some hnil)

/-- The bytes that `fuse_listxattr` prints. -/
theorem nameList_listedXattrs (cfg : Config Text) (c : Icalcomponent) :
    printName (bytes "user.categories") ((some (categoriesOf c)).any (· ≠ [])) ++
      printName (bytes "user.dtstart") (dtstartOf cfg c).isSome ++
      printName (bytes "user.uid") true ++
      printName (bytes "user.class") ((classOf c).any (· ≠ [])) ++
      printName (bytes "user.status") ((statusOf c).any (· ≠ [])) ++
      icalcomponentPrintXProps c = nameList (listedXattrs cfg c) := by
  unfold listedXattrs
  rw [any_ne_nil classOf_ne_nil, any_ne_nil statusOf_ne_nil, icalcomponentPrintXProps_eq]
  simp only [printName_eq, nameList_append, Option.any_some, decide_eq_true_eq, if_true]

/-- The number of bytes that `fuse_listxattr` copies. -/
def listCopied (size length : Nat) : Nat :=
  if size = 0 then 0 else if size < length then length else size

theorem listCopied_self (n : Nat) : listCopied n n = n := by
  unfold listCopied
  split
  · omega
  · exact if_neg (Nat.lt_irrefl _)

/-- `fuse_listxattr` copies the names of the note, for a file that parses. -/
theorem fuseListxattr_run (h : w.store.Inv) (hn : w.ReadsAt cfg path n)
    (hc : w.component cfg n = some c) (list : List UInt8) (size : Nat) (behind : List UInt8) :
    fuseListxattr cfg path list size behind w =
      .ok (⟨intOfSize (nameList (listedXattrs cfg c)).length,
        memcpy list (nameList (listedXattrs cfg c) ++ behind)
          (listCopied size (nameList (listedXattrs cfg c)).length),
        listCopied size (nameList (listedXattrs cfg c)).length⟩, w) := by
  have hnode := getNodeByPath_found h hn.segments
  rw [hn.found] at hnode
  obtain ⟨e, he⟩ := exists_entry_of_component hc
  have hlive := live_of_entry he
  -- A node with a component has an entry, so it is not the root.
  have hroot : onStore (isRootNode n) w = .ok (false, w) := by
    have hrun := isRootNode_run hlive
    rw [he] at hrun
    exact onStore_run hrun
  have hcomponent := getIcalcomponentFromNode_readsAt h hn
  have hcategories := getNodeCategories_run h hn
  have hclass := getNodeClass_run h hn
  have hstatus := getNodeStatus_run h hn
  have hdtstart := getDtstart_run h hn
  rw [hc] at hcomponent hcategories hclass hstatus hdtstart
  unfold fuseListxattr
  rw [Prog.bind_run_ok hnode]
  simp only
  rw [Prog.bind_run_ok hroot]
  simp only [Bool.false_eq_true, if_false]
  rw [Prog.bind_run_ok hcomponent]
  simp only
  -- None of the getters changes the state, so the names are those of one component.
  rw [Prog.bind_run_ok hcategories, Prog.bind_run_ok hdtstart, Prog.bind_run_ok hclass,
    Prog.bind_run_ok hstatus]
  simp only [Option.map_some, Option.bind_some]
  rw [nameList_listedXattrs]
  exact Prog.pure_run _ _

/-! ## The protocol of listxattr -/

/-- What `listxattr(2)` asks for, as `GetxattrProtocol` does; the caller's buffer is not written
    behind its end, nor the stream read behind the names. -/
structure ListxattrProtocol (names : List UInt8) (list : List UInt8) (size : Nat)
    (r : ListedXattrs) : Prop where
  asks : size = 0 → r.status = names.length ∧ r.list = list
  fits : names.length ≤ size → r.status = names.length ∧ r.list.take names.length = names
  short : 0 < size → size < names.length → r.status = - ERANGE
  writes : r.copied ≤ size
  reads : r.copied ≤ names.length

theorem length_nameList_pos (cfg : Config Text) (c : Icalcomponent) :
    0 < (nameList (listedXattrs cfg c)).length := by
  have hmem : bytes "user.uid" ∈ listedXattrs cfg c := by
    unfold listedXattrs
    simp
  have hnul : (0 : UInt8) ∈ nameList (listedXattrs cfg c) :=
    List.mem_flatMap.2 ⟨_, hmem, List.mem_append_right _ (List.mem_singleton_self _)⟩
  exact List.length_pos_of_mem hnul

/-- The longer of the two lengths is copied, so both buffers are respected exactly if the sizes
    are equal or only the length is asked for. -/
theorem listxattr_protocol_iff (h : Reachable cfg w) (hn : w.ReadsAt cfg path n)
    (hc : w.component cfg n = some c) (size : Nat) :
    (∀ list behind, ∃ r, fuseListxattr cfg path list size behind w = .ok (r, w) ∧
      ListxattrProtocol (nameList (listedXattrs cfg c)) list size r) ↔
      (nameList (listedXattrs cfg c)).length < 2 ^ 31 ∧
        (size = 0 ∨ size = (nameList (listedXattrs cfg c)).length) := by
  have hrun := fuseListxattr_run h.sound.toInv hn hc
  have hpos := length_nameList_pos cfg c
  generalize nameList (listedXattrs cfg c) = names at hrun hpos
  constructor
  · intro hall
    obtain ⟨r, hr, hkept⟩ := hall [] []
    rw [hrun, Except.ok.injEq, Prod.mk.injEq] at hr
    obtain ⟨rfl, _⟩ := hr
    obtain ⟨hasks, hfits, hshort, hwrites, hreads⟩ := hkept
    simp only [listCopied] at hasks hfits hwrites hreads
    split at hwrites
    · rename_i hsize
      exact ⟨intOfSize_eq_iff.1 (hasks hsize).1, .inl hsize⟩
    · rename_i hsize
      rw [if_neg hsize] at hreads
      -- The longer length is copied, so both bounds hold only if they are equal.
      have heq : size = names.length := by
        split at hwrites
        · omega
        · rename_i hle
          rw [if_neg hle] at hreads
          omega
      exact ⟨intOfSize_eq_iff.1 (hfits (Nat.le_of_eq heq.symm)).1, .inr heq⟩
  · rintro ⟨hlength, hsize⟩ list behind
    have hstatus := intOfSize_eq_iff.2 hlength
    refine ⟨_, hrun list size behind, ?_⟩
    rcases hsize with rfl | rfl
    · refine ⟨fun _ => ?_, fun hle => by omega, fun hlt => by omega, Nat.le_refl _, Nat.zero_le _⟩
      dsimp only
      exact ⟨hstatus, rfl⟩
    · have hcopied := listCopied_self names.length
      refine ⟨fun hzero => by omega, fun _ => ?_, fun _ hlt => by omega, ?_, ?_⟩
      · dsimp only
        rw [hcopied]
        unfold memcpy
        rw [List.take_left, List.take_left]
        exact ⟨hstatus, rfl⟩
      · exact Nat.le_of_eq hcopied
      · exact Nat.le_of_eq hcopied

/-- A call without a buffer answers with the length of the list. -/
example : (fuseListxattr sampleConfig (bytes "/Dir/Note.txt") [] 0 []).check
    (sampleMount nestedNote {}) (fun r _ => decide (r.status = 9 ∧ r.copied = 0)) = true := by
  decide +kernel

theorem nestedNote_listed : ∃ c, (sampleMount nestedNote {}).component sampleConfig 2 = some c ∧
    nameList (listedXattrs sampleConfig c) = bytes "user.uid" ++ [0] := by
  have hcheck : ((sampleMount nestedNote {}).component sampleConfig 2).any (fun c =>
      decide (nameList (listedXattrs sampleConfig c) = bytes "user.uid" ++ [0])) = true := by
    decide +kernel
  obtain ⟨c, hc, hnames⟩ := (Option.any_eq_true ..).1 hcheck
  exact ⟨c, hc, of_decide_eq_true hnames⟩

theorem listxattr_protocol_iff_nestedNote : ∃ r,
    fuseListxattr sampleConfig (bytes "/Dir/Note.txt") (bytes "012345678") 9 []
        (sampleMount nestedNote {}) = .ok (r, sampleMount nestedNote {}) ∧
      ListxattrProtocol (bytes "user.uid" ++ [0]) (bytes "012345678") 9 r := by
  obtain ⟨c, hc, hnames⟩ := nestedNote_listed
  have hkept := (listxattr_protocol_iff reachable_nestedNote nestedNote_readsAt hc 9).2
  rw [hnames] at hkept
  exact hkept ⟨by decide, .inr rfl⟩ _ _

/-- Nine bytes are copied to a buffer of one byte. -/
theorem not_all_listxattr_protocol :
    ¬ ∀ (w : World Icalcomponent) (path : CStr) (n : NodeId) (c : Icalcomponent) (size : Nat)
      (list behind : List UInt8), Reachable sampleConfig w → w.ReadsAt sampleConfig path n →
      w.component sampleConfig n = some c → list.length = size →
        ∃ r, fuseListxattr sampleConfig path list size behind w = .ok (r, w) ∧
          ListxattrProtocol (nameList (listedXattrs sampleConfig c)) list size r := by
  intro hall
  obtain ⟨c, hc, _⟩ := nestedNote_listed
  obtain ⟨r, hr, hkept⟩ := hall _ _ 2 c 1 [7] [] reachable_nestedNote nestedNote_readsAt hc rfl
  have hcheck : (fuseListxattr sampleConfig (bytes "/Dir/Note.txt") [7] 1 []).check
      (sampleMount nestedNote {}) (fun r _ => decide (r.copied = 9)) = true := by decide +kernel
  rw [Prog.check_run hr] at hcheck
  have hwrites := hkept.writes
  rw [of_decide_eq_true hcheck] at hwrites
  exact absurd hwrites (by decide)

end Agendafs
