import Agendafs.ForStd.Calls
import Agendafs.Spec.NoteEdits

/-!
# Attributes as cells

`user.class` and `user.dtstart` show the first property of a kind. What a call
does to them is seen on the list of the texts of that kind: setting a class
changes the first text if there is one, setting a date puts a text in front of
the rest, removing a class takes the first text away, and removing a date takes
one away from the calendar itself, where no note keeps it.

## Key results

- `propertyTexts_setExisting`, `propertyTexts_setFirst`, `propertyTexts_removeFirst`,
  `propertyTexts_removeOwn`: the edits on the texts of a kind
- `class_cell_iff`, `dtstart_cell_iff`
-/

namespace Agendafs

open Icalcomponent Store

variable {Text : Type} {cfg : Config Text} {w w' : World Text} {c : Icalcomponent}
  {path : CStr} {n : NodeId} {k : CStr} {text x : CStr} {status : Int} {κ : PropertyKind}

/-! ## The texts of a kind -/

/-- The texts of the properties of a kind in the inner component. -/
def propertyTexts (κ : PropertyKind) (c : Icalcomponent) : List CStr :=
  ((c.inner (·.kind = κ)).getD []).map (·.value)

theorem getText_eq_head (κ : PropertyKind) (c : Icalcomponent) :
    c.getText κ = (propertyTexts κ c).head? := by
  unfold propertyTexts
  rw [getText_eq]
  cases c.inner (·.kind = κ) with
  | none => rfl
  | some ps => rw [Option.bind_some, Option.getD_some, List.head?_map]

theorem propertyTexts_of_getInner {a : Icalcomponent} (ha : c.getInner = some a) :
    propertyTexts κ c = (a.properties.filter (·.kind = κ)).map (·.value) := by
  unfold propertyTexts
  rw [inner_eq, ha]
  rfl

theorem propertyTexts_of_no_inner (h : c.getInner = none) : propertyTexts κ c = [] := by
  unfold propertyTexts
  rw [inner_eq, h]
  rfl

/-- The texts after the inner component has been edited. -/
theorem propertyTexts_modifyInner {f : Icalcomponent → Icalcomponent}
    (hf : ∀ a, (f a).kind = a.kind) {a : Icalcomponent} (ha : c.getInner = some a) :
    propertyTexts κ (c.modifyInner f) =
      ((f a).properties.filter (·.kind = κ)).map (·.value) := by
  unfold propertyTexts
  rw [inner_modifyInner hf, ha]
  rfl

theorem propertyTexts_modifyInner_none {f : Icalcomponent → Icalcomponent}
    (hf : ∀ a, (f a).kind = a.kind) (ha : c.getInner = none) :
    propertyTexts κ (c.modifyInner f) = [] := by
  unfold propertyTexts
  rw [inner_modifyInner hf, ha]
  rfl

theorem modifyFirst_of_none {α : Type} {p : α → Bool} {f : α → α} {as : List α}
    (h : ∀ a ∈ as, ¬ p a = true) : modifyFirst p f as = as := by
  induction as with
  | nil => rfl
  | cons a as ih =>
    rw [modifyFirst, if_neg (h a List.mem_cons_self),
      ih fun b hb => h b (List.mem_cons_of_mem _ hb)]

/-- Setting an existing property changes the first text, and does nothing without one. -/
theorem propertyTexts_setExisting (κ : PropertyKind) (x : CStr) (c : Icalcomponent) :
    propertyTexts κ (c.modifyInner (setExistingProperty κ x)) =
      if propertyTexts κ c = [] then [] else x :: (propertyTexts κ c).tail := by
  have hkind : ∀ a, (setExistingProperty κ x a).kind = a.kind := fun _ => rfl
  cases ha : c.getInner with
  | none => rw [propertyTexts_of_no_inner ha, if_pos rfl, propertyTexts_modifyInner_none hkind ha]
  | some a =>
    rw [propertyTexts_modifyInner hkind ha, propertyTexts_of_getInner ha]
    cases hfirst : a.properties.find? (·.kind = κ) with
    | none =>
      have hnot := List.find?_eq_none.1 hfirst
      have hnil : a.properties.filter (·.kind = κ) = [] := List.filter_eq_nil_iff.2 hnot
      rw [hnil, List.map_nil, if_pos rfl]
      change ((modifyFirst _ _ a.properties).filter _).map _ = []
      rw [modifyFirst_of_none hnot, hnil, List.map_nil]
    | some p =>
      have hmem : p ∈ a.properties.filter (·.kind = κ) := by
        have hp := List.find?_some hfirst
        exact List.mem_filter.2 ⟨List.mem_of_find?_eq_some hfirst, hp⟩
      rw [if_neg fun h => List.ne_nil_of_mem hmem (List.map_eq_nil_iff.1 h)]
      exact values_modifyFirst κ x (by rw [hfirst]; rfl)

/-- Setting a property puts its text in front of all but the first. -/
theorem propertyTexts_setFirst (κ : PropertyKind) (x : CStr) (h : c.getInner.isSome = true) :
    propertyTexts κ (c.modifyInner (setFirstProperty κ x)) = x :: (propertyTexts κ c).tail := by
  obtain ⟨a, ha⟩ := Option.isSome_iff_exists.1 h
  rw [propertyTexts_modifyInner (setFirstProperty_kind κ x) ha, propertyTexts_of_getInner ha,
    values_setFirstProperty]

theorem texts_eraseP (κ : PropertyKind) (ps : List Icalproperty) :
    ((ps.eraseP (·.kind = κ)).filter (·.kind = κ)).map (·.value) =
      ((ps.filter (·.kind = κ)).map (·.value)).tail := by
  rw [filter_eraseP, List.map_tail]

/-- Removing a property takes the first text away. -/
theorem propertyTexts_removeFirst (κ : PropertyKind) (c : Icalcomponent) :
    propertyTexts κ (c.modifyInner (removeFirst (·.kind = κ))) = (propertyTexts κ c).tail := by
  have hkind : ∀ a, (removeFirst (·.kind = κ) a).kind = a.kind := fun _ => rfl
  cases ha : c.getInner with
  | none =>
    rw [propertyTexts_of_no_inner ha, propertyTexts_modifyInner_none hkind ha]
    rfl
  | some a =>
    rw [propertyTexts_modifyInner hkind ha, propertyTexts_of_getInner ha]
    exact texts_eraseP κ a.properties

/-- Removing a property of the calendar itself leaves the texts of the component inside; a
    component that is no calendar is its own inner component. -/
theorem propertyTexts_removeOwn (κ : PropertyKind) (c : Icalcomponent) :
    propertyTexts κ (c.removeFirst (·.kind = κ)) =
      if c.kind = .vcalendar then propertyTexts κ c else (propertyTexts κ c).tail := by
  unfold propertyTexts Icalcomponent.inner
  by_cases hkind : c.kind = .vcalendar
  · have hkind' : (c.removeFirst (·.kind = κ)).kind = .vcalendar := hkind
    rw [if_pos hkind, if_pos hkind, if_pos hkind']
    rfl
  · have hkind' : ¬ (c.removeFirst (·.kind = κ)).kind = .vcalendar := hkind
    rw [if_neg hkind, if_neg hkind, if_neg hkind']
    exact texts_eraseP κ c.properties

/-- The stamp and the way through the file only drop empty texts. -/
theorem propertyTexts_restamped (hκ : κ ≠ .lastModified ∧ κ ≠ .description ∧ κ ≠ .categories)
    (now : CStr) (c : Icalcomponent) :
    propertyTexts κ (stamp now c).reread = (propertyTexts κ c).filter (· ≠ []) := by
  have hstamp := (keeps_stamp (onlyKind_kind κ) ⟨hκ.1, hκ.2.1⟩ now).inner c
  have hq : ∀ p : Icalproperty, decide (p.kind = κ) = true → p.kind ≠ .categories := fun p hp => by
    rw [of_decide_eq_true hp]
    exact hκ.2.2
  unfold propertyTexts
  rw [inner_reread hq, hstamp]
  cases c.inner (·.kind = κ) with
  | none => rfl
  | some ps =>
    simp only [Option.map_some, Option.getD_some, List.filter_map]
    rfl

theorem propertyTexts_ne_nil (hc : c.parsed = true) : ∀ t ∈ propertyTexts κ c, t ≠ [] := by
  intro t ht
  unfold propertyTexts at ht
  obtain ⟨p, hp, rfl⟩ := List.mem_map.1 ht
  cases hps : c.inner (·.kind = κ) with
  | none =>
    rw [hps] at hp
    exact nomatch hp
  | some ps =>
    rw [hps] at hp
    have hparsed := parsed_of_inner hc hps p hp
    unfold parsedProperty at hparsed
    simp only [Bool.and_eq_true, decide_eq_true_eq] at hparsed
    exact hparsed.1.2

/-- Without empty texts nothing is dropped. -/
theorem propertyTexts_restamped_of (hκ : κ ≠ .lastModified ∧ κ ≠ .description ∧ κ ≠ .categories)
    (now : CStr) (h : ∀ t ∈ propertyTexts κ c, t ≠ []) :
    propertyTexts κ (stamp now c).reread = propertyTexts κ c := by
  rw [propertyTexts_restamped hκ]
  exact List.filter_eq_self.2 fun t ht => decide_eq_true (h t ht)

/-- What was behind a text in a parsed component is not empty either. -/
theorem tail_ne_nil (hc : c.parsed = true) (hx : x ≠ []) :
    (∀ t ∈ (propertyTexts κ c).tail, t ≠ []) ∧ ∀ t ∈ x :: (propertyTexts κ c).tail, t ≠ [] := by
  have htail : ∀ t ∈ (propertyTexts κ c).tail, t ≠ [] :=
    fun t ht => propertyTexts_ne_nil hc t (List.mem_of_mem_tail ht)
  exact ⟨htail, List.forall_mem_cons.2 ⟨hx, htail⟩⟩

/-! ## A created note -/

/-- The state after a note has been created in an empty directory. -/
def createdMount : World Icalcomponent :=
  (exec sampleConfig (.create (bytes "/Note.txt"))).final emptyMount

theorem createdMount_run :
    exec sampleConfig (.create (bytes "/Note.txt")) emptyMount = .ok (0, createdMount) :=
  exec_sample (by decide +kernel)

theorem reachable_createdMount : Reachable sampleConfig createdMount :=
  .call reachable_emptyMount (valid_emptyMount _) trivial createdMount_run

theorem createdMount_opensAt :
    createdMount.OpensAt sampleConfig (bytes "/Note.txt") 1 (bytes "u-caldavfs.ics") where
  segments := by decide +kernel
  found := by decide +kernel
  file := by decide +kernel
  readable := (Option.any_eq_true ..).1 (by decide +kernel)

theorem createdMount_outcome : createdMount.outcome = .written := by
  have hwrites : createdMount.env.writes.isEmpty = true := by decide +kernel
  unfold World.outcome
  rw [List.isEmpty_iff.1 hwrites]
  rfl

/-! ## `user.class` -/

/-- The values of the class. -/
def ClassValue (text : CStr) : Prop :=
  text = bytes "public" ∨ text = bytes "private" ∨ text = bytes "confidential"

/-- The class a text of a CLASS property stands for, as the program prints it. -/
def readClass (value : CStr) : Option CStr :=
  formatIcalClass (icalpropertyGetClass { kind := .classification, value := value })

theorem classOf_eq (c : Icalcomponent) :
    classOf c = (propertyTexts .classification c).head?.bind readClass := by
  rw [← getText_eq_head]
  unfold classOf getText readClass
  cases c.getInner.bind (·.getFirstProperty .classification) <;> rfl

theorem readClass_text (h : ClassValue text) :
    readClass (parseIcalClass text).text = some text := by
  rcases h with rfl | rfl | rfl
  · decide
  · decide
  · decide

theorem length_classValue (h : ClassValue text) : text.length < 2 ^ 31 := by
  rcases h with rfl | rfl | rfl
  · decide
  · decide
  · decide

theorem classText_ne_nil (iclass : IcalClass) : iclass.text ≠ [] := by
  cases iclass <;> decide

theorem xattrOf_class (c : Icalcomponent) : xattrOf cfg c (bytes "user.class") = classOf c := by
  unfold xattrOf
  rw [if_neg (by decide), if_neg (by decide), if_pos rfl]

/-- The calls on the class of a note. -/
abbrev classCall (cfg : Config Text) (path : CStr) (a : AttrCall) : FsM Text Int :=
  exec cfg (a.op path (bytes "user.class"))

/-- The edit of such a call. -/
def classEdit (a : AttrCall) : Icalcomponent → Icalcomponent :=
  match a.text with
  | some text => modifyInner (setExistingProperty .classification (parseIcalClass text).text)
  | none => modifyInner (removeFirst (·.kind = .classification))

theorem edit_class {a : AttrCall} (ha : ∀ text, a.text = some text → ClassValue text) :
    a.edit cfg (bytes "user.class") = some (classEdit a) := by
  cases a with
  | remove => rfl
  | set value s flags =>
    have hvalue := ha _ rfl
    have hshort : ¬ (256 ≤ (bytes "user.class").length ∨ 64 * 1024 ≤ (cString value).length) := by
      rcases hvalue with h | h | h
      · rw [h]
        decide
      · rw [h]
        decide
      · rw [h]
        decide
    have hclass : parseIcalClass (cString value) ≠ .none := by
      rcases hvalue with h | h | h
      · rw [h]
        decide
      · rw [h]
        decide
      · rw [h]
        decide
    change setxattrEdit cfg (bytes "user.class") value s = _
    unfold setxattrEdit
    rw [if_neg hshort, if_neg (by decide), if_neg (by decide), if_neg (by decide), if_pos rfl,
      if_neg hclass]
    rfl

theorem printable_classEdit (a : AttrCall) : Printable (classEdit a) := by
  unfold classEdit
  cases a.text with
  | some text => exact (printable_setExistingProperty .classification _).modifyInner
  | none => exact (Preserves.removeFirst _).modifyInner

/-- The class that is read after a call whose write succeeds. -/
theorem classOf_stored (hc : c.parsed = true) {a : AttrCall}
    (ha : ∀ text, a.text = some text → ClassValue text) (now : CStr) :
    classOf (stamp now (classEdit a c)).reread =
      match a.text with
      | some text => if propertyTexts .classification c = [] then none else some text
      | none => (propertyTexts .classification c).tail.head?.bind readClass := by
  have hκ : PropertyKind.classification ≠ .lastModified ∧
      PropertyKind.classification ≠ .description ∧ PropertyKind.classification ≠ .categories := by
    decide
  unfold classEdit
  rw [classOf_eq]
  cases htext : a.text with
  | some text =>
    have hne := tail_ne_nil (κ := .classification) hc (classText_ne_nil (parseIcalClass text))
    have htexts := propertyTexts_setExisting .classification (parseIcalClass text).text c
    simp only
    by_cases hnil : propertyTexts .classification c = []
    · rw [if_pos hnil] at htexts ⊢
      rw [propertyTexts_restamped hκ, htexts]
      rfl
    · rw [if_neg hnil] at htexts ⊢
      rw [propertyTexts_restamped_of hκ now (by rw [htexts]; exact hne.2), htexts]
      exact readClass_text (ha text htext)
  | none =>
    have htexts := propertyTexts_removeFirst .classification c
    have hne := (tail_ne_nil (κ := .classification) hc (classText_ne_nil .none)).1
    simp only
    rw [propertyTexts_restamped_of hκ now (by rw [htexts]; exact hne), htexts]

/-- The call did what a cell does: if it has returned 0, its value is read, and none after a
    call that removes it. -/
def ClassCell (cfg : Config Text) (path : CStr) (m : Prog.Made AttrCall Int (World Text)) : Prop :=
  m.result = 0 → m.after.HoldsXattr cfg path (bytes "user.class") m.call.text

/-- What the state before a call and the outcome of its write make of the class: a class can only
    be set where there is one, and of several ones removing takes the first away. -/
def ClassTaken (cfg : Config Text) (filenameVdir : CStr)
    (m : Prog.Made AttrCall Int (World Text)) : Prop :=
  match m.before.fileComponent cfg filenameVdir with
  | none => m.call.text = none
  | some c =>
    match m.before.outcome with
    | .openFailed => True
    | .writeFailed left => (cfg.ical.newFromString left).bind classOf = m.call.text
    | .written =>
      match m.call.text with
      | some _ => propertyTexts .classification c ≠ []
      | none => (propertyTexts .classification c).tail.head?.bind readClass = none

/-- A call is one of a cell exactly under that condition. -/
theorem classCell_iff (hL : cfg.ical.Lawful) {m : Prog.Made AttrCall Int (World Text)}
    (hn : m.before.NotePath cfg path n k) (ha : ∀ text, m.call.text = some text → ClassValue text)
    (hrun : classCall cfg path m.call m.before = .ok (m.result, m.after)) :
    ClassCell cfg path m ↔ ClassTaken cfg k m := by
  obtain ⟨before, call, result, after⟩ := m
  simp only at hn ha hrun
  unfold ClassCell ClassTaken
  simp only
  have hlength : ∀ x, call.text = some x → x.length < 2 ^ 31 := fun x hx =>
    length_classValue (ha x hx)
  have hholds := hn.holds_of_call hL (edit_class ha) (printable_classEdit call) hlength
    (by decide) hrun
  rw [hholds.1, World.readAfter]
  cases hc : before.fileComponent cfg k with
  | none =>
    have hstatus : result = 0 := by
      rcases hholds.2.1 hc with ⟨hs, _⟩ | ⟨_, hdtstart, _⟩
      · exact hs
      · exact absurd hdtstart (by decide)
    simp only [hstatus, forall_const, Option.bind_none, eq_comm]
  | some c =>
    have hstatus := hholds.2.2 c hc
    have hparsed := parsed_of_fileComponent hL hc
    simp only [hstatus, WriteOutcome.status_eq_zero, Option.bind_some, World.stored, xattrOf_class]
    cases ho : before.outcome with
    | openFailed => exact iff_of_true (fun h => absurd rfl h) trivial
    | writeFailed left => exact forall_prop_of_true (by simp)
    | written =>
      simp only [Option.bind_some, classOf_stored hparsed ha]
      refine (forall_prop_of_true (by simp)).trans ?_
      cases call.text with
      | some text =>
        simp only
        split
        · rename_i hnil
          exact iff_of_false (by simp) fun h => h hnil
        · rename_i hne
          exact iff_of_true rfl hne
      | none => rfl

/-- In a run of calls that set the class of a note to one of its values or remove it, each call is
    one of a cell exactly under that condition. -/
theorem class_cell_iff (hL : cfg.ical.Lawful) (h : Reachable cfg w) (hn : w.OpensAt cfg path n k)
    {ms : List (Prog.Made AttrCall Int (World Text))}
    (hrun : Prog.Calls (classCall cfg path) w ms w')
    (hvalues : ∀ m ∈ ms, ∀ text, m.call.text = some text → ClassValue text) :
    (∀ m ∈ ms, ClassCell cfg path m) ↔ ∀ m ∈ ms, ClassTaken cfg k m :=
  hrun.forall_iff (I := fun v => v.NotePath cfg path n k) ⟨hn, h.sound.toInv⟩
    (fun m hm hcall hnote => classCell_iff hL hnote (hvalues m hm) hcall)
    fun _ _ hcall hnote _ => hnote.after hcall

/-- It has two classes. -/
theorem createdMount_classes :
    ∃ c, createdMount.fileComponent sampleConfig (bytes "u-caldavfs.ics") = some c ∧
      propertyTexts .classification c = [IcalClass.classPrivate.text, IcalClass.classPrivate.text] := by
  have hcheck : (createdMount.fileComponent sampleConfig (bytes "u-caldavfs.ics")).any
      (fun c => decide (propertyTexts .classification c =
        [IcalClass.classPrivate.text, IcalClass.classPrivate.text])) = true := by decide +kernel
  obtain ⟨c, hc, htexts⟩ := (Option.any_eq_true ..).1 hcheck
  exact ⟨c, hc, of_decide_eq_true htexts⟩

/-- A call on the class of the note. -/
def classMade (a : AttrCall) : Prog.Made AttrCall Int (World Icalcomponent) :=
  ⟨createdMount, a, 0, (classCall sampleConfig (bytes "/Note.txt") a).final createdMount⟩

theorem class_cell_iff_createdNote :
    ClassCell sampleConfig (bytes "/Note.txt") (classMade (.set (bytes "public") 6 0)) := by
  have hrun : classCall sampleConfig (bytes "/Note.txt") (.set (bytes "public") 6 0) createdMount =
      .ok (0, _) := exec_sample (by decide +kernel)
  refine (class_cell_iff structuralIcal_lawful reachable_createdMount createdMount_opensAt
    (.one hrun) ?_).2 ?_ _ List.mem_cons_self
  · intro m hm text htext
    obtain rfl := List.mem_singleton.1 hm
    obtain rfl := Option.some.inj htext
    exact .inl (by decide)
  · intro m hm
    obtain rfl := List.mem_singleton.1 hm
    obtain ⟨c, hc, htexts⟩ := createdMount_classes
    unfold ClassTaken
    simp only [hc, createdMount_outcome, AttrCall.text, htexts]
    exact List.cons_ne_nil _ _

/-- Removing the class of a created note returns 0, and leaves its second one. -/
theorem not_all_class_cells :
    ¬ ∀ (w w' : World Icalcomponent) (path k : CStr) (n : NodeId)
      (ms : List (Prog.Made AttrCall Int (World Icalcomponent))), Reachable sampleConfig w →
      w.OpensAt sampleConfig path n k → Prog.Calls (classCall sampleConfig path) w ms w' →
      (∀ m ∈ ms, ∀ text, m.call.text = some text → ClassValue text) →
      ∀ m ∈ ms, ClassCell sampleConfig path m := by
  intro hall
  have hrun : classCall sampleConfig (bytes "/Note.txt") .remove createdMount = .ok (0, _) :=
    exec_sample (by decide +kernel)
  have hcell := hall _ _ _ _ _ _ reachable_createdMount createdMount_opensAt (.one hrun)
    (by simp [AttrCall.text]) _ List.mem_cons_self rfl [] 0
  have hcheck : (fuseGetxattr sampleConfig (bytes "/Note.txt") (bytes "user.class") [] 0).check
      (classMade .remove).after (fun r _ => decide (r.1 = 7)) = true := by decide +kernel
  change fuseGetxattr sampleConfig (bytes "/Note.txt") (bytes "user.class") [] 0
    (classMade .remove).after = _ at hcell
  rw [Prog.check_run hcell] at hcheck
  exact absurd hcheck (by decide)

/-! ## `user.dtstart` -/

/-- What the program relies on of the times of libical: the printed form of a time is read as that
    time, and it is neither empty nor longer than what it was read from. -/
structure Libical.Times (L : Libical Text) : Prop where
  stable : ∀ {v time}, L.timeFromString v = some time → L.timeFromString time = some time
  printed : ∀ {v time}, L.timeFromString v = some time → time ≠ []
  length_le : ∀ {v time}, L.timeFromString v = some time → time.length ≤ v.length

theorem dtstartOf_eq (c : Icalcomponent) :
    dtstartOf cfg c = (propertyTexts .dtstart c).head?.bind cfg.ical.timeFromString := by
  rw [← getText_eq_head]
  rfl

theorem xattrOf_dtstart (c : Icalcomponent) :
    xattrOf cfg c (bytes "user.dtstart") = dtstartOf cfg c := by
  unfold xattrOf
  rw [if_neg (by decide), if_neg (by decide), if_neg (by decide), if_neg (by decide), if_pos rfl]

/-- The calls on the date of a note. -/
abbrev dtstartCall (cfg : Config Text) (path : CStr) (a : AttrCall) : FsM Text Int :=
  exec cfg (a.op path (bytes "user.dtstart"))

/-- The date that the call sets, in its printed form; none if it clears it. -/
def AttrCall.date (cfg : Config Text) (a : AttrCall) : Option CStr :=
  a.text.bind fun text => if text = [] then none else cfg.ical.timeFromString text

/-- The edit of such a call. -/
def dtstartEdit (cfg : Config Text) (a : AttrCall) : Icalcomponent → Icalcomponent :=
  match a.date cfg with
  | some time => (·.setDtstart time)
  | none => (·.removeFirst (·.kind = .dtstart))

theorem setxattrEdit_dtstart (cfg : Config Text) (value : List UInt8) (s : Nat) :
    setxattrEdit cfg (bytes "user.dtstart") value s =
      if 64 * 1024 ≤ (cString value).length then none
      else if cString value = [] then some (·.removeFirst (·.kind = .dtstart))
      else (cfg.ical.timeFromString (cString value)).map fun time => (·.setDtstart time) := by
  have hshort : ¬ 256 ≤ (bytes "user.dtstart").length := by decide
  unfold setxattrEdit
  refine if_congr (or_iff_right hshort) rfl ?_
  rw [if_neg (by decide), if_pos rfl]

/-- A call that is not refused has that edit, and its date is not too long. -/
theorem edit_dtstart (hT : cfg.ical.Times) {a : AttrCall}
    (ha : (a.edit cfg (bytes "user.dtstart")).isSome = true) :
    a.edit cfg (bytes "user.dtstart") = some (dtstartEdit cfg a) ∧
      ∀ time, a.date cfg = some time → time.length < 2 ^ 31 := by
  cases a with
  | remove => exact ⟨rfl, fun time htime => nomatch htime⟩
  | set value s flags =>
    change (setxattrEdit cfg (bytes "user.dtstart") value s).isSome = true at ha
    change setxattrEdit cfg (bytes "user.dtstart") value s = some _ ∧ _
    rw [setxattrEdit_dtstart] at ha ⊢
    unfold dtstartEdit AttrCall.date
    simp only [AttrCall.text, Option.bind_some]
    by_cases hlong : 64 * 1024 ≤ (cString value).length
    · rw [if_pos hlong] at ha
      cases ha
    rw [if_neg hlong] at ha ⊢
    by_cases hnil : cString value = []
    · simp only [if_pos hnil, true_and]
      exact fun time htime => nomatch htime
    simp only [if_neg hnil] at ha ⊢
    cases htime : cfg.ical.timeFromString (cString value) with
    | none =>
      rw [htime] at ha
      cases ha
    | some time =>
      refine ⟨rfl, fun time' htime' => ?_⟩
      cases htime'
      have hle := hT.length_le htime
      omega

theorem printable_dtstartEdit (a : AttrCall) : Printable (dtstartEdit cfg a) := by
  unfold dtstartEdit
  cases a.date cfg with
  | some time => exact (printable_setFirstProperty .dtstart time).modifyInner
  | none => exact Preserves.removeFirst _

/-- A date is the printed form of a time. -/
theorem AttrCall.date_time {a : AttrCall} {time : CStr} (h : a.date cfg = some time) :
    ∃ text, cfg.ical.timeFromString text = some time := by
  obtain ⟨text, _, htime⟩ := Option.bind_eq_some_iff.1 h
  split at htime
  · cases htime
  · exact ⟨text, htime⟩

/-- The date that is read after a call whose write succeeds. -/
theorem dtstartOf_stored (hT : cfg.ical.Times) (hc : c.parsed = true) (a : AttrCall) (now : CStr) :
    dtstartOf cfg (stamp now (dtstartEdit cfg a c)).reread =
      match a.date cfg with
      | some time => if c.getInner.isSome = true then some time else none
      | none => (if c.kind = .vcalendar then propertyTexts .dtstart c
          else (propertyTexts .dtstart c).tail).head?.bind cfg.ical.timeFromString := by
  have hκ : PropertyKind.dtstart ≠ .lastModified ∧ PropertyKind.dtstart ≠ .description ∧
      PropertyKind.dtstart ≠ .categories := by decide
  unfold dtstartEdit
  rw [dtstartOf_eq]
  cases hdate : a.date cfg with
  | some time =>
    obtain ⟨text, htime⟩ := AttrCall.date_time hdate
    simp only [Icalcomponent.setDtstart]
    by_cases hinner : c.getInner.isSome = true
    · have htexts := propertyTexts_setFirst .dtstart time hinner
      have hne := (tail_ne_nil (κ := .dtstart) hc (hT.printed htime)).2
      rw [propertyTexts_restamped_of hκ now (by rw [htexts]; exact hne), htexts, if_pos hinner]
      exact hT.stable htime
    · have htexts : propertyTexts .dtstart (c.modifyInner (setFirstProperty .dtstart time)) = [] :=
        propertyTexts_modifyInner_none (setFirstProperty_kind .dtstart time)
          (Option.not_isSome_iff_eq_none.1 hinner)
      rw [propertyTexts_restamped hκ, htexts, if_neg hinner]
      rfl
  | none =>
    have htexts := propertyTexts_removeOwn .dtstart c
    have hne : ∀ t ∈ (if c.kind = .vcalendar then propertyTexts .dtstart c
        else (propertyTexts .dtstart c).tail), t ≠ [] := by
      split
      · exact propertyTexts_ne_nil hc
      · exact fun t ht => propertyTexts_ne_nil hc t (List.mem_of_mem_tail ht)
    simp only
    rw [propertyTexts_restamped_of hκ now (by rw [htexts]; exact hne), htexts]

/-- The call did what a cell does: if it has returned 0, its date is read, and none after a call
    that clears it; a wrong date changes nothing. -/
structure DtstartCell (cfg : Config Text) (path : CStr)
    (m : Prog.Made AttrCall Int (World Text)) : Prop where
  accepted : m.result = 0 → m.after.HoldsXattr cfg path (bytes "user.dtstart") (m.call.date cfg)
  refused : m.result = -EINVAL → m.after = m.before

/-- What the state before a call and the outcome of its write make of the date, unless the call is
    refused: a date can be set where there is a journal, and clearing, which looks at the calendar
    only, does its work if no date was there to be read. -/
def DtstartTaken (cfg : Config Text) (filenameVdir : CStr)
    (m : Prog.Made AttrCall Int (World Text)) : Prop :=
  (m.call.edit cfg (bytes "user.dtstart")).isSome = true →
    match m.before.fileComponent cfg filenameVdir with
    -- Without component the call stops as soon as the file has been opened.
    | none => m.before.outcome = .openFailed
    | some c =>
      match m.before.outcome with
      | .openFailed => True
      | .writeFailed left => (cfg.ical.newFromString left).bind (dtstartOf cfg) = m.call.date cfg
      | .written =>
        match m.call.date cfg with
        | some _ => c.getInner.isSome = true
        | none => (if c.kind = .vcalendar then propertyTexts .dtstart c
            else (propertyTexts .dtstart c).tail).head?.bind cfg.ical.timeFromString = none

/-- A call is one of a cell exactly under that condition. -/
theorem dtstartCell_iff (hL : cfg.ical.Lawful) (hT : cfg.ical.Times)
    {m : Prog.Made AttrCall Int (World Text)} (hn : m.before.NotePath cfg path n k)
    (hrun : dtstartCall cfg path m.call m.before = .ok (m.result, m.after)) :
    DtstartCell cfg path m ↔ DtstartTaken cfg k m := by
  obtain ⟨before, call, result, after⟩ := m
  simp only at hn hrun
  unfold DtstartTaken
  simp only
  cases hedit : (call.edit cfg (bytes "user.dtstart")).isSome with
  | false =>
    -- A call that is refused has changed nothing.
    obtain ⟨hneg, rfl⟩ := hn.same_of_call (Option.not_isSome_iff_eq_none.1 (by simp [hedit])) hrun
    refine iff_of_true ⟨fun hzero => ?_, fun _ => rfl⟩ fun h => absurd h Bool.false_ne_true
    simp only at hzero
    omega
  | true =>
    obtain ⟨hf, hlength⟩ := edit_dtstart hT hedit
    obtain ⟨hholds, hunparsed, hparsed⟩ := hn.holds_of_call hL hf (printable_dtstartEdit call)
      hlength (by decide) hrun
    have hcell : DtstartCell cfg path ⟨before, call, result, after⟩ ↔
        (result = 0 → before.readAfter cfg k (bytes "user.dtstart") (dtstartEdit cfg call) =
          call.date cfg) := by
      refine ⟨fun h hzero => hholds.1 (h.accepted hzero), fun h => ⟨?_, fun hinval => ?_⟩⟩
      · exact fun hzero => hholds.2 (h hzero)
      · exact absurd hinval (hn.status_ne_einval hf hrun)
    rw [hcell, forall_prop_of_true rfl, World.readAfter]
    cases hc : before.fileComponent cfg k with
    | none =>
      rcases hunparsed hc with ⟨_, hlenient⟩ | ⟨hstatus, _, ho⟩
      · exact absurd hlenient (by decide)
      · refine iff_of_true (fun hzero => absurd (hstatus.symm.trans hzero) (by decide)) ho
    | some c =>
      have hc' := parsed_of_fileComponent hL hc
      simp only [hparsed c hc, WriteOutcome.status_eq_zero, Option.bind_some, World.stored,
        xattrOf_dtstart]
      cases ho : before.outcome with
      | openFailed => exact iff_of_true (fun h => absurd rfl h) trivial
      | writeFailed left => exact forall_prop_of_true (by simp)
      | written =>
        simp only [Option.bind_some, dtstartOf_stored hT hc']
        refine (forall_prop_of_true (by simp)).trans ?_
        cases call.date cfg with
        | some time =>
          simp only
          split
          · rename_i hinner
            exact iff_of_true rfl hinner
          · rename_i hinner
            exact iff_of_false (by simp) hinner
        | none => rfl

/-- In a run of calls that set or clear the date of a note, each call is one of a cell exactly
    under that condition. -/
theorem dtstart_cell_iff (hL : cfg.ical.Lawful) (hT : cfg.ical.Times) (h : Reachable cfg w)
    (hn : w.OpensAt cfg path n k) {ms : List (Prog.Made AttrCall Int (World Text))}
    (hrun : Prog.Calls (dtstartCall cfg path) w ms w') :
    (∀ m ∈ ms, DtstartCell cfg path m) ↔ ∀ m ∈ ms, DtstartTaken cfg k m :=
  hrun.forall_iff (I := fun v => v.NotePath cfg path n k) ⟨hn, h.sound.toInv⟩
    (fun _ _ hcall hnote => dtstartCell_iff hL hT hnote hcall)
    fun _ _ hcall hnote _ => hnote.after hcall

theorem structuralIcal_times : structuralIcal.Times := by
  have htime : ∀ {v time : CStr}, structuralIcal.timeFromString v = some time →
      v ≠ [] ∧ time = v := by
    intro v time h
    simp only [structuralIcal] at h
    split at h
    · cases h
    · rename_i hne
      exact ⟨hne, (Option.some.inj h).symm⟩
  constructor
  · intro v time h
    obtain ⟨_, rfl⟩ := htime h
    exact h
  · intro v time h
    obtain ⟨hne, rfl⟩ := htime h
    exact hne
  · intro v time h
    obtain ⟨_, rfl⟩ := htime h
    exact Nat.le_refl _

/-- Setting the date of the note. -/
def setDate : AttrCall := .set (bytes "20240102") 8 0

/-- The state after it. -/
def datedMount : World Icalcomponent :=
  (dtstartCall sampleConfig (bytes "/Note.txt") setDate).final createdMount

theorem datedMount_run :
    dtstartCall sampleConfig (bytes "/Note.txt") setDate createdMount = .ok (0, datedMount) :=
  exec_sample (by decide +kernel)

theorem dtstart_cell_iff_createdNote :
    DtstartCell sampleConfig (bytes "/Note.txt") ⟨createdMount, setDate, 0, datedMount⟩ := by
  refine (dtstart_cell_iff structuralIcal_lawful structuralIcal_times reachable_createdMount
    createdMount_opensAt (.one datedMount_run)).2 ?_ _ List.mem_cons_self
  intro m hm _
  obtain rfl := List.mem_singleton.1 hm
  have hcheck : (createdMount.fileComponent sampleConfig (bytes "u-caldavfs.ics")).any
      (·.getInner.isSome) = true := by decide +kernel
  obtain ⟨c, hc, hinner⟩ := (Option.any_eq_true ..).1 hcheck
  have hdate : setDate.date sampleConfig = some (bytes "20240102") := by decide
  simp only [hc, createdMount_outcome, hdate]
  exact hinner

/-- Clearing a date that has been set returns 0, and the date is still read. -/
theorem not_all_dtstart_cells :
    ¬ ∀ (w w' : World Icalcomponent) (path k : CStr) (n : NodeId)
      (ms : List (Prog.Made AttrCall Int (World Icalcomponent))), Reachable sampleConfig w →
      w.OpensAt sampleConfig path n k → Prog.Calls (dtstartCall sampleConfig path) w ms w' →
      ∀ m ∈ ms, DtstartCell sampleConfig path m := by
  intro hall
  have hclear : dtstartCall sampleConfig (bytes "/Note.txt") .remove datedMount = .ok (0, _) :=
    exec_sample (by decide +kernel)
  have hcells := hall _ _ _ _ _ _ reachable_createdMount createdMount_opensAt
    (.cons datedMount_run (.one hclear))
  have hgone := (hcells _ (List.mem_cons_of_mem _ List.mem_cons_self)).accepted rfl [] 0
  have hcheck : (fuseGetxattr sampleConfig (bytes "/Note.txt") (bytes "user.dtstart") [] 0).check
      ((dtstartCall sampleConfig (bytes "/Note.txt") .remove).final datedMount)
      (fun r _ => decide (r.1 = 8)) = true := by decide +kernel
  rw [Prog.check_run hgone] at hcheck
  exact absurd hcheck (by decide)

end Agendafs
