import Agendafs.Spec.CustomXattrs

/-!
# The attributes of a note are listed as they are read

`fuse_listxattr` and `fuse_getxattr` each go through the attributes on their own. On a
note whose custom attributes have different names, none of them the name of a built-in
attribute, the two agree, and every edit of an attribute leaves such a note.

## Key results

- `mem_listedXattrs_iff`, `nodup_listedXattrs`: what is listed is what is read, once
- `attributed_setxattrEdit`, `attributed_removexattrEdit`, `Attributed.rewritten`: edits
  and files keep the note so
-/

namespace Agendafs

open Icalcomponent

variable {Text : Type} {cfg : Config Text} {c : Icalcomponent} {q : Icalproperty → Bool}
  {f : Icalcomponent → Icalcomponent} {attrib : CStr}

/-! ## Notes with attributes -/

/-- An X property that holds a custom attribute. -/
def isCustom (p : Icalproperty) : Bool := p.kind = .x && startsWithStr p.xName customPropertyPrefix

/-- The name that a custom attribute is listed under. -/
def listedName (p : Icalproperty) : CStr :=
  bytes "user." ++ p.xName.drop customPropertyPrefix.length

/-- A text of a length that an attribute may have. -/
def Short (p : Icalproperty) : Prop := p.value.length < 64 * 1024

/-- A property that may hold a custom attribute of a note. -/
structure CustomProp (p : Icalproperty) : Prop where
  notBuiltin : listedName p ∉ builtinXattrs
  string : (0 : UInt8) ∉ p.xName
  short : Short p

/-- The calendar of one journal that has a UID, at most one list of categories, and custom
    attributes with names of their own. -/
structure Attributed (c : Icalcomponent) : Prop where
  kind : c.kind = .vcalendar
  kinds : c.kinds = [.vjournal]
  uid : ∃ p ps, c.inner (·.kind = .uid) = some (p :: ps) ∧ p.value ≠ [] ∧ Short p
  categories : ∃ ps, c.inner (·.kind = .categories) = some ps ∧ ps.length ≤ 1 ∧
    ∀ p ∈ ps, Short p
  customs : ∃ ps, c.view anyKind isCustom = some ps ∧ (ps.map (·.xName)).Nodup ∧
    ∀ p ∈ ps, CustomProp p

/-- A journal that has a UID and none of the other attributes. -/
theorem attributed_of_uid (hkind : c.kind = .vcalendar) (hkinds : c.kinds = [.vjournal])
    {p : Icalproperty} {ps : List Icalproperty}
    (huid : c.inner (·.kind = .uid) = some (p :: ps)) (hne : p.value ≠ []) (hshort : Short p)
    (hcategories : c.inner (·.kind = .categories) = some [])
    (hcustoms : c.view anyKind isCustom = some []) : Attributed c where
  kind := hkind
  kinds := hkinds
  uid := ⟨p, ps, huid, hne, hshort⟩
  categories := ⟨[], hcategories, Nat.zero_le _, fun _ hp => absurd hp List.not_mem_nil⟩
  customs := ⟨[], hcustoms, List.nodup_nil, fun _ hp => absurd hp List.not_mem_nil⟩

theorem onlyKind_isCustom : OnlyKind .x isCustom := fun p hp => by
  unfold isCustom at hp
  rw [Bool.and_eq_true, decide_eq_true_eq] at hp
  exact hp.1

/-- A custom property is listed under an attribute exactly if it is kept under its key. -/
theorem listedName_eq_iff (hattrib : startsWithStr attrib (bytes "user.") = true)
    (p : Icalproperty) :
    isCustom p = true ∧ listedName p = attrib ↔ isXProp (customKey attrib) p = true := by
  obtain ⟨key, rfl⟩ := startsWithStr_iff.1 hattrib
  unfold isCustom listedName isXProp customKey
  rw [Bool.and_eq_true, decide_eq_true_eq, decide_eq_true_eq, startsWithStr_iff]
  change _ ↔ p.kind = .x ∧ p.xName = customPropertyPrefix ++ key
  constructor
  -- Both names are the same text behind different prefixes.
  · rintro ⟨⟨hx, rest, hname⟩, hlisted⟩
    rw [hname, List.drop_left] at hlisted
    exact ⟨hx, by rw [hname, List.append_cancel_left hlisted]⟩
  · rintro ⟨hx, hname⟩
    refine ⟨⟨hx, key, hname⟩, ?_⟩
    rw [hname, List.drop_left]

theorem customNames_eq {ps : List Icalproperty} (h : c.view anyKind isCustom = some ps) :
    customNames c = ps.map listedName := by
  rw [view_any] at h
  obtain ⟨a, ha, rfl⟩ := Option.map_eq_some_iff.1 h
  unfold customNames icalcomponentGetInnermost
  rw [ha]
  rfl

/-! ## What is listed is what is read -/

theorem mem_ite_singleton {x : CStr} {present : Prop} [Decidable present] :
    attrib ∈ (if present then [x] else []) ↔ present ∧ attrib = x := by
  split
  · rename_i h
    rw [List.mem_singleton, and_iff_right h]
  · rename_i h
    exact iff_of_false List.not_mem_nil fun hx => h hx.1

theorem mem_listedXattrs : attrib ∈ listedXattrs cfg c ↔
    (categoriesOf c ≠ [] ∧ attrib = bytes "user.categories") ∨
    ((dtstartOf cfg c).isSome ∧ attrib = bytes "user.dtstart") ∨
    attrib = bytes "user.uid" ∨
    ((classOf c).isSome ∧ attrib = bytes "user.class") ∨
    ((statusOf c).isSome ∧ attrib = bytes "user.status") ∨
    attrib ∈ customNames c := by
  unfold listedXattrs
  simp only [List.mem_append, mem_ite_singleton, List.mem_singleton, or_assoc]

/-- What is kept under the key of an attribute. -/
theorem xProps_customKey {ps : List Icalproperty} (h : c.view anyKind isCustom = some ps)
    (hattrib : startsWithStr attrib (bytes "user.") = true) :
    xProps c (customKey attrib) = ps.filter (listedName · = attrib) := by
  rw [view_any] at h
  obtain ⟨a, ha, rfl⟩ := Option.map_eq_some_iff.1 h
  unfold xProps
  rw [view_any, ha, Option.map_some, Option.getD_some, List.filter_filter]
  refine List.filter_congr fun p _ => Bool.eq_iff_iff.2 ?_
  rw [← listedName_eq_iff hattrib, Bool.and_eq_true, decide_eq_true_eq]
  exact and_comm

theorem Attributed.mem_customNames_iff (h : Attributed c)
    (hattrib : startsWithStr attrib (bytes "user.") = true) :
    attrib ∈ customNames c ↔ xProps c (customKey attrib) ≠ [] := by
  obtain ⟨ps, hps, _⟩ := h.customs
  rw [customNames_eq hps, xProps_customKey hps hattrib, List.mem_map, Ne, List.filter_eq_nil_iff]
  simp

theorem Attributed.notBuiltin_of_listed (h : Attributed c) (hmem : attrib ∈ customNames c) :
    attrib ∉ builtinXattrs := by
  obtain ⟨ps, hps, _, hall⟩ := h.customs
  rw [customNames_eq hps, List.mem_map] at hmem
  obtain ⟨p, hp, rfl⟩ := hmem
  exact (hall p hp).notBuiltin

theorem Attributed.isSome_getUid (h : Attributed c) : c.getUid.isSome := by
  obtain ⟨p, ps, hps, _⟩ := h.uid
  unfold getUid
  rw [getText_eq, hps]
  rfl

theorem builtin_or_custom_of_listed (hmem : attrib ∈ listedXattrs cfg c) :
    attrib ∈ builtinXattrs ∨ attrib ∈ customNames c := by
  rw [mem_listedXattrs] at hmem
  rcases hmem with ⟨_, rfl⟩ | ⟨_, rfl⟩ | rfl | ⟨_, rfl⟩ | ⟨_, rfl⟩ | hmem
  · exact .inl (by decide)
  · exact .inl (by decide)
  · exact .inl (by decide)
  · exact .inl (by decide)
  · exact .inl (by decide)
  · exact .inr hmem

theorem startsWith_of_mem_listedXattrs (hmem : attrib ∈ listedXattrs cfg c) :
    startsWithStr attrib (bytes "user.") = true := by
  have hbuiltins : ∀ a ∈ builtinXattrs, startsWithStr a (bytes "user.") = true := by decide
  rcases builtin_or_custom_of_listed hmem with hbuiltin | hcustom
  · exact hbuiltins attrib hbuiltin
  · obtain ⟨p, _, rfl⟩ := List.mem_map.1 hcustom
    exact startsWithStr_iff.2 ⟨_, rfl⟩

/-- The built-in attributes. -/
theorem Attributed.mem_listedXattrs_builtin (h : Attributed c) (hattrib : attrib ∈ builtinXattrs) :
    attrib ∈ listedXattrs cfg c ↔ (xattrOf cfg c attrib).isSome := by
  have hcustom : attrib ∉ customNames c := fun hmem => h.notBuiltin_of_listed hmem hattrib
  rw [mem_listedXattrs, iff_false_intro hcustom]
  unfold xattrOf
  simp only [builtinXattrs, List.mem_cons, List.not_mem_nil, or_false] at hattrib
  -- One test of each program is left.
  rcases hattrib with rfl | rfl | rfl | rfl | rfl
  · by_cases hcats : categoriesOf c = []
    · simp +decide [hcats]
    · simp +decide [hcats]
  · simp +decide [h.isSome_getUid]
  · simp +decide
  · simp +decide
  · simp +decide

/-- An attribute is listed exactly if it has a value. -/
theorem Attributed.mem_listedXattrs_iff (h : Attributed c) (attrib : CStr) :
    attrib ∈ listedXattrs cfg c ↔ (xattrOf cfg c attrib).isSome := by
  by_cases hbuiltin : attrib ∈ builtinXattrs
  · exact h.mem_listedXattrs_builtin hbuiltin
  have hne : attrib ≠ bytes "user.categories" ∧ attrib ≠ bytes "user.uid" ∧
      attrib ≠ bytes "user.class" ∧ attrib ≠ bytes "user.status" ∧ attrib ≠ bytes "user.dtstart" := by
    simpa [builtinXattrs] using hbuiltin
  by_cases hstarts : startsWithStr attrib (bytes "user.") = true
  · have hattrib : CustomXattr attrib := ⟨hstarts, hbuiltin⟩
    rw [xattrOf_custom hattrib, mem_listedXattrs, Option.isSome_map]
    simp only [hne, and_false, false_or]
    rw [h.mem_customNames_iff hstarts]
    cases xProps c (customKey attrib) <;> simp
  · refine iff_of_false (fun hmem => hstarts (startsWith_of_mem_listedXattrs hmem)) ?_
    unfold xattrOf
    simp [hne, hstarts]

/-- The names of different custom properties are listed differently. -/
theorem nodup_listedName {ps : List Icalproperty} (hps : ∀ p ∈ ps, isCustom p = true)
    (h : (ps.map (·.xName)).Nodup) : (ps.map listedName).Nodup := by
  refine List.Nodup.map_on (fun p hp p' hp' heq => ?_) h.of_map
  have hstarts : ∀ p ∈ ps, startsWithStr (listedName p) (bytes "user.") = true := fun p _ =>
    startsWithStr_iff.2 ⟨_, rfl⟩
  -- The property name is found again from the listed name.
  have hkey : ∀ p ∈ ps, p.xName = customKey (listedName p) := fun p hp => by
    have hx := (listedName_eq_iff (hstarts p hp) p).1 ⟨hps p hp, rfl⟩
    exact (of_decide_eq_true hx).2
  have hname : p.xName = p'.xName := by rw [hkey p hp, hkey p' hp', heq]
  exact List.inj_on_of_nodup_map h hp hp' hname

/-- Every attribute is listed once. -/
theorem Attributed.nodup_listedXattrs (h : Attributed c) : (listedXattrs cfg c).Nodup := by
  obtain ⟨ps, hps, hnodup, _⟩ := h.customs
  have hcustoms : (customNames c).Nodup := by
    rw [customNames_eq hps]
    exact nodup_listedName (fun p hp => view_prop hps hp) hnodup
  have hbuiltins : (bytes "user.categories" :: bytes "user.dtstart" :: bytes "user.uid" ::
      bytes "user.class" :: bytes "user.status" :: customNames c).Nodup := by
    have hne : ∀ a ∈ builtinXattrs, a ∉ customNames c := fun a ha hmem =>
      h.notBuiltin_of_listed hmem ha
    simp only [builtinXattrs, List.forall_mem_cons] at hne
    simp +decide [hne, hcustoms]
  have hite : ∀ (present : Prop) [Decidable present] (a : CStr),
      (if present then [a] else []).Sublist [a] := fun present _ a => by
    split
    · exact .refl _
    · exact List.nil_sublist _
  -- The list is all names without those that are absent.
  refine hbuiltins.sublist ?_
  exact (((((hite _ _).append (hite _ _)).append (.refl _)).append (hite _ _)).append
    (hite _ _)).append (.refl _)

/-- No listed name has a NUL. -/
theorem Attributed.string_of_listed (h : Attributed c) (hmem : attrib ∈ listedXattrs cfg c) :
    (0 : UInt8) ∉ attrib := by
  have hbuiltins : ∀ a ∈ builtinXattrs, (0 : UInt8) ∉ a := by decide
  rcases builtin_or_custom_of_listed hmem with hbuiltin | hcustom
  · exact hbuiltins attrib hbuiltin
  · obtain ⟨ps, hps, _, hall⟩ := h.customs
    rw [customNames_eq hps] at hcustom
    obtain ⟨p, hp, rfl⟩ := List.mem_map.1 hcustom
    unfold listedName
    rw [List.mem_append]
    rintro (hnul | hnul)
    · exact absurd hnul (by decide)
    · exact (hall p hp).string (List.mem_of_mem_drop hnul)

/-! ## Values are short -/

namespace Icalcomponent

mutual

/-- The component without the properties that have no text, at any depth. -/
def withoutEmpty : Icalcomponent → Icalcomponent
  | ⟨kind, properties, components⟩ =>
    ⟨kind, properties.filter (·.value ≠ []), withoutEmptyAll components⟩

/-- `withoutEmpty` on each component of a list. -/
def withoutEmptyAll : List Icalcomponent → List Icalcomponent
  | [] => []
  | c :: cs => c.withoutEmpty :: withoutEmptyAll cs

end

theorem withoutEmptyAll_eq_map (cs : List Icalcomponent) :
    withoutEmptyAll cs = cs.map withoutEmpty := by
  induction cs with
  | nil => rfl
  | cons c cs ih => rw [withoutEmptyAll, ih, List.map_cons]

theorem withoutEmpty_eq (c : Icalcomponent) :
    c.withoutEmpty =
      ⟨c.kind, c.properties.filter (·.value ≠ []), c.components.map withoutEmpty⟩ := by
  obtain ⟨kind, properties, components⟩ := c
  rw [withoutEmpty, withoutEmptyAll_eq_map]

theorem withoutEmpty_kind (c : Icalcomponent) : c.withoutEmpty.kind = c.kind := by
  rw [withoutEmpty_eq]

theorem withoutEmpty_kinds (c : Icalcomponent) : c.withoutEmpty.kinds = c.kinds := by
  unfold kinds
  rw [withoutEmpty_eq, List.map_map]
  exact List.map_congr_left fun a _ => withoutEmpty_kind a

theorem view_withoutEmpty (P : ComponentKind → Bool) (q : Icalproperty → Bool)
    (c : Icalcomponent) : c.withoutEmpty.view P q = (c.view P q).map (·.filter (·.value ≠ [])) := by
  have hkind : ((P ·.kind) ∘ withoutEmpty : Icalcomponent → Bool) = (P ·.kind) := by
    funext c
    exact congrArg P (withoutEmpty_kind c)
  unfold view
  rw [withoutEmpty_eq, List.find?_map, hkind, Option.map_map, Option.map_map]
  refine congrArg (Option.map · _) (funext fun a => ?_)
  rw [Function.comp_apply, withoutEmpty_eq, Function.comp_apply, List.filter_filter,
    List.filter_filter, List.filter_congr fun p _ => Bool.and_comm ..]

theorem inner_withoutEmpty (q : Icalproperty → Bool) (c : Icalcomponent) :
    c.withoutEmpty.inner q = (c.inner q).map (·.filter (·.value ≠ [])) := by
  unfold inner
  rw [withoutEmpty_kind]
  split
  · exact view_withoutEmpty _ q c
  · rw [withoutEmpty_eq, Option.map_some, List.filter_filter, List.filter_filter,
      List.filter_congr fun p _ => Bool.and_comm ..]

end Icalcomponent

/-- What the program relies on of libical here: the properties are read as they were written,
    but for those without a text, and printed texts are not much longer than their source. -/
structure Libical.Faithful (L : Libical Text) : Prop where
  newFromString_asIcalString : ∀ c, L.newFromString (L.asIcalString c) = some c.withoutEmpty
  length_valueAsString : ∀ v, (L.valueAsString v).length ≤ 2 * v.length
  length_timeFromString : ∀ {v time}, L.timeFromString v = some time → time.length ≤ 20

theorem length_formatIcalClass {iclass : IcalClass} {v : CStr}
    (h : formatIcalClass iclass = some v) : v.length ≤ 12 := by
  cases iclass <;> cases h <;> decide

theorem length_formatIcalStatus {istatus : IcalStatus} {v : CStr}
    (h : formatIcalStatus istatus = some v) : v.length ≤ 5 := by
  cases istatus <;> cases h <;> decide

theorem Attributed.length_categoriesOf (h : Attributed c) :
    (categoriesOf c).length < 64 * 1024 := by
  obtain ⟨ps, hps, hone, hshort⟩ := h.categories
  rw [categoriesOf_eq, hps, Option.getD_some]
  match ps with
  | [] => decide
  | [p] =>
    rw [List.map_singleton, List.intercalate_singleton]
    exact hshort p List.mem_cons_self
  | p :: p' :: ps => simp at hone

theorem Attributed.length_getUid (h : Attributed c) {v : CStr} (hv : c.getUid = some v) :
    v.length < 64 * 1024 := by
  obtain ⟨p, ps, hps, _, hshort⟩ := h.uid
  unfold getUid at hv
  rw [getText_eq, hps] at hv
  cases hv
  exact hshort

/-- The length of a value is an `int`. -/
theorem Attributed.length_xattrOf (h : Attributed c) (hL : cfg.ical.Faithful) {value : CStr}
    (hvalue : xattrOf cfg c attrib = some value) : value.length < 2 ^ 31 := by
  unfold xattrOf at hvalue
  split at hvalue
  · split at hvalue
    · cases hvalue
    · cases hvalue
      have := h.length_categoriesOf
      omega
  split at hvalue
  · have := h.length_getUid hvalue
    omega
  split at hvalue
  · obtain ⟨p, _, hp⟩ := Option.bind_eq_some_iff.1 hvalue
    have := length_formatIcalClass hp
    omega
  split at hvalue
  · obtain ⟨p, _, hp⟩ := Option.bind_eq_some_iff.1 hvalue
    have := length_formatIcalStatus hp
    omega
  split at hvalue
  · obtain ⟨v, _, htime⟩ := Option.bind_eq_some_iff.1 hvalue
    have := hL.length_timeFromString htime
    omega
  split at hvalue
  -- The printed text of a custom attribute may be twice as long as its value.
  · rename_i hstarts
    obtain ⟨ps, hps, _, hall⟩ := h.customs
    rw [getCustomXValue_eq, xProps_customKey hps hstarts] at hvalue
    obtain ⟨p, hp, rfl⟩ := Option.map_eq_some_iff.1 hvalue
    have hshort : p.value.length < 64 * 1024 :=
      (hall p (List.mem_of_mem_filter (List.mem_of_mem_head? hp))).short
    have := hL.length_valueAsString p.value
    omega
  · cases hvalue

/-! ## Edits -/

/-- An edit that leaves UID, categories and X properties alone. -/
def KeepsAttributes (f : Icalcomponent → Icalcomponent) : Prop :=
  ∀ κ q, OnlyKind κ q → κ ∈ [.uid, .categories, .x] → Keeps q f

theorem KeepsAttributes.comp {g : Icalcomponent → Icalcomponent} (hg : KeepsAttributes g)
    (hf : KeepsAttributes f) : KeepsAttributes (g ∘ f) := fun κ q hq hκ =>
  (hg κ q hq hκ).comp (hf κ q hq hκ)

theorem keepsAttributes_stamp (now : CStr) : KeepsAttributes (stamp now) := fun κ q hq hκ =>
  keeps_stamp hq ⟨fun h => by rw [h] at hκ; exact absurd hκ (by decide),
    fun h => by rw [h] at hκ; exact absurd hκ (by decide)⟩ now

/-- The properties of another kind are none of those. -/
theorem eq_false_of_kind {κ k : PropertyKind} (hq : OnlyKind κ q) (hκ : κ ∈ [.uid, .categories, .x])
    (hk : k ∉ [.uid, .categories, .x]) (p : Icalproperty) (hp : p.kind = k) : q p = false :=
  hq.eq_false fun heq => hk (hp ▸ heq ▸ hκ)

theorem keepsAttributes_removeFirst {k : PropertyKind} (hk : k ∉ [.uid, .categories, .x]) :
    KeepsAttributes (removeFirst (·.kind = k)) := fun _ _ hq hκ =>
  Keeps.removeFirst fun p hp => eq_false_of_kind hq hκ hk p (of_decide_eq_true hp)

theorem keepsAttributes_setFirstProperty {k : PropertyKind} (hk : k ∉ [.uid, .categories, .x])
    (v : CStr) : KeepsAttributes (modifyInner (setFirstProperty k v)) := fun _ _ hq hκ =>
  (Keeps.setFirstProperty (eq_false_of_kind hq hκ hk)).modifyInner

theorem keepsAttributes_setExistingProperty {k : PropertyKind}
    (hk : k ∉ [.uid, .categories, .x]) (v : CStr) :
    KeepsAttributes (modifyInner (setExistingProperty k v)) := fun _ _ hq hκ =>
  (Keeps.setExistingProperty (eq_false_of_kind hq hκ hk)).modifyInner

theorem KeepsAttributes.modifyInner (hf : KeepsAttributes f) :
    KeepsAttributes (Icalcomponent.modifyInner f) := fun κ q hq hκ => (hf κ q hq hκ).modifyInner

theorem Attributed.of_keeps (h : Attributed c) (hf : KeepsAttributes f) : Attributed (f c) := by
  have huid := hf _ _ (onlyKind_kind .uid) (by decide)
  have hcategories := hf _ _ (onlyKind_kind .categories) (by decide)
  have hcustoms := hf _ _ onlyKind_isCustom (by decide)
  exact {
    kind := (huid.kind c).trans h.kind
    kinds := (huid.kinds c).trans h.kinds
    uid := by
      rw [huid.inner]
      exact h.uid
    categories := by
      rw [hcategories.inner]
      exact h.categories
    customs := by
      rw [hcustoms.view]
      exact h.customs }

/-- What has a text is read back from the file. -/
theorem Attributed.withoutEmpty (h : Attributed c) : Attributed c.withoutEmpty := by
  refine ⟨(withoutEmpty_kind c).trans h.kind, (withoutEmpty_kinds c).trans h.kinds, ?_, ?_, ?_⟩
  -- The UID has a text, so it stays first.
  · obtain ⟨p, ps, hps, hne, hshort⟩ := h.uid
    refine ⟨p, ps.filter (·.value ≠ []), ?_, hne, hshort⟩
    rw [inner_withoutEmpty, hps, Option.map_some, List.filter_cons, if_pos (decide_eq_true hne)]
  · obtain ⟨ps, hps, hone, hshort⟩ := h.categories
    refine ⟨ps.filter (·.value ≠ []), ?_, ?_, fun p hp => hshort p (List.mem_of_mem_filter hp)⟩
    · rw [inner_withoutEmpty, hps, Option.map_some]
    · exact (List.length_filter_le ..).trans hone
  · obtain ⟨ps, hps, hnodup, hall⟩ := h.customs
    refine ⟨ps.filter (·.value ≠ []), ?_, ?_, fun p hp => hall p (List.mem_of_mem_filter hp)⟩
    · rw [view_withoutEmpty, hps, Option.map_some]
    · exact hnodup.sublist (List.filter_sublist.map _)

/-- What is read after a note has been written. -/
theorem Attributed.rewritten (h : Attributed c) (now : CStr) :
    Attributed (stamp now c).withoutEmpty := (h.of_keeps (keepsAttributes_stamp now)).withoutEmpty

/-! ## Categories -/

theorem length_cString_take (buf : List UInt8) (s : Nat) :
    (cString (buf.take s)).length ≤ (cString buf).length := by
  unfold cString
  induction buf generalizing s with
  | nil => simp
  | cons b buf ih =>
    cases s with
    | zero => simp
    | succ s =>
      rw [List.take_succ_cons, List.takeWhile_cons, List.takeWhile_cons]
      split
      · exact Nat.succ_le_succ (ih s)
      · exact Nat.le_refl _

theorem keeps_withCategories {κ : PropertyKind} (hq : OnlyKind κ q) (hκ : κ ≠ .categories)
    (value : List UInt8) (s : Nat) : Keeps q (withCategories value s) := by
  have hfilter : Keeps q fun c : Icalcomponent =>
      { c with properties := c.properties.filter (·.kind ≠ .categories) } :=
    Keeps.filterProperties fun p hp => decide_eq_true (hq.ne_categories hκ p hp)
  refine Keeps.modifyInner ?_
  by_cases hs : s = 0
  · simp only [if_pos hs]
    exact hfilter
  · simp only [if_neg hs]
    exact (Keeps.addProperty (hq.eq_false hκ.symm)).comp hfilter

/-- Setting the categories leaves at most one list of them. -/
theorem Attributed.withCategories (h : Attributed c) {value : List UInt8}
    (hvalue : (cString value).length < 64 * 1024) (s : Nat) :
    Attributed (withCategories value s c) := by
  have huid := keeps_withCategories (onlyKind_kind .uid) (by decide) value s
  have hcustoms := keeps_withCategories onlyKind_isCustom (by decide) value s
  refine ⟨(huid.kind c).trans h.kind, (huid.kinds c).trans h.kinds, ?_, ?_, ?_⟩
  · rw [huid.inner]
    exact h.uid
  -- The lists that were there are gone before the new one is added.
  · obtain ⟨ps, hps, _⟩ := h.categories
    rw [inner_eq] at hps
    obtain ⟨a, ha, _⟩ := Option.map_eq_some_iff.1 hps
    have hnone : (a.properties.filter (·.kind ≠ .categories)).filter (·.kind = .categories) = [] := by
      simp
    unfold Agendafs.withCategories
    rw [inner_modifyInner (fun c => by split <;> rfl), ha, Option.map_some]
    refine ⟨_, rfl, ?_⟩
    simp only
    split
    · rw [hnone]
      exact ⟨Nat.zero_le _, fun p hp => absurd hp List.not_mem_nil⟩
    · rw [addProperty, List.filter_append, hnone]
      refine ⟨Nat.le_refl _, fun p hp => ?_⟩
      obtain rfl : p = { kind := .categories, value := cString (value.take s) } := by simpa using hp
      exact (length_cString_take value s).trans_lt hvalue
  · rw [hcustoms.view]
    exact h.customs

/-! ## Custom attributes -/

theorem view_removeCustom (hc : c.kinds ≠ []) (key : CStr) :
    (icalcomponentRemoveCustomProp c key).view anyKind isCustom =
      (c.view anyKind isCustom).map (·.eraseP (isXProp (customPropertyPrefix ++ key))) := by
  have hcustom : ∀ p, isXProp (customPropertyPrefix ++ key) p = true → isCustom p = true := by
    intro p hp
    unfold isXProp at hp
    obtain ⟨hx, hname⟩ := of_decide_eq_true hp
    unfold isCustom
    rw [Bool.and_eq_true, decide_eq_true_eq]
    exact ⟨hx, startsWithStr_iff.2 ⟨key, hname⟩⟩
  -- The first property of the key among all is the first among the custom ones.
  unfold icalcomponentRemoveCustomProp icalcomponentRemoveXProp
  rw [modifyInnermost_eq hc, view_modifyFirstAny, view_any, Option.map_map]
  refine congrArg (Option.map · _) (funext fun a => ?_)
  rw [Function.comp_apply, List.eraseP_filter, removeFirst]
  refine congrArg (List.filter isCustom) (congrArg (List.eraseP · _) (funext fun p => ?_))
  cases hp : isXProp (customPropertyPrefix ++ key) p with
  | false => rfl
  | true => rw [hcustom p hp, Bool.true_and]

theorem view_setCustom (hc : c.kinds ≠ []) (key value : CStr) :
    (icalcomponentSetCustomXValue c key value).view anyKind isCustom =
      (c.view anyKind isCustom).map
        (·.eraseP (isXProp (customPropertyPrefix ++ key)) ++
          [⟨.x, customPropertyPrefix ++ key, none, value⟩]) := by
  have hremove : Keeps (fun _ => false)
      (modifyFirstAny (removeFirst (isXProp (customPropertyPrefix ++ key)))) :=
    (Keeps.removeFirst fun _ _ => rfl).modifyFirstAny
  have hcustom : isCustom ⟨.x, customPropertyPrefix ++ key, none, value⟩ = true := by
    unfold isCustom
    rw [Bool.and_eq_true, decide_eq_true_eq]
    exact ⟨rfl, startsWithStr_iff.2 ⟨key, rfl⟩⟩
  have hview := view_removeCustom hc key
  unfold icalcomponentRemoveCustomProp icalcomponentRemoveXProp at hview
  rw [modifyInnermost_eq hc] at hview
  unfold icalcomponentSetCustomXValue icalcomponentSetUniqueXValue icalcomponentRemoveXProp
  rw [modifyInnermost_eq hc, modifyInnermost_eq (by rw [hremove.kinds]; exact hc),
    view_addProperty hcustom, hview, Option.map_map]
  rfl

/-- The names of the other X properties. -/
theorem map_eraseP_isXProp {ps : List Icalproperty} (hps : ∀ p ∈ ps, isCustom p = true)
    (key : CStr) : (ps.eraseP (isXProp key)).map (·.xName) = (ps.map (·.xName)).erase key := by
  induction ps with
  | nil => rfl
  | cons p ps ih =>
    obtain ⟨hp, hrest⟩ := List.forall_mem_cons.1 hps
    rw [List.map_cons, List.erase_cons, List.eraseP_cons]
    have hx : isXProp key p = true ↔ p.xName = key := by
      unfold isXProp
      rw [decide_eq_true_eq, and_iff_right (onlyKind_isCustom p hp)]
    by_cases hname : p.xName = key
    · rw [hx.2 hname, if_pos (beq_iff_eq.2 hname)]
      rfl
    · rw [eq_false_of_ne_true (mt hx.1 hname), if_neg (by simpa using hname)]
      exact congrArg (p.xName :: ·) (ih hrest)

theorem Attributed.kinds_ne_nil (h : Attributed c) : c.kinds ≠ [] := by
  rw [h.kinds]
  decide

/-- An edit of X properties that keeps the names of custom attributes different. -/
theorem Attributed.of_customs (h : Attributed c)
    (hf : ∀ κ q, OnlyKind κ q → κ ≠ .x → Keeps q f)
    (hcustoms : ∀ ps, c.view anyKind isCustom = some ps → (ps.map (·.xName)).Nodup →
      (∀ p ∈ ps, CustomProp p) → ∃ ps', (f c).view anyKind isCustom = some ps' ∧
        (ps'.map (·.xName)).Nodup ∧ ∀ p ∈ ps', CustomProp p) : Attributed (f c) := by
  have huid := hf _ _ (onlyKind_kind .uid) (by decide)
  have hcategories := hf _ _ (onlyKind_kind .categories) (by decide)
  exact {
    kind := (huid.kind c).trans h.kind
    kinds := (huid.kinds c).trans h.kinds
    uid := by
      rw [huid.inner]
      exact h.uid
    categories := by
      rw [hcategories.inner]
      exact h.categories
    customs := by
      obtain ⟨ps, hps, hnodup, hall⟩ := h.customs
      exact hcustoms ps hps hnodup hall }

/-- Removing a custom attribute leaves the others. -/
theorem Attributed.removeCustom (h : Attributed c) (key : CStr) :
    Attributed (icalcomponentRemoveCustomProp c key) := by
  have hkeeps : ∀ κ q, OnlyKind κ q → κ ≠ .x → Keeps q (icalcomponentRemoveCustomProp · key) :=
    fun κ q hq hκ => (Keeps.removeFirst fun p hp => hq.eq_false (by
      rw [onlyKind_isXProp _ p hp]
      exact hκ.symm)).modifyInnermost
  refine h.of_customs (f := (icalcomponentRemoveCustomProp · key)) hkeeps
    fun ps hps hnodup hall => ?_
  rw [view_removeCustom h.kinds_ne_nil, hps, Option.map_some]
  exact ⟨_, rfl, hnodup.sublist (List.eraseP_sublist.map _), fun p hp =>
    hall p (List.mem_of_mem_eraseP hp)⟩

theorem customProp_customKey (hattrib : CustomXattr attrib) (hstring : (0 : UInt8) ∉ attrib)
    {text : CStr} (htext : text.length < 64 * 1024) :
    CustomProp ⟨.x, customPropertyPrefix ++ attrib.drop 5, none, text⟩ := by
  refine ⟨?_, ?_, htext⟩
  · have hlisted : listedName ⟨.x, customPropertyPrefix ++ attrib.drop 5, none, text⟩ = attrib :=
      ((listedName_eq_iff hattrib.starts _).2 (decide_eq_true ⟨rfl, rfl⟩)).2
    rw [hlisted]
    exact hattrib.notBuiltin
  · rw [List.mem_append]
    rintro (hnul | hnul)
    · exact absurd hnul (by decide)
    · exact hstring (List.mem_of_mem_drop hnul)

/-- Setting a custom attribute puts it in place of the one of its name. -/
theorem Attributed.setCustom (h : Attributed c) (hattrib : CustomXattr attrib)
    (hstring : (0 : UInt8) ∉ attrib) {text : CStr} (htext : text.length < 64 * 1024) :
    Attributed (icalcomponentSetCustomXValue c (attrib.drop 5) text) := by
  have hkeeps : ∀ κ q, OnlyKind κ q → κ ≠ .x →
      Keeps q (icalcomponentSetCustomXValue · (attrib.drop 5) text) := fun κ q hq hκ =>
    keeps_setUniqueXValue (fun p hp => hq.eq_false (by
      rw [onlyKind_isXProp _ p hp]
      exact hκ.symm)) text
  refine h.of_customs (f := (icalcomponentSetCustomXValue · (attrib.drop 5) text)) hkeeps
    fun ps hps hnodup hall => ?_
  rw [view_setCustom h.kinds_ne_nil, hps, Option.map_some]
  refine ⟨_, rfl, ?_, fun p hp => ?_⟩
  -- The key is taken out of the names before it is put behind them.
  · rw [List.map_append, map_eraseP_isXProp (fun p hp => view_prop hps hp)]
    exact List.nodup_append_comm.2
      (List.nodup_cons.2 ⟨hnodup.not_mem_erase, hnodup.erase _⟩)
  · rcases List.mem_append.1 hp with hp | hp
    · exact hall p (List.mem_of_mem_eraseP hp)
    · rw [List.mem_singleton] at hp
      subst hp
      exact customProp_customKey hattrib hstring htext

/-! ## The edits of the calls -/

/-- Whatever is set, the note stays so. -/
theorem attributed_setxattrEdit (h : Attributed c) (hstring : (0 : UInt8) ∉ attrib)
    {value : List UInt8} {s : Nat} (hf : setxattrEdit cfg attrib value s = some f) :
    Attributed (f c) := by
  unfold setxattrEdit at hf
  split at hf
  · cases hf
  rename_i hlen
  have hvalue : (cString value).length < 64 * 1024 := Nat.lt_of_not_le (not_or.1 hlen).2
  split at hf
  · cases hf
  rename_i hreserved
  split at hf
  · split at hf
    · cases hf
      exact h.of_keeps (keepsAttributes_removeFirst (by decide))
    · obtain ⟨time, _, rfl⟩ := Option.map_eq_some_iff.1 hf
      exact h.of_keeps (keepsAttributes_setFirstProperty (by decide) time)
  rename_i hdtstart
  split at hf
  · cases hf
    exact h.withCategories hvalue s
  rename_i hcategories
  split at hf
  · split at hf
    · cases hf
    · cases hf
      exact h.of_keeps (keepsAttributes_setExistingProperty (by decide) _)
  rename_i hclass
  split at hf
  · split at hf
    · cases hf
    · cases hf
      exact h.of_keeps (keepsAttributes_setFirstProperty (by decide) _)
  rename_i hstatus
  split at hf
  · rename_i hstarts
    cases hf
    -- The branches before have taken the built-in names.
    have hnot : attrib ∉ builtinXattrs := by
      simp only [builtinXattrs, List.mem_cons, List.not_mem_nil, or_false]
      rintro (hattrib | hattrib | hattrib | hattrib | hattrib)
      · exact hcategories hattrib
      · exact hreserved (.inl hattrib)
      · exact hclass hattrib
      · exact hstatus hattrib
      · exact hdtstart hattrib
    exact h.setCustom ⟨hstarts, hnot⟩ hstring hvalue
  · cases hf

/-- Whatever is removed, the note stays so. -/
theorem attributed_removexattrEdit (h : Attributed c)
    (hf : removexattrEdit attrib = some f) : Attributed (f c) := by
  unfold removexattrEdit at hf
  split at hf
  · cases hf
    exact h.withCategories (by decide) 0
  split at hf
  · cases hf
    exact h.of_keeps (keepsAttributes_removeFirst (by decide)).modifyInner
  split at hf
  · cases hf
  split at hf
  · cases hf
    exact h.of_keeps (keepsAttributes_removeFirst (by decide))
  split at hf
  · cases hf
    exact h.removeCustom _
  · cases hf

end Agendafs
