import Agendafs.Spec.XattrCalls

/-!
# Custom attributes and the file format

A custom attribute is kept in an X property whose name is the key of the
attribute behind a prefix. The key comes from the user and the line of the file
ends the name at the first colon or semicolon, and a property without text is
not written, so a key or a value may be lost on the way.

## Key results

- `Keeps.inner_restamped`, `Keeps.view_restamped`: what an edit leaves alone is read back
- `keepsNote_of_keeps`: setting a custom attribute leaves the others alone
- `setxattr_survives_iff`: when the value is read back
-/

namespace Agendafs

open Icalcomponent Store

variable {Text : Type} {cfg : Config Text} {w w' : World Text} {c : Icalcomponent}
  {q : Icalproperty → Bool} {κ : PropertyKind} {f : Icalcomponent → Icalcomponent}

/-! ## What an edit leaves alone is read back -/

/-- Reading back acts on the properties of each kind by themselves. -/
theorem view_kind_reread_eq (P : ComponentKind → Bool) (κ : PropertyKind) (c : Icalcomponent) :
    c.reread.view P (·.kind = κ) = (c.view P (·.kind = κ)).map rereadProperties := by
  rw [view_reread_eq, view, Option.map_map]
  exact congrArg (Option.map · _)
    (funext fun a => rereadProperties_filter_kind (· = κ) a.properties)

theorem inner_kind_reread_eq (κ : PropertyKind) (c : Icalcomponent) :
    c.reread.inner (·.kind = κ) = (c.inner (·.kind = κ)).map rereadProperties := by
  unfold Icalcomponent.inner
  rw [reread_kind]
  split
  · exact view_kind_reread_eq _ κ c
  · rw [Option.map_some, reread_properties, rereadProperties_filter_kind (· = κ)]

/-- The properties of a kind are read back, if they are such as the parser yields. -/
theorem inner_kind_reread
    (h : ∀ ps, c.inner (·.kind = κ) = some ps → ∀ p ∈ ps, parsedProperty p = true) :
    c.reread.inner (·.kind = κ) = c.inner (·.kind = κ) := by
  rw [inner_kind_reread_eq]
  cases hps : c.inner (·.kind = κ) with
  | none => rfl
  | some ps => exact congrArg some (rereadProperties_of_parsed (h ps hps))

theorem parsed_of_inner (hc : c.parsed = true) {ps : List Icalproperty}
    (hps : c.inner q = some ps) : ∀ p ∈ ps, parsedProperty p = true := by
  rw [inner_eq] at hps
  obtain ⟨a, ha, rfl⟩ := Option.map_eq_some_iff.1 hps
  intro p hp
  exact (allProperties_iff.1 (parsed_of_getInner hc ha)).1 p (List.mem_of_mem_filter hp)

/-- The properties of a kind that an edit leaves alone are read back. -/
theorem Icalcomponent.Keeps.inner_restamped (hf : Keeps (·.kind = κ) f)
    (hκ : κ ≠ .lastModified ∧ κ ≠ .description) (hc : c.parsed = true) (now : CStr) :
    (stamp now (f c)).reread.inner (·.kind = κ) = c.inner (·.kind = κ) := by
  have hkept : (stamp now (f c)).inner (·.kind = κ) = c.inner (·.kind = κ) := by
    rw [(keeps_stamp (onlyKind_kind κ) hκ now).inner, hf.inner]
  rw [inner_kind_reread fun ps hps => parsed_of_inner hc (hkept.symm.trans hps), hkept]

theorem Icalcomponent.Keeps.view_restamped (hf : Keeps q f) (h : OnlyKind κ q)
    (hκ : κ ≠ .lastModified ∧ κ ≠ .description ∧ κ ≠ .categories) (hc : c.parsed = true)
    (now : CStr) (P : ComponentKind → Bool) :
    (stamp now (f c)).reread.view P q = c.view P q := by
  rw [view_reread (h.ne_categories hκ.2.2), (keeps_stamp h ⟨hκ.1, hκ.2.1⟩ now).view, hf.view,
    view_filter_of_parsed hc]

theorem Icalcomponent.Keeps.getDescription_restamped (hf : Keeps (·.kind = .description) f)
    (hc : c.parsed = true) (now : CStr) :
    (stamp now (f c)).reread.getDescription = c.getDescription := by
  have hkept : descriptions (f c) = descriptions c := by
    unfold descriptions
    rw [hf.inner]
  have hhead : (descriptions c).head? ≠ some [] := fun hhead =>
    ne_nil_of_mem_descriptions hc [] (List.mem_of_mem_head? hhead) rfl
  rw [getDescription_eq, getDescription_eq, descriptions_reread, descriptions_stamp, hkept,
    if_neg hhead, List.filter_eq_self.2 fun d hd =>
      decide_eq_true (ne_nil_of_mem_descriptions hc d hd)]

/-! ## The note beside one attribute -/

/-- The texts, the relations, the kind and the extension of a note are as they were. -/
structure SameTexts (cfg : Config Text) (c c' : Icalcomponent) : Prop where
  uid : c'.getUid = c.getUid
  summary : c'.getSummary = c.getSummary
  description : c'.getDescription = c.getDescription
  relations : ∀ P, c'.view P (·.kind = .relatedTo) = c.view P (·.kind = .relatedTo)
  directory : isDirectoryComponent cfg.ical c' = isDirectoryComponent cfg.ical c
  extension : icalcomponentGetFileExtension cfg.ical c' = icalcomponentGetFileExtension cfg.ical c

/-- So are its attributes but for one. -/
structure KeepsNote (cfg : Config Text) (attrib : CStr) (c c' : Icalcomponent) : Prop
    extends SameTexts cfg c c' where
  others : ∀ a, a ≠ attrib → xattrOf cfg c' a = xattrOf cfg c a

/-- The name of the X property of a custom attribute. -/
def customKey (attrib : CStr) : CStr := customPropertyPrefix ++ attrib.drop 5

theorem getFirstProperty_inner (κ : PropertyKind) (c : Icalcomponent) :
    c.getInner.bind (·.getFirstProperty κ) = (c.inner (·.kind = κ)).bind (·.head?) := by
  rw [inner_eq, Option.bind_map]
  unfold getFirstProperty
  simp only [Function.comp_def, List.head?_filter]

theorem categoriesOf_eq (c : Icalcomponent) :
    categoriesOf c =
      [(44 : UInt8)].intercalate (((c.inner (·.kind = .categories)).getD []).map (·.value)) := by
  unfold categoriesOf joinCategories
  rw [inner_eq]
  cases c.getInner <;> rfl

theorem startsWithStr_iff {str pre : CStr} :
    startsWithStr str pre = true ↔ ∃ rest, str = pre ++ rest := by
  unfold startsWithStr
  rw [List.isPrefixOf_iff_prefix]
  exact ⟨fun ⟨rest, h⟩ => ⟨rest, h.symm⟩, fun ⟨rest, h⟩ => ⟨rest, h.symm⟩⟩

/-- Different custom attributes are kept under different names. -/
theorem customKey_inj {a b : CStr} (ha : startsWithStr a (bytes "user.") = true)
    (hb : startsWithStr b (bytes "user.") = true) (h : customKey a = customKey b) : a = b := by
  obtain ⟨x, rfl⟩ := startsWithStr_iff.1 ha
  obtain ⟨y, rfl⟩ := startsWithStr_iff.1 hb
  have hxy : x = y := List.append_cancel_left h
  rw [hxy]

/-- An edit of the X properties of one name leaves the rest of the note. -/
theorem keepsNote_of_keeps {attrib : CStr} (hattrib : startsWithStr attrib (bytes "user.") = true)
    (hf : ∀ q, (∀ p, isXProp (customKey attrib) p = true → q p = false) → Keeps q f)
    (hc : c.parsed = true) (now : CStr) :
    KeepsNote cfg attrib c (stamp now (f c)).reread := by
  -- `f` changes the properties under the key only, and the stamp those of two other kinds.
  have hkind : ∀ κ, κ ≠ .x → Keeps (·.kind = κ) f := fun κ hκ =>
    hf _ fun p hp => decide_eq_false fun h => hκ (h.symm.trans (onlyKind_isXProp _ p hp))
  have hx : ∀ key, key ≠ customKey attrib → Keeps (isXProp key) f := fun key hne =>
    hf _ fun p hp => by
      unfold isXProp at hp ⊢
      exact decide_eq_false fun h => hne (h.2.symm.trans (of_decide_eq_true hp).2)
  have hinner : ∀ κ, κ ≠ .x ∧ κ ≠ .lastModified ∧ κ ≠ .description →
      (stamp now (f c)).reread.inner (·.kind = κ) = c.inner (·.kind = κ) := fun κ hκ =>
    (hkind κ hκ.1).inner_restamped hκ.2 hc now
  have htext : ∀ κ, κ ≠ .x ∧ κ ≠ .lastModified ∧ κ ≠ .description →
      (stamp now (f c)).reread.getText κ = c.getText κ := fun κ hκ => by
    rw [getText_eq, getText_eq, hinner κ hκ]
  have hvalue : ∀ key, key ≠ customKey attrib →
      icalcomponentGetUniqXValue cfg.ical (stamp now (f c)).reread key =
        icalcomponentGetUniqXValue cfg.ical c key := fun key hne => by
    rw [icalcomponentGetUniqXValue_eq, icalcomponentGetUniqXValue_eq,
      (hx key hne).view_restamped (onlyKind_isXProp key) (by decide) hc now]
  -- The program's own X properties are not named like a custom attribute.
  have hnotCustom : ∀ key, startsWithStr key customPropertyPrefix = false →
      key ≠ customKey attrib := by
    intro key hkey heq
    rw [heq] at hkey
    exact Bool.false_ne_true (hkey.symm.trans (startsWithStr_iff.2 ⟨attrib.drop 5, rfl⟩))
  refine ⟨⟨htext .uid (by decide), htext .summary (by decide),
    (hkind .description (by decide)).getDescription_restamped hc now,
    (hkind .relatedTo (by decide)).view_restamped (onlyKind_kind _) (by decide) hc now, ?_, ?_⟩,
    fun a ha => ?_⟩
  · have hchild : Keeps (hasReltype (bytes "CHILD")) f := hf _ fun p hp =>
      (onlyKind_hasReltype _).eq_false (by rw [onlyKind_isXProp _ p hp]; decide)
    rw [isDirectoryComponent_eq, isDirectoryComponent_eq, hvalue _ (hnotCustom _ (by decide)),
      hchild.view_restamped (onlyKind_hasReltype _) (by decide) hc now]
  · unfold icalcomponentGetFileExtension
    rw [hvalue _ (hnotCustom _ (by decide))]
  · unfold xattrOf classOf statusOf dtstartOf icalcomponentGetCustomXValue
    simp only [categoriesOf_eq, getFirstProperty_inner, getUid, hinner .categories (by decide),
      hinner .classification (by decide), hinner .status (by decide), htext .uid (by decide),
      htext .dtstart (by decide)]
    -- All built-in branches are equal now.
    congr 5
    split
    · rename_i hstarts
      exact hvalue _ fun heq => ha (customKey_inj hstarts hattrib heq)
    · rfl

/-! ## Setting a custom attribute -/

/-- The attributes that have a branch of their own in `fuse_getxattr`. -/
def builtinXattrs : List CStr :=
  [bytes "user.categories", bytes "user.uid", bytes "user.class", bytes "user.status",
    bytes "user.dtstart"]

/-- The attribute has no branch of its own and is kept in an X property. -/
structure CustomXattr (attrib : CStr) : Prop where
  starts : startsWithStr attrib (bytes "user.") = true
  notBuiltin : attrib ∉ builtinXattrs

/-- The X properties of a name, in the component where they are looked for. -/
def xProps (c : Icalcomponent) (key : CStr) : List Icalproperty :=
  (c.view anyKind (isXProp key)).getD []

theorem CustomXattr.ne {attrib : CStr} (h : CustomXattr attrib) {a : CStr}
    (ha : a ∈ builtinXattrs) : attrib ≠ a := fun heq => h.notBuiltin (heq ▸ ha)

theorem getCustomXValue_eq (L : Libical Text) (c : Icalcomponent) (attrib : CStr) :
    icalcomponentGetCustomXValue L c (attrib.drop 5) =
      (xProps c (customKey attrib)).head?.map (L.valueAsString ·.value) := by
  unfold icalcomponentGetCustomXValue xProps
  rw [icalcomponentGetUniqXValue_eq]
  change Option.map _ ((c.view anyKind (isXProp (customKey attrib))).bind _) = _
  cases c.view anyKind (isXProp (customKey attrib)) <;> rfl

theorem xattrOf_custom {attrib : CStr} (h : CustomXattr attrib) (c : Icalcomponent) :
    xattrOf cfg c attrib =
      (xProps c (customKey attrib)).head?.map (cfg.ical.valueAsString ·.value) := by
  unfold xattrOf
  rw [if_neg (h.ne (by decide)), if_neg (h.ne (by decide)), if_neg (h.ne (by decide)),
    if_neg (h.ne (by decide)), if_neg (h.ne (by decide)), if_pos h.starts, getCustomXValue_eq]

theorem setxattrEdit_custom {attrib : CStr} (h : CustomXattr attrib) {value : List UInt8} {s : Nat}
    (hf : setxattrEdit cfg attrib value s = some f) :
    f = (icalcomponentSetCustomXValue · (attrib.drop 5) (cString value)) := by
  unfold setxattrEdit at hf
  rw [if_neg (h.ne (a := bytes "user.dtstart") (by decide)),
    if_neg (h.ne (a := bytes "user.categories") (by decide)),
    if_neg (h.ne (a := bytes "user.class") (by decide)),
    if_neg (h.ne (a := bytes "user.status") (by decide)), if_pos h.starts] at hf
  split at hf
  · cases hf
  · split at hf
    · cases hf
    · exact (Option.some.inj hf).symm

/-- The note takes the attribute: the line of the file ends its name where it should, the note has
    a component for it, and what is read first under the name is the value. -/
structure TakesXattr (cfg : Config Text) (c : Icalcomponent) (attrib text value : CStr) : Prop where
  key : ∀ b ∈ attrib, b ≠ 58 ∧ b ≠ 59 ∧ b ≠ 10 ∧ b ≠ 13
  inside : c.components ≠ []
  reads : match (xProps c (customKey attrib)).tail with
    | [] => text ≠ [] ∧ cfg.ical.valueAsString text = value
    | p :: _ => cfg.ical.valueAsString p.value = value

/-- The X property of a custom attribute. -/
def customProperty (attrib text : CStr) : Icalproperty :=
  { kind := .x, xName := customKey attrib, value := text }

theorem printable_customProperty {attrib : CStr} (h : startsWithStr attrib (bytes "user.") = true)
    (text : CStr) : (customProperty attrib text).printable = true ↔
      ∀ b ∈ attrib, b ≠ 58 ∧ b ≠ 59 ∧ b ≠ 10 ∧ b ≠ 13 := by
  obtain ⟨key, rfl⟩ := startsWithStr_iff.1 h
  have hclean : customPropertyPrefix.all
      (fun b => b ≠ 58 && b ≠ 59 && b ≠ 10 && b ≠ 13) = true := by decide
  have huser : (bytes "user.").all
      (fun b => b ≠ 58 && b ≠ 59 && b ≠ 10 && b ≠ 13) = true := by decide
  -- The prefixes are free of the four bytes, so only the key counts.
  have hdrop : (bytes "user." ++ key).drop 5 = key := rfl
  unfold Icalproperty.printable customProperty customKey
  simp only
  simp only [List.all_eq_true, Bool.and_eq_true, decide_eq_true_eq, and_assoc] at hclean huser
  simp only [hdrop, List.all_eq_true, Bool.and_eq_true, decide_eq_true_eq, and_assoc,
    List.forall_mem_append]
  rw [and_iff_right hclean, and_iff_right huser]

/-- What is kept under the name of an attribute after it has been set, written and read. -/
theorem xProps_restamped (hc : c.parsed = true) (attrib text now : CStr) :
    xProps (stamp now (icalcomponentSetCustomXValue c (attrib.drop 5) text)).reread
        (customKey attrib) =
      if c.components = [] then []
      else (xProps c (customKey attrib)).tail ++
        if text = [] then [] else [customProperty attrib text] := by
  have honly := onlyKind_isXProp (customKey attrib)
  unfold xProps
  rw [view_reread (honly.ne_categories (by decide)), (keeps_stamp honly (by decide) now).view]
  split
  -- A calendar without subcomponents has no place for the property.
  · rename_i hnil
    have hkinds : (icalcomponentSetCustomXValue c (attrib.drop 5) text).components = [] := by
      have hset : Keeps (fun _ => false)
          (icalcomponentSetUniqueXValue · (customKey attrib) text) :=
        keeps_setUniqueXValue (fun _ _ => rfl) text
      rw [← List.map_eq_nil_iff (f := (·.kind))]
      exact (hset.kinds c).trans (List.map_eq_nil_iff.2 hnil)
    unfold view
    rw [hkinds]
    rfl
  · rename_i hne
    have hview := view_setUniqueXValue (c := c) (mt List.map_eq_nil_iff.1 hne) (customKey attrib)
      text
    unfold icalcomponentSetCustomXValue
    change Option.getD (Option.map _ ((icalcomponentSetUniqueXValue c (customKey attrib) text).view
      anyKind (isXProp (customKey attrib)))) _ = _
    rw [hview]
    cases hps : c.view anyKind (isXProp (customKey attrib)) with
    | none =>
      rw [view_any, Option.map_eq_none_iff] at hps
      exact absurd (List.head?_eq_none_iff.1 hps) hne
    | some ps =>
      have htail : ps.tail.filter (·.value ≠ []) = ps.tail :=
        List.filter_eq_self.2 fun p hp =>
          decide_eq_true (value_ne_nil_of_parsed hc hps p (List.mem_of_mem_tail hp))
      simp only [Option.map_some, Option.getD_some]
      -- Only the new property may be empty, since the others were parsed.
      rw [List.filter_append, htail, List.filter_cons]
      by_cases htext : text = []
      · rw [if_pos htext, if_neg (by simpa using htext)]
        rfl
      · rw [if_neg htext, if_pos (by simpa using htext)]
        rfl

theorem xattrOf_restamped_iff {attrib : CStr} (h : CustomXattr attrib) (hc : c.parsed = true)
    (text now value : CStr) :
    xattrOf cfg (stamp now (icalcomponentSetCustomXValue c (attrib.drop 5) text)).reread attrib =
        some value ↔
      c.components ≠ [] ∧
        match (xProps c (customKey attrib)).tail with
        | [] => text ≠ [] ∧ cfg.ical.valueAsString text = value
        | p :: _ => cfg.ical.valueAsString p.value = value := by
  rw [xattrOf_custom h, xProps_restamped hc]
  by_cases hnil : c.components = []
  · rw [if_pos hnil]
    exact iff_of_false (fun heq => nomatch heq) fun hne => hne.1 hnil
  · rw [if_neg hnil, and_iff_right hnil]
    cases (xProps c (customKey attrib)).tail with
    -- A second property of the name is read in place of the new one.
    | cons p ps => exact ⟨Option.some.inj, congrArg some⟩
    | nil =>
      by_cases htext : text = []
      · rw [if_pos htext]
        exact iff_of_false (fun heq => nomatch heq) fun hne => hne.1 htext
      · rw [if_neg htext]
        exact ⟨fun heq => ⟨htext, Option.some.inj heq⟩, fun heq => congrArg some heq.2⟩

/-! ## What the calls tell of an attribute -/

/-- The whole value is handed over to every buffer with room for it and a NUL. -/
def World.ReadsXattr (cfg : Config Text) (w : World Text) (path attrib value : CStr) : Prop :=
  ∀ buf s, value.length < s → fuseGetxattr cfg path attrib buf s w =
    .ok (((value.length : Int), value ++ 0 :: buf.drop (value.length + 1)), w)

theorem handValue_of_lt {value : CStr} (hlength : value.length < 2 ^ 31) {s : Nat}
    (hs : value.length < s) (buf : List UInt8) :
    handValue value buf s = ((value.length : Int), value ++ 0 :: buf.drop (value.length + 1)) := by
  refine Prod.ext ?_ ?_
  · rw [handValue_fst]
    exact intOfSize_eq_iff.2 hlength
  · rw [handValue_snd, if_pos (by omega), snprintf_of_lt hs]

/-- An empty buffer with room for a value holds the value and a NUL. -/
theorem handValue_empty {value : CStr} {s : Nat} (hs : value.length < s) :
    (handValue value [] s).2 = value ++ [0] := by
  rw [handValue_snd, if_pos (Nat.zero_lt_of_lt hs), snprintf_of_lt hs, List.drop_nil]

/-- The bytes in a large empty buffer tell the value. -/
theorem getxattrResult_inj {o o' : Option Icalcomponent} {attrib : CStr}
    (h : ∀ buf s, getxattrResult cfg o attrib buf s = getxattrResult cfg o' attrib buf s) :
    o.bind (xattrOf cfg · attrib) = o'.bind (xattrOf cfg · attrib) := by
  cases hvalue : o.bind (xattrOf cfg · attrib) with
  | none =>
    cases hvalue' : o'.bind (xattrOf cfg · attrib) with
    | none => rfl
    | some value' =>
      have hempty := getxattrResult_of_none hvalue
        ((h [] (value'.length + 1)).trans (getxattrResult_of_some hvalue' ..))
      rw [handValue_empty (Nat.lt_succ_self _)] at hempty
      exact absurd hempty (by simp)
  | some value =>
    cases hvalue' : o'.bind (xattrOf cfg · attrib) with
    | none =>
      have hempty := getxattrResult_of_none hvalue'
        ((h [] (value.length + 1)).symm.trans (getxattrResult_of_some hvalue ..))
      rw [handValue_empty (Nat.lt_succ_self _)] at hempty
      exact absurd hempty (by simp)
    -- The buffer has room for either value.
    | some value' =>
      have hbytes := h [] (value.length + value'.length + 1)
      rw [getxattrResult_of_some hvalue, getxattrResult_of_some hvalue'] at hbytes
      have hbuf := congrArg Prod.snd (Except.ok.inj hbytes)
      rw [handValue_empty (by omega), handValue_empty (by omega)] at hbuf
      rw [List.append_cancel_right hbuf]

section Calls

variable {path attrib value : CStr} {n : NodeId}

theorem readsXattr_iff (h : w.store.Inv) (hn : w.ReadsAt cfg path n)
    (hlength : value.length < 2 ^ 31) :
    w.ReadsXattr cfg path attrib value ↔
      (w.component cfg n).bind (xattrOf cfg · attrib) = some value := by
  have hrun := fuseGetxattr_run h hn attrib
  unfold World.ReadsXattr
  cases hfound : (w.component cfg n).bind (xattrOf cfg · attrib) with
  | none =>
    -- Without a value the empty buffer stays empty.
    refine iff_of_false (fun hall => ?_) (fun heq => nomatch heq)
    have hbytes := (hrun [] (value.length + 1)).symm.trans (hall [] _ (Nat.lt_succ_self _))
    cases hresult : getxattrResult cfg (w.component cfg n) attrib [] (value.length + 1) with
    | error e =>
      rw [hresult] at hbytes
      cases hbytes
    | ok r =>
      rw [hresult] at hbytes
      have hempty := getxattrResult_of_none hfound hresult
      cases hbytes
      exact absurd hempty (by simp)
  | some value' =>
    have hhanded : ∀ buf s, fuseGetxattr cfg path attrib buf s w =
        .ok (handValue value' buf s, w) := fun buf s => by
      rw [hrun, getxattrResult_of_some hfound]
      rfl
    constructor
    · intro hall
      have hbytes := (hhanded [] (value.length + value'.length + 1)).symm.trans
        (hall [] _ (by omega))
      have hbuf := congrArg (·.1.2) (Except.ok.inj hbytes)
      dsimp only at hbuf
      rw [handValue_empty (by omega), List.drop_nil] at hbuf
      rw [List.append_cancel_right hbuf]
    · intro heq buf s hs
      cases heq
      rw [hhanded, handValue_of_lt hlength hs]

/-- The value has arrived, and nothing else in the note is different. -/
structure XattrSurvives (cfg : Config Text) (w w' : World Text) (path k attrib value : CStr) :
    Prop where
  reads : w'.ReadsXattr cfg path attrib value
  others : ∀ a, a ≠ attrib → ∀ buf s,
    (fuseGetxattr cfg path a buf s w').map (·.1) = (fuseGetxattr cfg path a buf s w).map (·.1)
  texts : ∃ c c', w.fileComponent cfg k = some c ∧ w'.fileComponent cfg k = some c' ∧
    SameTexts cfg c c'

/-- Seen in the files. -/
theorem xattrSurvives_iff {k : CStr} (h : w.store.Inv) (h' : w'.store.Inv)
    (hn : w.OpensAt cfg path n k) (hn' : w'.OpensAt cfg path n k)
    (hlength : value.length < 2 ^ 31) (hc : w.fileComponent cfg k = some c) :
    XattrSurvives cfg w w' path k attrib value ↔
      ∃ c', w'.fileComponent cfg k = some c' ∧ xattrOf cfg c' attrib = some value ∧
        KeepsNote cfg attrib c c' := by
  have hreads : w'.ReadsXattr cfg path attrib value ↔ _ :=
    readsXattr_iff h' hn'.readsAt hlength
  rw [hn'.component] at hreads
  have hget : ∀ a buf s, (fuseGetxattr cfg path a buf s w).map (·.1) =
      getxattrResult cfg (w.fileComponent cfg k) a buf s := fun a buf s => by
    rw [fuseGetxattr_run h hn.readsAt, hn.component]
    cases getxattrResult cfg (w.fileComponent cfg k) a buf s <;> rfl
  have hget' : ∀ a buf s, (fuseGetxattr cfg path a buf s w').map (·.1) =
      getxattrResult cfg (w'.fileComponent cfg k) a buf s := fun a buf s => by
    rw [fuseGetxattr_run h' hn'.readsAt, hn'.component]
    cases getxattrResult cfg (w'.fileComponent cfg k) a buf s <;> rfl
  -- Both calls are functions of what the files hold.
  constructor
  · rintro ⟨hvalue, hothers, c₀, c', hc₀, hc', htexts⟩
    cases hc.symm.trans hc₀
    rw [hreads, hc'] at hvalue
    refine ⟨c', hc', hvalue, htexts, fun a ha => ?_⟩
    have hresults := getxattrResult_inj fun buf s =>
      (hget' a buf s).symm.trans ((hothers a ha buf s).trans (hget a buf s))
    rw [hc, hc'] at hresults
    exact hresults
  · rintro ⟨c', hc', hvalue, hkeeps⟩
    refine ⟨?_, fun a ha buf s => ?_, c, c', hc, hc', hkeeps.toSameTexts⟩
    · rw [hreads, hc']
      exact hvalue
    · rw [hget, hget', hc, hc']
      unfold getxattrResult
      rw [Option.bind_some, Option.bind_some, hkeeps.others a ha]

end Calls

/-! ## The round trip -/

section RoundTrip

variable {path attrib : CStr} {n : NodeId} {k : CStr}

theorem World.OpensAt.wrote (hn : w.OpensAt cfg path n k) (ic : Icalcomponent) :
    (w.wrote cfg k ic).OpensAt cfg path n k where
  segments := hn.segments
  found := hn.found
  file := hn.file
  readable := readable_wrote hn.readable ic

/-- What is read after the attribute has been set and written. -/
theorem survives_written_iff (hL : cfg.ical.Lawful) (ho : w.outcome = .written)
    (h : CustomXattr attrib) (hc : w.fileComponent cfg k = some c) (text value : CStr) :
    (∃ c', (w.wrote cfg k (icalcomponentSetCustomXValue c (attrib.drop 5) text)).fileComponent cfg k =
        some c' ∧ xattrOf cfg c' attrib = some value ∧ KeepsNote cfg attrib c c') ↔
      TakesXattr cfg c attrib text value := by
  have hparsed := parsed_of_fileComponent hL hc
  by_cases hkey : ∀ b ∈ attrib, b ≠ 58 ∧ b ≠ 59 ∧ b ≠ 10 ∧ b ≠ 13
  · have hprintable : (icalcomponentSetCustomXValue c (attrib.drop 5) text).printable = true :=
      printable_setUniqueXValue ((printable_customProperty h.starts []).2 hkey) text c
        (printable_of_parsed hparsed)
    have hset : ∀ q, (∀ p, isXProp (customKey attrib) p = true → q p = false) →
        Keeps q (icalcomponentSetCustomXValue · (attrib.drop 5) text) := fun q hq =>
      keeps_setUniqueXValue hq text
    rw [fileComponent_wrote hL hprintable ho]
    constructor
    · rintro ⟨c', hc', hvalue, _⟩
      cases hc'
      obtain ⟨hinside, hreads⟩ := (xattrOf_restamped_iff h hparsed _ _ _).1 hvalue
      exact ⟨hkey, hinside, hreads⟩
    · intro htakes
      exact ⟨_, rfl, (xattrOf_restamped_iff h hparsed _ _ _).2 ⟨htakes.inside, htakes.reads⟩,
        keepsNote_of_keeps h.starts hset hparsed w.now⟩
  -- The parser yields no property of such a name.
  · refine iff_of_false ?_ fun htakes => hkey htakes.key
    rintro ⟨c', hc', hvalue, _⟩
    rw [xattrOf_custom h] at hvalue
    obtain ⟨p, hp, _⟩ := Option.map_eq_some_iff.1 hvalue
    have hmem := List.mem_of_mem_head? hp
    unfold xProps at hmem
    cases hps : c'.view anyKind (isXProp (customKey attrib)) with
    | none =>
      rw [hps] at hmem
      exact absurd hmem List.not_mem_nil
    | some ps =>
      rw [hps, Option.getD_some] at hmem
      have hname : p.xName = customKey attrib := by
        have hx := view_prop hps hmem
        unfold isXProp at hx
        exact (of_decide_eq_true hx).2
      have hprintable : p.printable = true := by
        have hp := parsedProperty_of_view (parsed_of_fileComponent hL hc') hps p hmem
        simp only [parsedProperty, Bool.and_eq_true] at hp
        exact hp.1.1
      refine hkey ((printable_customProperty h.starts []).1 ?_)
      unfold Icalproperty.printable at hprintable ⊢
      rw [hname] at hprintable
      exact hprintable

/-- After `fuse_setxattr` has returned 0 for a custom attribute, `fuse_getxattr` returns the value
    and nothing else has changed exactly if the note takes the attribute, or a write that was cut
    short has left a note of which this is true. -/
theorem setxattr_survives_iff (hL : cfg.ical.Lawful) (h : Reachable cfg w)
    (hn : w.OpensAt cfg path n k) (hattrib : CustomXattr attrib) {value : List UInt8}
    {s flags : Nat} (hsize : s < 64 * 1024)
    (hrun : fuseSetxattr cfg path attrib value s flags w = .ok (0, w')) :
    XattrSurvives cfg w w' path k attrib (value.take s) ↔
      ∃ c, w.fileComponent cfg k = some c ∧
        match w.outcome with
        | .openFailed => False
        | .written => TakesXattr cfg c attrib (cString value) (value.take s)
        | .writeFailed left => ∃ c', cfg.ical.newFromString left = some c' ∧
          xattrOf cfg c' attrib = some (value.take s) ∧ KeepsNote cfg attrib c c' := by
  have hinv := h.sound.toInv
  have hlength : (value.take s).length < 2 ^ 31 := by
    rw [List.length_take]
    omega
  obtain ⟨e, he, hk⟩ := hn.entry
  have hedited : Edited cfg w (.setxattr path attrib value s flags) 0 w' :=
    (wp_fuseSetxattr hinv path attrib value s flags).ok hrun
  -- The call makes one edit, that of the custom attribute.
  have hedit : ∀ n' f, w.edit cfg (.setxattr path attrib value s flags) = some (n', f) →
      n' = n ∧ f = (icalcomponentSetCustomXValue · (attrib.drop 5) (cString value)) := by
    intro n' f hf
    obtain ⟨hnode, hset⟩ := edit_setxattr hn.found hf
    exact ⟨hnode, setxattrEdit_custom hattrib hset⟩
  generalize hstatus : (0 : Int) = status at hedited
  cases hedited with
  | rejected _ hs => exact absurd hs (by rw [← hstatus]; decide)
  | notOpened => exact absurd hstatus (by decide)
  -- A note that does not parse has no attribute.
  | noComponent hf hc =>
    obtain ⟨rfl, _⟩ := hedit _ _ hf
    rw [hn.component] at hc
    refine iff_of_false (fun hsurvives => ?_) fun htaken => ?_
    · obtain ⟨_, _, hc', _⟩ := hsurvives.texts
      cases hc.symm.trans hc'
    · obtain ⟨_, hc', _⟩ := htaken
      cases hc.symm.trans hc'
  | @written _ _ e' c hf he' hc =>
    obtain ⟨rfl, rfl⟩ := hedit _ _ hf
    cases he.symm.trans he'
    subst hk
    rw [component_of_entry he] at hc
    have hinv' : (w.wrote cfg e.filenameVdir (icalcomponentSetCustomXValue c (attrib.drop 5)
        (cString value))).store.Inv := hinv
    rw [xattrSurvives_iff hinv hinv' hn (hn.wrote _) hlength hc]
    simp only [hc, Option.some.injEq, exists_eq_left']
    cases ho : w.outcome with
    -- Then the call has returned `-EIO`.
    | openFailed =>
      rw [ho] at hstatus
      have hzero : (0 : Int) = - EIO := hstatus
      exact absurd hzero (by decide)
    | written => exact survives_written_iff hL ho hattrib hc (cString value) (value.take s)
    | writeFailed left =>
      rw [fileComponent_writeFailed ho]

end RoundTrip

theorem nestedNote_opensAt :
    (sampleMount nestedNote {}).OpensAt sampleConfig (bytes "/Dir/Note.txt") 2 (bytes "n.ics") where
  segments := by decide +kernel
  found := by decide +kernel
  file := by decide +kernel
  readable := (Option.any_eq_true ..).1 (by decide +kernel)

/-- The state after an attribute of the note in the directory has been set. -/
def setNested (attrib text : CStr) : World Icalcomponent :=
  (fuseSetxattr sampleConfig (bytes "/Dir/Note.txt") attrib (text ++ [0]) text.length 0).final
    (sampleMount nestedNote {})

theorem setNested_run (attrib text : CStr)
    (h : (fuseSetxattr sampleConfig (bytes "/Dir/Note.txt") attrib (text ++ [0]) text.length 0).check
      (sampleMount nestedNote {}) (fun status _ => decide (status = 0)) = true) :
    fuseSetxattr sampleConfig (bytes "/Dir/Note.txt") attrib (text ++ [0]) text.length 0
      (sampleMount nestedNote {}) = .ok (0, setNested attrib text) := by
  obtain ⟨status, hrun, hstatus⟩ := Prog.run_of_check h
  rw [hrun, of_decide_eq_true hstatus]
  rfl

/-- An attribute that has been set can be read. -/
example : (fuseGetxattr sampleConfig (bytes "/Dir/Note.txt") (bytes "user.color") [] 4).check
    (setNested (bytes "user.color") (bytes "red"))
    (fun r _ => decide (r = (3, bytes "red" ++ [0]))) = true := by decide +kernel

theorem setxattr_survives_iff_nestedNote :
    XattrSurvives sampleConfig (sampleMount nestedNote {}) (setNested (bytes "user.color")
      (bytes "red")) (bytes "/Dir/Note.txt") (bytes "n.ics") (bytes "user.color") (bytes "red") := by
  have hrun := setNested_run (bytes "user.color") (bytes "red") (by decide +kernel)
  refine (setxattr_survives_iff structuralIcal_lawful reachable_nestedNote nestedNote_opensAt
    ⟨by decide, by decide⟩ (by decide) hrun).2 ?_
  have hcheck : ((sampleMount nestedNote {}).fileComponent sampleConfig (bytes "n.ics")).any
      (fun c => decide (c.components.length ≠ 0 ∧
        xProps c (customKey (bytes "user.color")) = [])) = true := by decide +kernel
  obtain ⟨c, hc, hnote⟩ := (Option.any_eq_true ..).1 hcheck
  obtain ⟨hinside, hnone⟩ := of_decide_eq_true hnote
  have hclean := (printable_customProperty (by decide) []).1
    (show (customProperty (bytes "user.color") []).printable = true from by decide)
  refine ⟨c, hc, hclean, fun hnil => hinside (by rw [hnil]; rfl), ?_⟩
  rw [hnone]
  exact ⟨by decide, rfl⟩

/-- A key with a colon ends the name of the property before its end. -/
theorem not_all_setxattr_survive :
    ¬ ∀ (w w' : World Icalcomponent) (path k attrib : CStr) (n : NodeId) (value : List UInt8)
      (s flags : Nat), Reachable sampleConfig w → w.OpensAt sampleConfig path n k →
      CustomXattr attrib → attrib.length < 256 → s < 64 * 1024 → (0 : UInt8) ∉ value.take s →
      (value.drop s).head? = some 0 →
      fuseSetxattr sampleConfig path attrib value s flags w = .ok (0, w') →
        XattrSurvives sampleConfig w w' path k attrib (value.take s) := by
  intro hall
  have hrun := setNested_run (bytes "user.a:b") (bytes "v") (by decide +kernel)
  have hsurvives := hall _ _ _ _ _ 2 _ _ 0 reachable_nestedNote nestedNote_opensAt
    ⟨by decide, by decide⟩ (by decide) (by decide) (by decide) (by decide) hrun
  -- The file has a property with the name before the colon, and none is found under the key.
  have hread := hsurvives.reads [] 2 (by decide)
  have hlost : (fuseGetxattr sampleConfig (bytes "/Dir/Note.txt") (bytes "user.a:b") [] 2).check
      (setNested (bytes "user.a:b") (bytes "v")) (fun r _ => decide (0 < r.1)) = false := by
    decide +kernel
  rw [Prog.check_run hread] at hlost
  exact absurd hlost (by decide)

end Agendafs
