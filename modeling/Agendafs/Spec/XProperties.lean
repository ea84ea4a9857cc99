import Agendafs.Spec.CustomXattrs

/-!
# The X properties as a map

A value is looked up as that of the first X property of its name in the first
subcomponent. Setting it removes the first property of that name and appends a
new one; removing it does only the first half, since the loop of the source is
left after the first hit. So these are the operations of a map where a name
occurs at most once.

## Key results

- `xProps_setUniqueXValue`, `xProps_removeXProp`: the properties of the name itself
- `othersKept_setUniqueXValue`, `othersKept_removeXProp`: everything else
- `x_properties_map_iff`
-/

namespace Agendafs

open Icalcomponent

variable {Text : Type} {c c' : Icalcomponent} {key : CStr} {f : Icalcomponent → Icalcomponent}

/-! ## The properties of the name -/

/-- The value of a name is that of its first property. -/
theorem getUniqXValue_eq_xProps (L : Libical Text) (c : Icalcomponent) (key : CStr) :
    icalcomponentGetUniqXValue L c key = (xProps c key).head?.map (L.valueAsString ·.value) := by
  unfold xProps
  rw [icalcomponentGetUniqXValue_eq]
  cases c.view anyKind (isXProp key) <;> rfl

theorem xProps_of_no_components (h : c.components = []) (key : CStr) : xProps c key = [] := by
  unfold xProps Icalcomponent.view
  rw [h]
  rfl

theorem view_some_of_components (h : c.components ≠ []) (q : Icalproperty → Bool) :
    ∃ ps, c.view anyKind q = some ps := by
  rw [view_any]
  unfold getFirstAnyComponent
  cases hc : c.components with
  | nil => exact absurd hc h
  | cons a as => exact ⟨_, rfl⟩

/-- Removing a name removes its first property. -/
theorem xProps_removeXProp (h : c.components ≠ []) (key : CStr) :
    xProps (icalcomponentRemoveXProp c key) key = (xProps c key).tail := by
  obtain ⟨ps, hps⟩ := view_some_of_components h (isXProp key)
  unfold xProps icalcomponentRemoveXProp
  rw [modifyInnermost_eq (mt List.map_eq_nil_iff.1 h), view_removeFirst, hps]
  rfl

/-- Setting a name removes its first property and puts the new one behind the others. -/
theorem xProps_setUniqueXValue (h : c.components ≠ []) (key value : CStr) :
    xProps (icalcomponentSetUniqueXValue c key value) key =
      (xProps c key).tail ++ [{ kind := .x, xName := key, value := value }] := by
  obtain ⟨ps, hps⟩ := view_some_of_components h (isXProp key)
  unfold xProps
  rw [view_setUniqueXValue (mt List.map_eq_nil_iff.1 h), hps]
  rfl

/-! ## Everything else -/

/-- An edit of the X properties of one name: all other properties of the component and of its
    first subcomponent are the same in the same order, and so are the values of other names and
    the other subcomponents. -/
structure OthersKept (L : Libical Text) (key : CStr) (c c' : Icalcomponent) : Prop where
  kind : c'.kind = c.kind
  own : c'.properties.filter (!isXProp key ·) = c.properties.filter (!isXProp key ·)
  first : c'.getFirstAnyComponent.map (fun a => (a.kind, a.properties.filter (!isXProp key ·))) =
    c.getFirstAnyComponent.map fun a => (a.kind, a.properties.filter (!isXProp key ·))
  rest : c'.components.tail = c.components.tail
  values : ∀ other, other ≠ key →
    icalcomponentGetUniqXValue L c' other = icalcomponentGetUniqXValue L c other

theorem isXProp_disjoint {other : CStr} (h : other ≠ key) {p : Icalproperty}
    (hp : isXProp key p = true) : isXProp other p = false := by
  unfold isXProp at hp ⊢
  have hname := (of_decide_eq_true hp).2
  exact decide_eq_false fun hother => h (hother.2.symm.trans hname)

/-- Two edits one after the other. -/
theorem OthersKept.trans {L : Libical Text} {d : Icalcomponent} (h : OthersKept L key c c')
    (h' : OthersKept L key c' d) : OthersKept L key c d where
  kind := h'.kind.trans h.kind
  own := h'.own.trans h.own
  first := h'.first.trans h.first
  rest := h'.rest.trans h.rest
  values other hother := (h'.values other hother).trans (h.values other hother)

/-- An edit of the properties of a component that leaves those of other names alone does so where
    `icalcomponent_get_innermost` finds its component. -/
theorem othersKept_modifyInnermost (L : Libical Text) (hkind : ∀ a, (f a).kind = a.kind)
    (hcomponents : ∀ a, (f a).components = a.components)
    (hf : ∀ q, (∀ p, isXProp key p = true → q p = false) → Keeps q f) (c : Icalcomponent) :
    OthersKept L key c (modifyInnermost f c) := by
  have hothers : Keeps (!isXProp key ·) f := hf _ fun p hp => by rw [hp]; rfl
  have hvalues : ∀ other, other ≠ key →
      icalcomponentGetUniqXValue L (modifyInnermost f c) other =
        icalcomponentGetUniqXValue L c other := fun other hother => by
    have hkeeps : Keeps (isXProp other) f := hf _ fun p hp => isXProp_disjoint hother hp
    rw [icalcomponentGetUniqXValue_eq, icalcomponentGetUniqXValue_eq, hkeeps.modifyInnermost.view]
  refine ⟨hothers.modifyInnermost.kind c, hothers.modifyInnermost.own c, ?_, ?_, hvalues⟩
  · unfold modifyInnermost
    split
    · rename_i hnil
      rw [getFirstAnyComponent, getFirstAnyComponent, hcomponents]
    · cases hc : c.components with
      | nil => simp [getFirstAnyComponent, modifyFirstAny, hc, modifyFirst]
      | cons a as =>
        simp [getFirstAnyComponent, modifyFirstAny, hc, modifyFirst, hkind, hothers.own a]
  · unfold modifyInnermost
    split
    · rw [hcomponents]
    · cases hc : c.components with
      | nil => simp [modifyFirstAny, hc, modifyFirst]
      | cons a as => simp [modifyFirstAny, hc, modifyFirst]

theorem othersKept_removeXProp (L : Libical Text) (c : Icalcomponent) (key : CStr) :
    OthersKept L key c (icalcomponentRemoveXProp c key) :=
  othersKept_modifyInnermost (f := removeFirst (isXProp key)) L (fun _ => rfl) (fun _ => rfl)
    (fun _ hq => Keeps.removeFirst hq) c

theorem othersKept_setUniqueXValue (L : Libical Text) (c : Icalcomponent) (key value : CStr) :
    OthersKept L key c (icalcomponentSetUniqueXValue c key value) := by
  refine (othersKept_removeXProp L c key).trans ?_
  have hnew : isXProp key { kind := .x, xName := key, value := value } = true :=
    decide_eq_true ⟨rfl, rfl⟩
  exact othersKept_modifyInnermost (f := addProperty _) L (fun _ => rfl) (fun _ => rfl)
    (fun q hq => Keeps.addProperty (hq _ hnew)) _

/-! ## The laws of a map -/

/-- What a map does on setting and on removing a key. -/
structure XMapLaws (L : Libical Text) (c : Icalcomponent) (key value : CStr) : Prop where
  get_set : icalcomponentGetUniqXValue L (icalcomponentSetUniqueXValue c key value) key = some value
  get_remove : icalcomponentGetUniqXValue L (icalcomponentRemoveXProp c key) key = none
  set_others : OthersKept L key c (icalcomponentSetUniqueXValue c key value)
  remove_others : OthersKept L key c (icalcomponentRemoveXProp c key)

/-- The X properties are a map at a key exactly if there is a subcomponent to put them in, the key
    occurs at most once in it, and libical prints the value as it is. -/
theorem x_properties_map_iff (L : Libical Text) (c : Icalcomponent) (key value : CStr) :
    XMapLaws L c key value ↔
      c.components ≠ [] ∧ (xProps c key).length ≤ 1 ∧ L.valueAsString value = value := by
  have hnoComponents : c.components = [] →
      icalcomponentGetUniqXValue L (icalcomponentSetUniqueXValue c key value) key = none := by
    intro hnil
    have hkinds : (icalcomponentSetUniqueXValue c key value).components = [] := by
      unfold icalcomponentSetUniqueXValue icalcomponentRemoveXProp modifyInnermost
      rw [if_pos hnil, if_pos (by exact hnil)]
      exact hnil
    rw [getUniqXValue_eq_xProps, xProps_of_no_components hkinds]
    rfl
  constructor
  · intro h
    have hne : c.components ≠ [] := fun hnil => by
      exact nomatch (hnoComponents hnil).symm.trans h.get_set
    have hset := h.get_set
    have hremove := h.get_remove
    rw [getUniqXValue_eq_xProps, xProps_setUniqueXValue hne] at hset
    rw [getUniqXValue_eq_xProps, xProps_removeXProp hne] at hremove
    -- A second property of the name is what is left after the removal.
    have htail : (xProps c key).tail = [] :=
      List.head?_eq_none_iff.1 (Option.map_eq_none_iff.1 hremove)
    rw [htail] at hset
    refine ⟨hne, ?_, Option.some.inj hset⟩
    have hlength := congrArg List.length htail
    rw [List.length_tail, List.length_nil] at hlength
    omega
  · rintro ⟨hne, hone, hvalue⟩
    have htail : (xProps c key).tail = [] := by
      apply List.eq_nil_of_length_eq_zero
      rw [List.length_tail]
      omega
    refine ⟨?_, ?_, othersKept_setUniqueXValue L c key value, othersKept_removeXProp L c key⟩
    · rw [getUniqXValue_eq_xProps, xProps_setUniqueXValue hne, htail]
      exact congrArg some hvalue
    · rw [getUniqXValue_eq_xProps, xProps_removeXProp hne, htail]
      rfl

/-- A note with the directory flag twice, as two clients may leave it. -/
def twiceMarked : Icalcomponent :=
  sampleNote (bytes "d") (bytes "Dir") [sampleDirectory, sampleDirectory]

theorem not_all_x_properties_map :
    ¬ ∀ (c : Icalcomponent) (key value : CStr), XMapLaws structuralIcal c key value := by
  intro hall
  have hremove := (hall twiceMarked isDirectoryProperty (bytes "YES")).get_remove
  revert hremove
  decide +kernel

end Agendafs
