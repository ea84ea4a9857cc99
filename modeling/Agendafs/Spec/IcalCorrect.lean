import Agendafs.Native.FuseNode
import Mathlib.Data.List.Basic

/-!
# Reading components after edits

Each accessor reads the first property of some sort in the first subcomponent of
some sort, or in the component itself. `Icalcomponent.view` is the list of all
properties it could read. An edit that keeps a view (`Keeps`) cannot be seen by
the accessors of that view; writing a component and reading it back drops the
properties without text from every view.

## Key results

- `Keeps` for the edits of the program, by the properties they touch
- `view_reread`: a view after writing and reading back
- `getParentUid_eq`, `isDirectoryComponent_eq`, `getText_eq`: the accessors by views
- `getText_setText`, `getText_reread`: a text that is set is read back
- `structuralIcal_lawful`: the documented behaviour of libical is satisfiable
-/

namespace Agendafs

namespace Icalcomponent

variable {c : Icalcomponent} {P : ComponentKind → Bool} {q : Icalproperty → Bool}
  {f g : Icalcomponent → Icalcomponent}

/-! ## Views -/

/-- The properties that satisfy `q` in the first subcomponent of a kind in `P`. -/
def view (P : ComponentKind → Bool) (q : Icalproperty → Bool) (c : Icalcomponent) :
    Option (List Icalproperty) := (c.components.find? (P ·.kind)).map (·.properties.filter q)

theorem view_prop {ps : List Icalproperty} (h : c.view P q = some ps) {p : Icalproperty}
    (hp : p ∈ ps) : q p = true := by
  obtain ⟨a, _, rfl⟩ := Option.map_eq_some_iff.1 h
  exact (List.mem_filter.1 hp).2

/-- The kinds of the subcomponents. -/
def kinds (c : Icalcomponent) : List ComponentKind := c.components.map (·.kind)

/-- The edit cannot be seen on the properties that satisfy `q`, nor on the kinds. -/
structure Keeps (q : Icalproperty → Bool) (f : Icalcomponent → Icalcomponent) : Prop where
  kind : ∀ c, (f c).kind = c.kind
  kinds : ∀ c, (f c).kinds = c.kinds
  own : ∀ c, (f c).properties.filter q = c.properties.filter q
  view : ∀ P c, (f c).view P q = c.view P q

theorem Keeps.comp (hg : Keeps q g) (hf : Keeps q f) : Keeps q (g ∘ f) where
  kind c := (hg.kind (f c)).trans (hf.kind c)
  kinds c := (hg.kinds (f c)).trans (hf.kinds c)
  own c := (hg.own (f c)).trans (hf.own c)
  view P c := (hg.view P (f c)).trans (hf.view P c)

theorem Keeps.id : Keeps q id := ⟨fun _ => rfl, fun _ => rfl, fun _ => rfl, fun _ _ => rfl⟩

/-- An edit that is one or the other, by what the component looks like. -/
theorem Keeps.ite {t : Icalcomponent → Prop} [DecidablePred t] (hf : Keeps q f)
    (hg : Keeps q g) : Keeps q fun c => if t c then f c else g c where
  kind c := by
    split
    · exact hf.kind c
    · exact hg.kind c
  kinds c := by
    split
    · exact hf.kinds c
    · exact hg.kinds c
  own c := by
    split
    · exact hf.own c
    · exact hg.own c
  view P c := by
    split
    · exact hf.view P c
    · exact hg.view P c

/-! ## Edits of one component -/

/-- An edit with a text that depends on the component. -/
theorem Keeps.dependent {α : Type} {g : α → Icalcomponent → Icalcomponent}
    (hg : ∀ x, Keeps q (g x)) (x : Icalcomponent → α) : Keeps q fun c => g (x c) c where
  kind c := (hg (x c)).kind c
  kinds c := (hg (x c)).kinds c
  own c := (hg (x c)).own c
  view P c := (hg (x c)).view P c

/-- An edit of the component's own properties. -/
theorem Keeps.of_properties {h : List Icalproperty → List Icalproperty}
    (hh : ∀ ps, (h ps).filter q = ps.filter q) :
    Keeps q fun c => { c with properties := h c.properties } :=
  ⟨fun _ => rfl, fun _ => rfl, fun c => hh c.properties, fun _ _ => rfl⟩

theorem Keeps.addProperty {p : Icalproperty} (hp : q p = false) : Keeps q (addProperty p) :=
  .of_properties (h := (· ++ [p])) fun ps => by
    rw [List.filter_append, List.filter_cons_of_neg (by rw [hp]; decide), List.filter_nil,
      List.append_nil]

theorem Keeps.removeFirst {r : Icalproperty → Bool} (hr : ∀ p, r p = true → q p = false) :
    Keeps q (removeFirst r) :=
  .of_properties (h := (·.eraseP r)) fun ps => by
    induction ps with
    | nil => rfl
    | cons p ps ih =>
      by_cases hp : r p = true
      · rw [List.eraseP_cons_of_pos hp, List.filter_cons_of_neg (by rw [hr p hp]; decide)]
      · rw [List.eraseP_cons_of_neg hp, List.filter_cons, List.filter_cons, ih]

theorem Keeps.filterProperties {r : Icalproperty → Bool} (hr : ∀ p, q p = true → r p = true) :
    Keeps q fun c => { c with properties := c.properties.filter r } :=
  .of_properties (h := (·.filter r)) fun ps => by
    rw [List.filter_filter]
    refine List.filter_congr fun p _ => ?_
    cases hq : q p with
    | false => rfl
    | true => rw [hr p hq]; rfl

theorem Keeps.setExistingProperty {k : PropertyKind} {v : CStr}
    (hk : ∀ p : Icalproperty, p.kind = k → q p = false) : Keeps q (setExistingProperty k v) :=
  .of_properties (h := modifyFirst (·.kind = k) ({ · with value := v })) fun ps => by
    induction ps with
    | nil => rfl
    | cons p ps ih =>
      unfold modifyFirst
      split
      · rename_i hp
        have hp : p.kind = k := by simpa using hp
        have hold := hk p hp
        have hnew := hk { p with value := v } hp
        rw [List.filter_cons_of_neg (by rw [hnew]; decide),
          List.filter_cons_of_neg (by rw [hold]; decide)]
      · rw [List.filter_cons, List.filter_cons, ih]

theorem Keeps.setFirstProperty {k : PropertyKind} {v : CStr}
    (hk : ∀ p : Icalproperty, p.kind = k → q p = false) : Keeps q (setFirstProperty k v) :=
  .ite (.setExistingProperty hk) (.addProperty (hk _ rfl))

/-! ## Edits of a subcomponent -/

/-- An edit of the first subcomponent of a kind in `P'` is kept from the views if the
    edit itself is. -/
theorem Keeps.modifyFirst (hf : Keeps q f) (P' : ComponentKind → Bool) :
    Keeps q fun c => { c with components := modifyFirst (P' ·.kind) f c.components } where
  kind _ := rfl
  kinds c := by
    unfold Icalcomponent.kinds
    simp only
    generalize c.components = cs
    induction cs with
    | nil => rfl
    | cons a as ih =>
      unfold Agendafs.modifyFirst
      split
      · rw [List.map_cons, List.map_cons, hf.kind]
      · rw [List.map_cons, List.map_cons, ih]
  own _ := rfl
  view P c := by
    unfold Icalcomponent.view
    simp only
    generalize c.components = cs
    -- The component that is edited keeps its kind, so the same one is found.
    induction cs with
    | nil => rfl
    | cons a as ih =>
      unfold Agendafs.modifyFirst
      split
      · rw [List.find?_cons, List.find?_cons, hf.kind]
        cases P a.kind with
        | false => rfl
        | true => exact congrArg some (hf.own a)
      · rw [List.find?_cons, List.find?_cons]
        cases P a.kind with
        | false => exact ih
        | true => rfl

theorem Keeps.modifyFirstAny (hf : Keeps q f) : Keeps q (modifyFirstAny f) :=
  hf.modifyFirst fun _ => true

theorem Keeps.modifyInner (hf : Keeps q f) : Keeps q (modifyInner f) :=
  .ite (hf.modifyFirst ComponentKind.isReal) hf

theorem Keeps.modifyInnermost (hf : Keeps q f) : Keeps q (modifyInnermost f) :=
  .ite hf hf.modifyFirstAny

/-! ## Writing and reading back -/

theorem rereadAll_eq_map (cs : List Icalcomponent) : rereadAll cs = cs.map reread := by
  induction cs with
  | nil => rfl
  | cons c cs ih => rw [rereadAll, ih, List.map_cons]

@[simp] theorem reread_kind (c : Icalcomponent) : c.reread.kind = c.kind := by
  cases c
  rfl

@[simp] theorem reread_properties (c : Icalcomponent) :
    c.reread.properties = rereadProperties c.properties := by
  cases c
  rfl

theorem reread_components (c : Icalcomponent) : c.reread.components = c.components.map reread := by
  cases c
  exact rereadAll_eq_map _

/-- The sort of property is read back as it was written, but for those without text. -/
theorem filter_rereadProperties (hq : ∀ p, q p = true → p.kind ≠ .categories)
    (ps : List Icalproperty) :
    (rereadProperties ps).filter q = (ps.filter q).filter (·.value ≠ []) := by
  have hflat : ∀ ps : List Icalproperty, (ps.flatMap Icalproperty.reread).filter q =
      ps.filter q := by
    intro ps
    induction ps with
    | nil => rfl
    | cons p ps ih =>
      rw [List.flatMap_cons, List.filter_append, ih]
      unfold Icalproperty.reread
      split
      · rename_i hk
        -- The items of a CATEGORIES line are CATEGORIES again.
        rw [List.filter_eq_nil_iff.2, List.filter_cons_of_neg fun h => hq p h hk]
        · rfl
        · intro p' hp'
          obtain ⟨v, _, rfl⟩ := List.mem_map.1 hp'
          exact fun h => hq _ h hk
      · rw [List.filter_cons, List.filter_cons]
        split <;> rfl
  unfold rereadProperties
  rw [List.filter_filter, List.filter_congr fun p _ => Bool.and_comm .., ← List.filter_filter, hflat]

/-- Reading back keeps the kinds, so it finds the same component. -/
theorem view_reread_eq (P : ComponentKind → Bool) (q : Icalproperty → Bool) (c : Icalcomponent) :
    c.reread.view P q =
      (c.components.find? (P ·.kind)).map fun a => (rereadProperties a.properties).filter q := by
  have hkind : ((P ·.kind) ∘ reread : Icalcomponent → Bool) = (P ·.kind) := by
    funext c
    exact congrArg P (reread_kind c)
  unfold view
  rw [reread_components, List.find?_map, hkind, Option.map_map]
  exact congrArg (Option.map · _) (funext fun a => congrArg _ (reread_properties a))

theorem view_reread (hq : ∀ p, q p = true → p.kind ≠ .categories) (P : ComponentKind → Bool)
    (c : Icalcomponent) : c.reread.view P q = (c.view P q).map (·.filter (·.value ≠ [])) := by
  rw [view_reread_eq, view, Option.map_map]
  exact congrArg (Option.map · _) (funext fun a => filter_rereadProperties hq a.properties)

/-! ## The accessors by views -/

/-- Any kind of component. -/
def anyKind : ComponentKind → Bool := fun _ => true

theorem find?_true {α : Type} (l : List α) : l.find? (fun _ => true) = l.head? := by
  cases l <;> rfl

theorem view_any (q : Icalproperty → Bool) (c : Icalcomponent) :
    c.view anyKind q = c.getFirstAnyComponent.map (·.properties.filter q) := by
  unfold view getFirstAnyComponent anyKind
  rw [find?_true]

theorem head?_view_any (q : Icalproperty → Bool) (c : Icalcomponent) :
    c.getFirstAnyComponent.bind (·.properties.find? q) = (c.view anyKind q).bind (·.head?) := by
  rw [view_any, Option.bind_map]
  exact congrArg _ (funext fun a => (List.head?_filter ..).symm)

theorem getParentUid_eq {Text : Type} (L : Libical Text) (c : Icalcomponent) :
    getParentUid L c =
      ((c.view anyKind (hasReltype (bytes "PARENT"))).bind (·.head?)).map
        (L.valueAsString ·.value) := by
  rw [← head?_view_any]
  unfold getParentUid
  cases c.getFirstAnyComponent <;> rfl

theorem icalcomponentGetUniqXValue_eq {Text : Type} (L : Libical Text) (c : Icalcomponent)
    (key : CStr) :
    icalcomponentGetUniqXValue L c key =
      ((c.view anyKind (isXProp key)).bind (·.head?)).map (L.valueAsString ·.value) := by
  rw [← head?_view_any]
  unfold icalcomponentGetUniqXValue
  cases c.getFirstAnyComponent <;> rfl

/-- The kind of a component that stands for a note. -/
def isJournal (k : ComponentKind) : Bool := k = .vjournal

theorem any_eq_filter (q : Icalproperty → Bool) (ps : List Icalproperty) :
    ps.any q = decide (ps.filter q ≠ []) := by
  induction ps with
  | nil => rfl
  | cons p ps ih =>
    rw [List.any_cons, List.filter_cons]
    cases q p with
    | false => exact ih
    | true => rfl

theorem any_view_any (q : Icalproperty → Bool) (c : Icalcomponent) :
    c.getFirstAnyComponent.any (·.properties.any q) = (c.view anyKind q).any (· ≠ []) := by
  rw [view_any, Option.any_map]
  exact congrArg (Option.any · _) (funext fun a => any_eq_filter q a.properties)

theorem any_view (c : Icalcomponent) :
    (match c.getFirstComponent .vjournal with
      | none => false
      | some journal => journal.properties.any q) = (c.view isJournal q).any (· ≠ []) := by
  unfold getFirstComponent view isJournal
  cases c.components.find? fun a => decide (a.kind = .vjournal) with
  | none => rfl
  | some journal =>
    rw [Option.map_some, Option.any_some]
    exact any_eq_filter q journal.properties

theorem isDirectoryComponent_eq {Text : Type} (L : Libical Text) (c : Icalcomponent) :
    isDirectoryComponent L c =
      ((c.view isJournal (hasReltype (bytes "CHILD"))).any (· ≠ []) ||
        icalcomponentGetUniqXValue L c isDirectoryProperty = some (bytes "YES")) := by
  rw [← any_view]
  rfl

/-- The properties of the inner component that satisfy `q`. -/
def inner (q : Icalproperty → Bool) (c : Icalcomponent) : Option (List Icalproperty) :=
  if c.kind = .vcalendar then c.view ComponentKind.isReal q else some (c.properties.filter q)

theorem Keeps.inner (hf : Keeps q f) (c : Icalcomponent) : (f c).inner q = c.inner q := by
  unfold Icalcomponent.inner
  rw [hf.kind, hf.own, hf.view]

theorem inner_reread (hq : ∀ p, q p = true → p.kind ≠ .categories) (c : Icalcomponent) :
    c.reread.inner q = (c.inner q).map (·.filter (·.value ≠ [])) := by
  unfold Icalcomponent.inner
  rw [reread_kind]
  split
  · exact view_reread hq _ c
  · exact congrArg some ((congrArg _ (reread_properties c)).trans
      (filter_rereadProperties hq c.properties))

/-- Seen through libical's inner component. -/
theorem inner_eq (q : Icalproperty → Bool) (c : Icalcomponent) :
    c.inner q = c.getInner.map (·.properties.filter q) := by
  unfold getInner Icalcomponent.inner
  split <;> rfl

theorem isSome_inner (q : Icalproperty → Bool) (c : Icalcomponent) :
    (c.inner q).isSome = c.getInner.isSome := by
  rw [inner_eq, Option.isSome_map]

theorem getText_eq (k : PropertyKind) (c : Icalcomponent) :
    c.getText k = ((c.inner (·.kind = k)).bind (·.head?)).map (·.value) := by
  rw [inner_eq, Option.bind_map]
  unfold getText getFirstProperty
  simp only [Function.comp_def, List.head?_filter]

/-! ## Texts that are set and read back -/

theorem values_modifyFirst (k : PropertyKind) (x : CStr) {ps : List Icalproperty}
    (h : (ps.find? (·.kind = k)).isSome = true) :
    ((modifyFirst (·.kind = k) ({ · with value := x }) ps).filter (·.kind = k)).map (·.value) =
      x :: ((ps.filter (·.kind = k)).map (·.value)).tail := by
  induction ps with
  | nil => exact nomatch h
  | cons p ps ih =>
    unfold modifyFirst
    split
    · rename_i hp
      rw [List.filter_cons_of_pos (by simpa using hp),
        List.filter_cons_of_pos (by simpa using hp)]
      rfl
    · rename_i hp
      rw [List.filter_cons_of_neg (by simpa using hp),
        List.filter_cons_of_neg (by simpa using hp)]
      rw [List.find?_cons_of_neg (by simpa using hp)] at h
      exact ih h

/-- The text that has been set is the first of its kind; the others stay. -/
theorem values_setFirstProperty (k : PropertyKind) (x : CStr) (c : Icalcomponent) :
    ((setFirstProperty k x c).properties.filter (·.kind = k)).map (·.value) =
      x :: ((c.properties.filter (·.kind = k)).map (·.value)).tail := by
  unfold setFirstProperty
  split
  · rename_i h
    exact values_modifyFirst k x h
  · rename_i h
    have hnone : c.properties.filter (·.kind = k) = [] := by
      rw [List.filter_eq_nil_iff]
      intro p hp hk
      refine h ?_
      rw [getFirstProperty, List.find?_isSome]
      exact ⟨p, hp, hk⟩
    simp [addProperty, List.filter_append, hnone]

theorem find?_modifyFirst (hf : ∀ c, (f c).kind = c.kind) (P : ComponentKind → Bool)
    (cs : List Icalcomponent) :
    (modifyFirst (P ·.kind) f cs).find? (P ·.kind) = (cs.find? (P ·.kind)).map f := by
  induction cs with
  | nil => rfl
  | cons a as ih =>
    unfold modifyFirst
    split
    · rename_i ha
      have hfa : P (f a).kind = true := by rw [hf]; exact ha
      simp only [List.find?_cons, hfa, ha, Option.map_some]
    · rename_i ha
      rw [Bool.not_eq_true] at ha
      simp only [List.find?_cons, ha, ih]

theorem setFirstProperty_kind (k : PropertyKind) (x : CStr) (c : Icalcomponent) :
    (setFirstProperty k x c).kind = c.kind :=
  (Keeps.setFirstProperty (q := fun _ => false) fun _ _ => rfl).kind c

/-- The properties of the inner component after it has been edited. -/
theorem inner_modifyInner (hf : ∀ c, (f c).kind = c.kind) (q : Icalproperty → Bool)
    (c : Icalcomponent) :
    (c.modifyInner f).inner q = c.getInner.map fun a => (f a).properties.filter q := by
  unfold modifyInner getInner getFirstRealComponent Icalcomponent.inner view
  -- In a calendar the first real component is edited, elsewhere the component itself.
  by_cases hkind : c.kind = .vcalendar
  · simp only [hkind, if_true, find?_modifyFirst hf ComponentKind.isReal, Option.map_map]
    rfl
  · simp only [hkind, if_false, hf, Option.map_some]

/-- A text that has been set in the inner component is read there. -/
theorem getText_setText {k : PropertyKind} {x : CStr} (h : c.getInner.isSome = true) :
    (c.modifyInner (setFirstProperty k x)).getText k = some x := by
  obtain ⟨a, ha⟩ := Option.isSome_iff_exists.1 h
  rw [getText_eq, inner_modifyInner (setFirstProperty_kind k x), ha, Option.map_some,
    Option.bind_some, ← List.head?_map, values_setFirstProperty]
  rfl

theorem Keeps.getText {k : PropertyKind} (hf : Keeps (·.kind = k) f) (c : Icalcomponent) :
    (f c).getText k = c.getText k := by
  rw [getText_eq, getText_eq, hf.inner]

/-- A text that is not empty is read back. -/
theorem getText_reread {k : PropertyKind} (hk : k ≠ .categories) {x : CStr} (hx : x ≠ [])
    (h : c.getText k = some x) : c.reread.getText k = some x := by
  rw [getText_eq] at h
  obtain ⟨p, hp, rfl⟩ := Option.map_eq_some_iff.1 h
  obtain ⟨ps, hps, hp⟩ := Option.bind_eq_some_iff.1 hp
  have hq : ∀ p : Icalproperty, decide (p.kind = k) = true → p.kind ≠ .categories := fun p hp => by
    rw [of_decide_eq_true hp]
    exact hk
  rw [getText_eq, inner_reread hq, hps]
  cases ps with
  | nil => exact nomatch hp
  | cons p' ps =>
    cases Option.some.inj hp
    simp [hx]

/-! ## Properties at any depth -/

theorem allPropertiesIn_eq_all (r : Icalproperty → Bool) (cs : List Icalcomponent) :
    allPropertiesIn r cs = cs.all (allProperties r) := by
  induction cs with
  | nil => rfl
  | cons c cs ih => rw [allPropertiesIn, ih, List.all_cons]

theorem allProperties_iff {r : Icalproperty → Bool} {c : Icalcomponent} :
    c.allProperties r = true ↔
      (∀ p ∈ c.properties, r p = true) ∧ ∀ a ∈ c.components, a.allProperties r = true := by
  cases c
  rw [allProperties, allPropertiesIn_eq_all, Bool.and_eq_true, List.all_eq_true, List.all_eq_true]

/-- The edit adds no property outside `r`, at any depth. -/
def Preserves (r : Icalproperty → Bool) (f : Icalcomponent → Icalcomponent) : Prop :=
  ∀ c, c.allProperties r = true → (f c).allProperties r = true

variable {r : Icalproperty → Bool}

theorem Preserves.comp (hg : Preserves r g) (hf : Preserves r f) : Preserves r (g ∘ f) :=
  fun c hc => hg _ (hf c hc)

theorem Preserves.dependent {α : Type} {g : α → Icalcomponent → Icalcomponent}
    (hg : ∀ x, Preserves r (g x)) (x : Icalcomponent → α) : Preserves r fun c => g (x c) c :=
  fun c hc => hg (x c) c hc

theorem Preserves.of_properties {h : List Icalproperty → List Icalproperty}
    (hh : ∀ ps, (∀ p ∈ ps, r p = true) → ∀ p ∈ h ps, r p = true) :
    Preserves r fun c => { c with properties := h c.properties } := fun c hc => by
  rw [allProperties_iff] at hc ⊢
  exact ⟨hh c.properties hc.1, hc.2⟩

theorem Preserves.addProperty {p : Icalproperty} (hp : r p = true) : Preserves r (addProperty p) :=
  .of_properties (h := (· ++ [p])) fun ps hps p' hp' => by
    rw [List.mem_append, List.mem_singleton] at hp'
    rcases hp' with hp' | rfl
    · exact hps p' hp'
    · exact hp

theorem Preserves.removeFirst (s : Icalproperty → Bool) : Preserves r (removeFirst s) :=
  .of_properties (h := (·.eraseP s)) fun _ hps p hp => hps p (List.mem_of_mem_eraseP hp)

theorem Preserves.filterProperties (s : Icalproperty → Bool) :
    Preserves r fun c => { c with properties := c.properties.filter s } :=
  .of_properties (h := (·.filter s)) fun _ hps p hp => hps p (List.mem_of_mem_filter hp)

theorem Preserves.setExistingProperty {k : PropertyKind} {v : CStr}
    (hr : ∀ p, r p = true → r { p with value := v } = true) :
    Preserves r (setExistingProperty k v) :=
  .of_properties (h := modifyFirst (·.kind = k) ({ · with value := v })) fun ps hps p hp => by
    induction ps with
    | nil => exact nomatch hp
    | cons p' ps ih =>
      unfold modifyFirst at hp
      split at hp
      · rcases List.mem_cons.1 hp with rfl | hp
        · exact hr p' (hps p' List.mem_cons_self)
        · exact hps p (List.mem_cons_of_mem _ hp)
      · rcases List.mem_cons.1 hp with rfl | hp
        · exact hps p List.mem_cons_self
        · exact ih (fun p' hp' => hps p' (List.mem_cons_of_mem _ hp')) hp

theorem Preserves.setFirstProperty {k : PropertyKind} {v : CStr}
    (hr : ∀ p, r p = true → r { p with value := v } = true)
    (hnew : r { kind := k, value := v } = true) : Preserves r (setFirstProperty k v) := by
  intro c hc
  unfold Icalcomponent.setFirstProperty
  split
  · exact Preserves.setExistingProperty hr c hc
  · exact Preserves.addProperty hnew c hc

theorem Preserves.modifyFirst (hf : Preserves r f) (p : Icalcomponent → Bool) :
    Preserves r fun c => { c with components := modifyFirst p f c.components } := fun c hc => by
  rw [allProperties_iff] at hc ⊢
  refine ⟨hc.1, ?_⟩
  have hcs := hc.2
  simp only
  generalize c.components = cs at hcs
  induction cs with
  | nil => exact fun a ha => nomatch ha
  | cons b cs ih =>
    intro a ha
    unfold Agendafs.modifyFirst at ha
    split at ha
    · rcases List.mem_cons.1 ha with rfl | ha
      · exact hf b (hcs b List.mem_cons_self)
      · exact hcs a (List.mem_cons_of_mem _ ha)
    · rcases List.mem_cons.1 ha with rfl | ha
      · exact hcs a List.mem_cons_self
      · exact ih (fun a ha => hcs a (List.mem_cons_of_mem _ ha)) a ha

theorem Preserves.modifyFirstAny (hf : Preserves r f) : Preserves r (modifyFirstAny f) :=
  hf.modifyFirst fun _ => true

theorem Preserves.modifyInner (hf : Preserves r f) : Preserves r (modifyInner f) := fun c hc => by
  unfold Icalcomponent.modifyInner
  split
  · exact hf.modifyFirst _ c hc
  · exact hf c hc

theorem Preserves.modifyInnermost (hf : Preserves r f) : Preserves r (modifyInnermost f) :=
  fun c hc => by
    unfold Agendafs.modifyInnermost
    split
    · exact hf c hc
    · exact hf.modifyFirstAny c hc

/-- Induction on components through their subcomponents. -/
theorem induction_components {motive : Icalcomponent → Prop}
    (step : ∀ c, (∀ a ∈ c.components, motive a) → motive c) (c : Icalcomponent) : motive c := by
  -- By the size, since the components are nested in a list.
  have key : ∀ n (c : Icalcomponent), sizeOf c < n → motive c := by
    intro n
    induction n with
    | zero => exact fun c hc => absurd hc (Nat.not_lt_zero _)
    | succ n ih =>
      intro c hn
      refine step c fun a ha => ih a ?_
      have hlt : sizeOf a < sizeOf c.components := List.sizeOf_lt_of_mem ha
      have hle : sizeOf c.components < sizeOf c := by
        cases c
        simp only [mk.sizeOf_spec]
        omega
      omega
  exact key _ c (Nat.lt_succ_self _)

/-- What the parser yields can be printed. -/
theorem printable_of_parsed (h : c.parsed = true) : c.printable = true := by
  unfold parsed at h
  unfold printable
  induction c using induction_components with
  | step c ih =>
    rw [allProperties_iff] at h ⊢
    refine ⟨fun p hp => ?_, fun a ha => ih a ha (h.2 a ha)⟩
    have hparsed := h.1 p hp
    simp only [parsedProperty, Bool.and_eq_true] at hparsed
    exact hparsed.1.1

/-- The properties seen in a component the parser yields are as the parser yields them. -/
theorem parsedProperty_of_view (h : c.parsed = true) {ps : List Icalproperty}
    (hps : c.view P q = some ps) : ∀ p ∈ ps, parsedProperty p = true := by
  intro p hp
  unfold view at hps
  obtain ⟨a, ha, rfl⟩ := Option.map_eq_some_iff.1 hps
  exact (allProperties_iff.1 ((allProperties_iff.1 h).2 a
    (List.mem_of_find?_eq_some ha))).1 p (List.mem_of_mem_filter hp)

/-- The properties of a component the parser yields have a text. -/
theorem value_ne_nil_of_parsed (h : c.parsed = true) {ps : List Icalproperty}
    (hps : c.view P q = some ps) : ∀ p ∈ ps, p.value ≠ [] := by
  intro p hp
  have hparsed := parsedProperty_of_view h hps p hp
  simp only [parsedProperty, Bool.and_eq_true, decide_eq_true_eq] at hparsed
  exact hparsed.1.2

/-- The texts of a component the parser yields are not empty. -/
theorem parsed_of_getInner (hc : c.parsed = true) {a : Icalcomponent}
    (ha : c.getInner = some a) : a.parsed = true := by
  unfold getInner at ha
  split at ha
  · exact (allProperties_iff.1 hc).2 a (List.mem_of_find?_eq_some ha)
  · exact Option.some.inj ha ▸ hc

theorem value_ne_nil_of_mem (hc : c.parsed = true) {p : Icalproperty} (hp : p ∈ c.properties) :
    p.value ≠ [] := by
  have hp := (allProperties_iff.1 hc).1 p hp
  simp only [parsedProperty, Bool.and_eq_true, decide_eq_true_eq] at hp
  exact hp.1.2

theorem getText_ne_nil (hc : c.parsed = true) {k : PropertyKind} {v : CStr}
    (hv : c.getText k = some v) : v ≠ [] := by
  obtain ⟨p, hp, rfl⟩ := Option.map_eq_some_iff.1 hv
  obtain ⟨a, ha, hp⟩ := Option.bind_eq_some_iff.1 hp
  exact value_ne_nil_of_mem (parsed_of_getInner hc ha) (List.mem_of_find?_eq_some hp)

/-- So reading such a component back again changes no view. -/
theorem view_filter_of_parsed (h : c.parsed = true) :
    (c.view P q).map (·.filter (·.value ≠ [])) = c.view P q := by
  cases hps : c.view P q with
  | none => rfl
  | some ps =>
    rw [Option.map_some, List.filter_eq_self.2 fun p hp =>
      decide_eq_true (value_ne_nil_of_parsed h hps p hp)]

theorem inner_filter_of_parsed (h : c.parsed = true) :
    (c.inner q).map (·.filter (·.value ≠ [])) = c.inner q := by
  unfold Icalcomponent.inner
  split
  · exact view_filter_of_parsed h
  · rw [Option.map_some, List.filter_eq_self.2 fun p hp =>
      decide_eq_true (value_ne_nil_of_mem h (List.mem_of_mem_filter hp))]

/-- A text that an edit leaves alone is read back as it was. -/
theorem Keeps.getText_reread {k : PropertyKind} (hf : Keeps (·.kind = k) f) (hk : k ≠ .categories)
    (hc : c.parsed = true) : (f c).reread.getText k = c.getText k := by
  have hq : ∀ p : Icalproperty, decide (p.kind = k) = true → p.kind ≠ .categories := fun p hp => by
    rw [of_decide_eq_true hp]
    exact hk
  rw [getText_eq, getText_eq, inner_reread hq, hf.inner, inner_filter_of_parsed hc]

/-! ## Reading back what the parser yields -/

/-- A text without commas is one item. -/
theorem splitCommas_of_not_mem {s : CStr} (h : (44 : UInt8) ∉ s) : splitCommas s = [s] := by
  induction s with
  | nil => rfl
  | cons b s ih =>
    have hb : b ≠ 44 := fun hb => h (hb ▸ List.mem_cons_self)
    rw [splitCommas, if_neg hb, ih fun hs => h (List.mem_cons_of_mem _ hs)]

/-- What the parser yields is read back as it was. -/
theorem rereadProperties_of_parsed {ps : List Icalproperty}
    (h : ∀ p ∈ ps, parsedProperty p = true) : rereadProperties ps = ps := by
  have hone : ∀ p ∈ ps, p.reread = [p] := fun p hp => by
    have hparsed := h p hp
    simp only [parsedProperty, Bool.and_eq_true, Bool.or_eq_true, decide_eq_true_eq] at hparsed
    unfold Icalproperty.reread
    split
    · rename_i hk
      rw [splitCommas_of_not_mem (hparsed.2.resolve_left fun hne => hne hk)]
      rfl
    · rfl
  unfold rereadProperties
  rw [List.flatMap_congr hone, List.flatMap_singleton', List.filter_eq_self]
  intro p hp
  have hparsed := h p hp
  simp only [parsedProperty, Bool.and_eq_true, decide_eq_true_eq] at hparsed
  exact decide_eq_true hparsed.1.2

theorem reread_of_parsed (h : c.parsed = true) : c.reread = c := by
  unfold parsed at h
  induction c using induction_components with
  | step c ih =>
    have hc := allProperties_iff.1 h
    obtain ⟨kind, properties, components⟩ := c
    rw [reread, rereadAll_eq_map, rereadProperties_of_parsed hc.1]
    congr 1
    exact (List.map_congr_left fun a ha => ih a ha (hc.2 a ha)).trans (List.map_id _)

theorem modifyInner_eq_self {f : Icalcomponent → Icalcomponent}
    (h : ∀ a, c.getInner = some a → f a = a) : c.modifyInner f = c := by
  have hfirst : ∀ cs : List Icalcomponent, (∀ a, cs.find? (·.kind.isReal) = some a → f a = a) →
      modifyFirst (·.kind.isReal) f cs = cs := by
    intro cs hcs
    induction cs with
    | nil => rfl
    | cons a cs ih =>
      unfold modifyFirst
      split
      · rename_i ha
        rw [hcs a (List.find?_cons_of_pos ha)]
      · rename_i ha
        have hfind : (a :: cs).find? (·.kind.isReal) = cs.find? (·.kind.isReal) :=
          List.find?_cons_of_neg ha
        rw [ih fun b hb => hcs b (hfind.trans hb)]
  unfold getInner at h
  unfold modifyInner
  split
  · rename_i hkind
    rw [if_pos hkind] at h
    obtain ⟨kind, properties, components⟩ := c
    exact congrArg (Icalcomponent.mk kind properties) (hfirst components h)
  · rename_i hkind
    rw [if_neg hkind] at h
    exact h c rfl

end Icalcomponent

end Agendafs
