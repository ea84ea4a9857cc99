import Agendafs.Spec.NoteEdits

/-!
# Categories through the file

`set_node_categories` deletes every CATEGORIES property and adds one whose text
is the whole list, with commas. The parser makes one property of each item of
that line, and `get_node_categories` puts the commas back.

## Key results

- `deleteCategories_run`: the deletion loop ends and leaves no category
- `splitCommas_intercalate`: joining names and splitting them at the commas
- `categoryList_stored`: the categories that are read back
- `set_categories_iff`
-/

namespace Agendafs

open Icalcomponent Store

variable {Text : Type} {cfg : Config Text} {w w' : World Text} {c : Icalcomponent}
  {path : CStr} {n : NodeId} {k : CStr} {names : List CStr}

/-! ## The deletion loop -/

/-- The deletion loop of `set_node_categories`, for at most this many tests of its condition:
    while there is a first CATEGORIES property, it is removed. -/
def deleteCategories : Nat → Icalcomponent → Option Icalcomponent
  | 0, _ => none
  | fuel + 1, comp =>
    match comp.getFirstProperty .categories with
    | none => some comp
    | some _ => deleteCategories fuel (comp.removeFirst (·.kind = .categories))

/-- Filtering out what a property is does not see its removal. -/
theorem filter_not_eraseP (q : Icalproperty → Bool) (ps : List Icalproperty) :
    (ps.eraseP q).filter (!q ·) = ps.filter (!q ·) := by
  induction ps with
  | nil => rfl
  | cons p ps ih =>
    by_cases hp : q p = true
    · rw [List.eraseP_cons_of_pos hp, List.filter_cons_of_neg (by simp [hp])]
    · rw [List.eraseP_cons_of_neg hp, List.filter_cons, List.filter_cons, ih]

/-- The loop ends after one round for each category, and what it leaves are the other properties. -/
theorem deleteCategories_run {fuel : Nat} {inner : Icalcomponent}
    (h : (inner.properties.filter (·.kind = .categories)).length < fuel) :
    deleteCategories fuel inner =
      some { inner with properties := inner.properties.filter (·.kind ≠ .categories) } := by
  induction fuel generalizing inner with
  | zero => omega
  | succ fuel ih =>
    unfold deleteCategories
    cases hfirst : inner.getFirstProperty .categories with
    | none =>
      have hnone := List.find?_eq_none.1 hfirst
      have hall : inner.properties.filter (·.kind ≠ .categories) = inner.properties :=
        List.filter_eq_self.2 fun p hp => by simpa using hnone p hp
      obtain ⟨kind, properties, components⟩ := inner
      simp only
      rw [hall]
    | some p =>
      -- One category less is left for the rounds to come.
      have hkind := List.find?_some hfirst
      have hmem : p ∈ inner.properties.filter (·.kind = .categories) :=
        List.mem_filter.2 ⟨List.mem_of_find?_eq_some hfirst, hkind⟩
      have hpos := List.length_pos_of_mem hmem
      have hless : ((inner.removeFirst (·.kind = .categories)).properties.filter
          (·.kind = .categories)).length < fuel := by
        change ((inner.properties.eraseP _).filter _).length < fuel
        rw [filter_eraseP, List.length_tail]
        omega
      have hrest := filter_not_eraseP (·.kind = .categories) inner.properties
      simp only [← decide_not] at hrest
      simp only
      rw [ih hless]
      change some { inner with properties := (inner.properties.eraseP _).filter _ } = _
      rw [hrest]

/-- So the edit of `set_node_categories` is what its loop leaves, with the new categories. -/
theorem withCategories_eq_loop (newCategories : List UInt8) (s : Nat) (c : Icalcomponent) :
    withCategories newCategories s c = c.modifyInner fun inner =>
      let left := (deleteCategories (inner.properties.length + 1) inner).getD inner
      if s = 0 then left
      else left.addProperty { kind := .categories, value := cString (newCategories.take s) } := by
  unfold withCategories
  congr 1
  funext inner
  rw [deleteCategories_run (Nat.lt_succ_of_le (List.length_filter_le _ _))]
  rfl

/-! ## Joining and splitting -/

/-- The items of a list with commas are those that `List.splitOn` finds. -/
theorem splitCommas_eq_splitOn (s : CStr) : splitCommas s = s.splitOn 44 := by
  induction s with
  | nil => rfl
  | cons b s ih =>
    rw [splitCommas, List.splitOn_cons_eq_if_modifyHead, ih]
    by_cases hb : b = 44
    · rw [if_pos hb, if_pos (beq_iff_eq.2 hb)]
    · rw [if_neg hb, if_neg (mt beq_iff_eq.1 hb)]
      cases hs : s.splitOn 44 with
      | nil => exact absurd hs (List.splitOn_ne_nil _ _)
      | cons item items => rfl

theorem splitCommas_intercalate (hne : names ≠ []) (h : ∀ x ∈ names, (44 : UInt8) ∉ x) :
    splitCommas ([(44 : UInt8)].intercalate names) = names := by
  rw [splitCommas_eq_splitOn, List.splitOn_intercalate 44 h hne]

/-- Names that can stand in a list of categories. -/
structure CategoryNames (names : List CStr) : Prop where
  nonempty : ∀ x ∈ names, x ≠ []
  noComma : ∀ x ∈ names, (44 : UInt8) ∉ x
  noNul : ∀ x ∈ names, (0 : UInt8) ∉ x

/-- The names as one text. -/
def joined (names : List CStr) : CStr := [(44 : UInt8)].intercalate names

theorem joined_eq_nil_iff (h : CategoryNames names) : joined names = [] ↔ names = [] := by
  constructor
  · intro hjoined
    by_contra hne
    have hsplit := splitCommas_intercalate hne h.noComma
    rw [show [(44 : UInt8)].intercalate names = [] from hjoined] at hsplit
    exact h.nonempty [] (by rw [← hsplit]; exact List.mem_singleton.2 rfl) rfl
  · rintro rfl
    rfl

theorem not_mem_intercalate {b sep : UInt8} (hsep : b ≠ sep) (h : ∀ x ∈ names, b ∉ x) :
    b ∉ [sep].intercalate names := by
  induction names with
  | nil => exact List.not_mem_nil
  | cons x names ih =>
    have hrest := ih fun y hy => h y (List.mem_cons_of_mem _ hy)
    cases names with
    | nil =>
      rw [List.intercalate_singleton]
      exact h x List.mem_cons_self
    | cons y names =>
      rw [List.intercalate_cons_cons, List.mem_append, List.mem_append, List.mem_singleton]
      rintro ((hx | hx) | hx)
      · exact h x List.mem_cons_self hx
      · exact hsep hx
      · exact hrest hx

theorem cString_joined (h : CategoryNames names) : cString (joined names) = joined names :=
  cString_of_not_mem (not_mem_intercalate (by decide) h.noNul)

/-! ## The categories of a note -/

/-- The texts of the CATEGORIES properties of a note, in their order. -/
def categoryList (c : Icalcomponent) : Option (List CStr) :=
  (c.inner (·.kind = .categories)).map (·.map (·.value))

theorem categoriesOf_of_list (h : categoryList c = some names) : categoriesOf c = joined names := by
  obtain ⟨ps, hps, rfl⟩ := Option.map_eq_some_iff.1 h
  rw [categoriesOf_eq, hps]
  rfl

theorem printable_withCategories (value : List UInt8) (s : Nat) :
    Printable (withCategories value s) := by
  have hfilter : Printable fun c : Icalcomponent =>
      { c with properties := c.properties.filter (·.kind ≠ .categories) } :=
    Preserves.filterProperties (·.kind ≠ .categories)
  refine Preserves.modifyInner ?_
  by_cases hs : s = 0
  · simp only [if_pos hs]
    exact hfilter
  · simp only [if_neg hs]
    exact (Preserves.addProperty rfl).comp hfilter

/-- After the edit the new property is the only one, or there is none. -/
theorem inner_withCategories (hc : c.getInner.isSome = true) (value : List UInt8) (s : Nat) :
    (withCategories value s c).inner (·.kind = .categories) =
      some (if s = 0 then [] else [{ kind := .categories, value := cString (value.take s) }]) := by
  obtain ⟨a, ha⟩ := Option.isSome_iff_exists.1 hc
  have hnone : (a.properties.filter (·.kind ≠ .categories)).filter (·.kind = .categories) = [] := by
    rw [List.filter_filter]
    exact List.filter_eq_nil_iff.2 fun p _ => by simp
  unfold withCategories
  rw [inner_modifyInner (fun c => by split <;> rfl), ha, Option.map_some]
  split
  · exact congrArg some hnone
  · simp only [addProperty, List.filter_append, hnone]
    rfl

/-- The parser finds the names again. -/
theorem categoryList_stored (hc : c.getInner.isSome = true) (hnames : CategoryNames names)
    {value : List UInt8} {s : Nat} (hs : s = (joined names).length)
    (hvalue : value.take s = joined names) (now : CStr) :
    categoryList (stamp now (withCategories value s c)).reread = some names := by
  have hkept := (keeps_stamp (onlyKind_kind .categories) (by decide) now).inner
    (withCategories value s c)
  unfold categoryList
  rw [inner_kind_reread_eq, hkept, inner_withCategories hc, hvalue, cString_joined hnames]
  by_cases hnil : names = []
  · subst hnil
    rw [if_pos (by rw [hs]; rfl)]
    rfl
  · have hjoined : joined names ≠ [] := mt (joined_eq_nil_iff hnames).1 hnil
    rw [if_neg (by rw [hs]; exact mt List.length_eq_zero_iff.1 hjoined)]
    -- One property for each item, and none of the items is empty.
    have hsplit : splitCommas (joined names) = names := splitCommas_intercalate hnil hnames.noComma
    have hfilter : ∀ xs : List CStr, (∀ x ∈ xs, x ≠ []) →
        ((xs.map fun x => ({ kind := .categories, value := x } : Icalproperty)).filter
          (·.value ≠ [])).map (·.value) = xs := by
      intro xs hxs
      rw [List.filter_eq_self.2, List.map_map]
      · exact List.map_id xs
      · intro p hp
        obtain ⟨x, hx, rfl⟩ := List.mem_map.1 hp
        simpa using hxs x hx
    simp only [Option.map_some, rereadProperties, List.flatMap_singleton, Icalproperty.reread,
      if_true, hsplit]
    exact congrArg some (hfilter names hnames.nonempty)

/-! ## The calls -/

/-- A call that makes `names` the categories: it sets the names with commas in between, or it
    removes all. -/
inductive SetsCategories (names : List CStr) : AttrCall → Prop
  | set {value : List UInt8} {s flags : Nat} (hs : s = (joined names).length)
      (hvalue : value.take s = joined names) : SetsCategories names (.set value s flags)
  | remove (h : names = []) : SetsCategories names .remove

theorem SetsCategories.edit {a : AttrCall} (ha : SetsCategories names a)
    {f : Icalcomponent → Icalcomponent} (hf : a.edit cfg (bytes "user.categories") = some f) :
    ∃ value s, f = withCategories value s ∧ s = (joined names).length ∧
      value.take s = joined names := by
  cases ha with
  | @set value s _ hs hvalue =>
    change setxattrEdit cfg (bytes "user.categories") value s = some f at hf
    unfold setxattrEdit at hf
    split at hf
    · cases hf
    · rw [if_neg (by decide), if_neg (by decide), if_pos rfl] at hf
      exact ⟨_, _, (Option.some.inj hf).symm, hs, hvalue⟩
  | remove hnil =>
    subst hnil
    exact ⟨[], 0, (Option.some.inj hf).symm, rfl, rfl⟩

/-- What the file holds and the calls return is the list of names. -/
structure CategoriesRead (cfg : Config Text) (w : World Text) (path : CStr) (n : NodeId)
    (filenameVdir : CStr) (names : List CStr) : Prop where
  stored : ∃ c, w.fileComponent cfg filenameVdir = some c ∧ categoryList c = some names
  read : getNodeCategories cfg n w = .ok (some (joined names), w)
  xattr : ∀ buf s, fuseGetxattr cfg path (bytes "user.categories") buf s w =
    .ok (if names = [] then (-ENODATA, buf) else handValue (joined names) buf s, w)

theorem categoriesRead_iff (hn : w.NotePath cfg path n k) (hnames : CategoryNames names) :
    CategoriesRead cfg w path n k names ↔
      (w.fileComponent cfg k).bind categoryList = some names := by
  constructor
  · intro h
    obtain ⟨c, hc, hlist⟩ := h.stored
    rw [hc]
    exact hlist
  · intro h
    obtain ⟨c, hc, hlist⟩ := Option.bind_eq_some_iff.1 h
    have hcats := categoriesOf_of_list hlist
    refine ⟨⟨c, hc, hlist⟩, ?_, fun buf s => ?_⟩
    · rw [getNodeCategories_run hn.inv hn.readsAt, hn.component, hc, Option.map_some, hcats]
    · rw [fuseGetxattr_run hn.inv hn.readsAt, hn.component, hc]
      unfold getxattrResult xattrOf
      simp only [Option.bind_some, if_true, hcats]
      by_cases hnil : names = []
      · rw [if_pos hnil, if_pos ((joined_eq_nil_iff hnames).2 hnil)]
        rfl
      · rw [if_neg hnil, if_neg (mt (joined_eq_nil_iff hnames).1 hnil)]
        rfl

/-- The deletion loop ends on every component. A call that has returned 0 leaves the names, unless
    its write was cut short and what that has left parses to something else. -/
theorem set_categories_iff (hL : cfg.ical.Lawful) (h : Reachable cfg w)
    (hn : w.OpensAt cfg path n k) (hc : w.fileComponent cfg k = some c)
    (hnote : c.getInner.isSome = true) (hnames : CategoryNames names) {a : AttrCall}
    (ha : SetsCategories names a)
    (hrun : exec cfg (a.op path (bytes "user.categories")) w = .ok (0, w')) :
    (∀ (inner : Icalcomponent) (fuel : Nat),
      (inner.properties.filter (·.kind = .categories)).length < fuel →
        deleteCategories fuel inner =
          some { inner with properties := inner.properties.filter (·.kind ≠ .categories) }) ∧
    (CategoriesRead cfg w' path n k names ↔
      ∀ left, w.outcome = .writeFailed left →
        (cfg.ical.newFromString left).bind categoryList = some names) := by
  refine ⟨fun inner fuel hfuel => deleteCategories_run hfuel, ?_⟩
  have hpath : w.NotePath cfg path n k := ⟨hn, h.sound.toInv⟩
  rw [categoriesRead_iff (hpath.after hrun) hnames]
  cases hf : a.edit cfg (bytes "user.categories") with
  -- The length of the value is refused, and the status is not 0.
  | none =>
    have hnone : w.edit cfg (a.op path (bytes "user.categories")) = none := by
      rw [a.edit_op hn, hf]
      rfl
    exact absurd (same_of_exec hpath.inv a.editsNote hnone hrun).1 (by decide)
  | some f =>
    obtain ⟨value, s, rfl, hs, hvalue⟩ := ha.edit hf
    obtain ⟨hstatus, rfl⟩ := hpath.wrote_of_call hc hf hrun
    have hprintable := printable_withCategories value s c
      (printable_of_parsed (parsed_of_fileComponent hL hc))
    rw [fileComponent_stored hL k hprintable]
    unfold World.stored
    cases ho : w.outcome with
    | written =>
      simp only [Option.bind_some, categoryList_stored hnote hnames hs hvalue]
      exact iff_of_true trivial fun left hleft => nomatch hleft
    | openFailed =>
      rw [ho] at hstatus
      have hzero : (0 : Int) = - EIO := hstatus
      exact absurd hzero (by decide)
    | writeFailed left =>
      simp only [WriteOutcome.writeFailed.injEq, forall_eq']

/-- Two categories for the note `hello`. -/
def setTwoCategories : Op :=
  (AttrCall.set (bytes "a,b") 3 0).op (bytes "/Note.txt") (bytes "user.categories")

theorem setsTwoCategories (flags : Nat) :
    SetsCategories [bytes "a", bytes "b"] (.set (bytes "a,b") 3 flags) := .set rfl rfl

theorem twoCategoryNames : CategoryNames [bytes "a", bytes "b"] :=
  ⟨by decide, by decide, by decide⟩

theorem set_categories_iff_describedNote :
    CategoriesRead sampleConfig ((exec sampleConfig setTwoCategories).final (describedMount []))
      (bytes "/Note.txt") 1 (bytes "a.ics") [bytes "a", bytes "b"] := by
  obtain ⟨c, hn, _⟩ := describedMount_noteAt []
  have hrun : exec sampleConfig setTwoCategories (describedMount []) = .ok (0, _) :=
    exec_sample (by decide +kernel)
  refine (set_categories_iff structuralIcal_lawful (reachable_describedMount []) hn.toOpensAt
    hn.parses hn.journal twoCategoryNames (setsTwoCategories 0) hrun).2.2 fun left hleft => ?_
  exact absurd hleft (by simp [World.outcome, describedMount, sampleMount])

/-- A write that is cut short returns 0 as well. -/
theorem not_all_set_categories :
    ¬ ∀ (w w' : World Icalcomponent) (path k : CStr) (n : NodeId) (c : Icalcomponent)
      (names : List CStr) (a : AttrCall), Reachable sampleConfig w →
      w.NoteAt sampleConfig path n k c → names ≠ [] → CategoryNames names →
      SetsCategories names a →
      exec sampleConfig (a.op path (bytes "user.categories")) w = .ok (0, w') →
        CategoriesRead sampleConfig w' path n k names := by
  intro hall
  obtain ⟨c, hn, _⟩ := describedMount_noteAt [.writeFailed ⟨.vcalendar, [], []⟩]
  have hrun : exec sampleConfig setTwoCategories
      (describedMount [.writeFailed ⟨.vcalendar, [], []⟩]) = .ok (0, _) :=
    exec_sample (by decide +kernel)
  obtain ⟨c', hc', hlist⟩ := (hall _ _ _ _ _ c _ _ (reachable_describedMount _) hn (by decide)
    twoCategoryNames (setsTwoCategories 0) hrun).stored
  have hlost : ((exec sampleConfig setTwoCategories).final
      (describedMount [.writeFailed ⟨.vcalendar, [], []⟩])).fileComponent sampleConfig
        (bytes "a.ics") |>.all (fun c => (categoryList c).isNone) := by decide +kernel
  rw [hc', Option.all_some, hlist] at hlost
  cases hlost

end Agendafs
