import Agendafs.Spec.Listing

/-!
# Lookup by path is the inverse of naming

A path spells a list of names: each behind one or more slashes, with any number of
slashes at the end. In a tree whose siblings have different, proper names
`get_node_by_path` follows these names from the root, and every node is found by
the names on the way down to it.

## Key results

- `splitPath_of_spells`: the tokeniser reads the names back
- `Run.namedTree`: the trees of the program's runs are such trees
- `lookup_inverts_naming`
-/

namespace Agendafs

open Store

/-! ## Spellings of a path -/

/-- The path spells these names. -/
inductive Spells : CStr → List CStr → Prop
  | slashes (k : Nat) : Spells (List.replicate k slash) []
  | name {x path : CStr} {xs : List CStr} (k : Nat) (hne : x ≠ []) (hflat : slash ∉ x)
      (hrest : Spells path xs) : Spells (List.replicate (k + 1) slash ++ (x ++ path)) (x :: xs)

theorem strtok_replicate (c : UInt8) (k : Nat) (q : CStr) :
    strtok c (List.replicate k c ++ q) [] = strtok c q [] := by
  induction k with
  | zero => rfl
  | succ k ih => simpa [List.replicate_succ, strtok] using ih

/-- Behind a name comes the end of the path or a slash. -/
theorem Spells.nil_or_slash {path : CStr} {xs : List CStr} (h : Spells path xs) :
    path = [] ∨ ∃ rest, path = slash :: rest := by
  cases h with
  | slashes k =>
    cases k with
    | zero => exact .inl rfl
    | succ k => exact .inr ⟨_, rfl⟩
  | name k => exact .inr ⟨_, rfl⟩

/-- `split_path` reads the names back. -/
theorem splitPath_of_spells {path : CStr} {xs : List CStr} (h : Spells path xs) :
    splitPath path = xs := by
  -- Induction on the spelling; the token ends at the slash or at the end of the path.
  induction h with
  | slashes k =>
    have := strtok_replicate slash k []
    rw [List.append_nil] at this
    exact this
  | @name x path xs k hne hflat hrest ih =>
    unfold splitPath at ih ⊢
    rw [strtok_replicate]
    rcases hrest.nil_or_slash with rfl | ⟨rest, rfl⟩
    · rw [List.append_nil, strtok_of_not_mem hflat, List.nil_append, if_neg hne, ← ih]
      rfl
    · have htail : strtok slash (slash :: rest) [] = strtok slash rest [] := by simp [strtok]
      rw [strtok_append, strtok_of_not_mem hflat, List.nil_append, if_neg hne, ← htail, ih]
      rfl

/-- Proper names can be spelled. -/
theorem exists_spells {xs : List CStr} (h : ProperSegments xs) : ∃ path, Spells path xs := by
  induction xs with
  | nil => exact ⟨_, .slashes 1⟩
  | cons x xs ih =>
    obtain ⟨path, hpath⟩ := ih fun y hy => h y (List.mem_cons_of_mem _ hy)
    obtain ⟨hne, hflat⟩ := h x List.mem_cons_self
    exact ⟨_, .name 0 hne hflat hpath⟩

/-! ## Trees of names -/

/-- A tree whose parent pointers and child lists agree, and whose siblings have different names
    that can be path components. -/
structure Store.NamedTree (s : Store) : Prop where
  wf : s.links.WF
  root_live : s.Live s.fuseRoot
  root_parent : s.links.parent s.fuseRoot = none
  distinct : s.links.Distinct s.name
  proper : ∀ p c, c ∈ s.links.children p → s.name c ≠ [] ∧ slash ∉ s.name c

variable {s : Store} {n : NodeId}

/-- These names lead from the root to the node. -/
def Store.Reaches (s : Store) (names : List CStr) (n : NodeId) : Prop :=
  s.links.Follows s.name s.fuseRoot names n

theorem Store.NamedTree.properSegments (h : s.NamedTree) {p n : NodeId} {names : List CStr}
    (hn : s.links.Follows s.name p names n) : ProperSegments names := by
  induction hn with
  | nil => exact fun y hy => absurd hy List.not_mem_nil
  | cons hc _ ih =>
    intro y hy
    rcases List.mem_cons.1 hy with rfl | hy
    · exact h.proper _ _ hc
    · exact ih y hy

/-- The lookup of a spelled path, unless it is too deep. -/
theorem Store.NamedTree.getNodeByPath_run (h : s.NamedTree) {path : CStr} {names : List CStr}
    (hpath : Spells path names) (hlen : names.length ≤ 255) :
    getNodeByPath path s = .ok (s.links.resolve s.name s.fuseRoot names, s) := by
  have hsplit := splitPath_of_spells hpath
  rw [getNodeByPath_walks h.wf h.root_live, Store.lookup, hsplit, if_neg (by omega)]

/-- Lookup by path is the inverse of naming: a spelled path of at most 255 names gives the node
    that the names lead to, and NULL where there is none; every node below the root has a path,
    and no two nodes have one path. -/
theorem lookup_inverts_naming (h : s.NamedTree) :
    (∀ path names, Spells path names → names.length ≤ 255 →
      (∀ n, getNodeByPath path s = .ok (some n, s) ↔ s.Reaches names n) ∧
      (getNodeByPath path s = .ok (none, s) ↔ ¬ ∃ n, s.Reaches names n)) ∧
    (∀ names n m, s.Reaches names n → s.Reaches names m → n = m) ∧
    (∀ n, Relation.ReflTransGen (fun p c => c ∈ s.links.children p) s.fuseRoot n →
      ∃ names, s.Reaches names n ∧ (∃ path, Spells path names) ∧
        (names.length ≤ 255 → ∀ path, Spells path names →
          getNodeByPath path s = .ok (some n, s))) ∧
    ∀ path names names' n m, s.Reaches names n → s.Reaches names' m → n ≠ m →
      Spells path names → ¬ Spells path names' := by
  -- Resolving finds the only child of a name at every step.
  have hiff : ∀ {names n}, s.links.resolve s.name s.fuseRoot names = some n ↔ s.Reaches names n :=
    h.wf.resolve_eq_some h.distinct
  have hunique : ∀ names n m, s.Reaches names n → s.Reaches names m → n = m := by
    intro names n m hn hm
    exact Option.some.inj ((hiff.2 hn).symm.trans (hiff.2 hm))
  refine ⟨fun path names hpath hlen => ?_, hunique, fun n hn => ?_, ?_⟩
  · have hrun := h.getNodeByPath_run hpath hlen
    constructor
    · intro n
      rw [hrun, ← hiff]
      simp
    · rw [hrun]
      cases hres : s.links.resolve s.name s.fuseRoot names with
      | none =>
        refine iff_of_true rfl ?_
        rintro ⟨n, hn⟩
        rw [← hiff, hres] at hn
        cases hn
      | some n => exact iff_of_false (by simp) (not_not.2 ⟨n, hiff.1 hres⟩)
  -- The names on the way down from the root.
  · obtain ⟨names, hnames⟩ : ∃ names, s.links.Follows s.name s.fuseRoot names n :=
      Links.Follows.exists_of_below h.wf (h.wf.below_iff.2 hn)
    refine ⟨names, hnames, exists_spells (h.properSegments hnames), fun hlen path hpath => ?_⟩
    rw [h.getNodeByPath_run hpath hlen, hiff.2 hnames]
  -- A path splits in one way.
  · intro path names names' n m hn hm hne hpath hpath'
    obtain rfl : names = names' := (splitPath_of_spells hpath).symm.trans (splitPath_of_spells hpath')
    exact hne (hunique names n m hn hm)

/-- The trees of runs that take in proper names only. -/
theorem Run.namedTree {Text : Type} {cfg : Config Text} {w : World Text}
    (h : Run cfg (listableRuns cfg) w) : w.store.NamedTree where
  wf := h.sound.wf
  root_live := h.sound.root_live
  root_parent := h.sound.root_parent
  distinct := h.properNames.1
  proper p c hc := by
    have hparent := h.sound.wf.mem_children.1 hc
    obtain ⟨e, he⟩ := h.sound.entry_of_live c (h.sound.live_child hc) (h.sound.child_ne_root hparent)
    have hname := h.properNames.2 c e he
    rw [name_of_entry he]
    exact ⟨hname.nonempty, hname.flat⟩

theorem lookup_inverts_naming_nestedNote :
    getNodeByPath (bytes "//Dir///Note.txt//") (sampleMount nestedNote {}).store =
      .ok (some 2, (sampleMount nestedNote {}).store) := by
  have hrun : Run sampleConfig (listableRuns sampleConfig) (sampleMount nestedNote {}) :=
    run_nestedNote listableLoad_nestedNote
  have htree := hrun.namedTree
  have hnote : Spells (bytes "///Note.txt//") [bytes "Note.txt"] :=
    .name (x := bytes "Note.txt") 2 (by decide) (by decide) (.slashes 2)
  have hspells : Spells (bytes "//Dir///Note.txt//") [bytes "Dir", bytes "Note.txt"] :=
    .name (x := bytes "Dir") 1 (by decide) (by decide) hnote
  have hreaches : (sampleMount nestedNote {}).store.Reaches [bytes "Dir", bytes "Note.txt"] 2 :=
    (htree.wf.resolve_eq_some htree.distinct).1 (by decide +kernel)
  exact (((lookup_inverts_naming htree).1 _ _ hspells (by decide)).1 2).2 hreaches

end Agendafs
