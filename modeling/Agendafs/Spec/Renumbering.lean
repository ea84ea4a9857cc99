import Agendafs.Spec.StoreCorrect
import Mathlib.Order.Bounds.Defs

/-!
# Renumbering ends and is minimal

The loop of `add_fuse_child` has no bound of its own. Its candidates are all
different, so among one more than there are children one is free, and the loop
stops at the first.

## Key results

- `uniqueFilename_rounds`: the number of candidates that the loop tries
- `renumbering_ends_minimal`
-/

namespace Agendafs

open Store

variable {s : Store} {filename : CStr} {names : List CStr} {siblings : List NodeId}

/-! ## The first free number -/

theorem numbered_of_pos {k : Nat} (h : 0 < k) :
    numbered filename k = filenameNumbered filename k := by
  cases k with
  | zero => exact absurd h (Nat.lt_irrefl 0)
  | succ k => rfl

/-- A free name is kept. -/
theorem freshIndex_of_not_mem (h : filename ∉ names) : freshIndex filename names = 0 := by
  by_contra hne
  exact h (mem_of_lt_freshIndex (Nat.pos_of_ne_zero hne))

/-- A taken name gets the least number that makes it free. -/
theorem freshIndex_isLeast (h : filename ∈ names) :
    IsLeast {k | 1 ≤ k ∧ filenameNumbered filename k ∉ names} (freshIndex filename names) := by
  have hfree := freshName_not_mem filename names
  have hpos : 0 < freshIndex filename names := by
    by_contra hnot
    rw [freshName, Nat.eq_zero_of_not_pos hnot] at hfree
    exact hfree h
  refine ⟨⟨hpos, ?_⟩, ?_⟩
  · rw [← numbered_of_pos hpos]
    exact hfree
  · rintro k ⟨hk, hfreek⟩
    by_contra hlt
    have htaken := mem_of_lt_freshIndex (Nat.lt_of_not_le hlt)
    rw [numbered_of_pos hk] at htaken
    exact hfreek htaken

/-! ## The loop -/

/-- Before the first free candidate the loop does not stop. -/
theorem uniqueFilename_endless (h : ∀ n ∈ siblings, s.Live n) (rounds k : Nat)
    (hrounds : k + rounds ≤ freshIndex filename (siblings.map s.name)) :
    uniqueFilename filename siblings rounds (numbered filename k) (k + 1) s =
      .error .endless := by
  induction rounds generalizing k with
  | zero => rfl
  | succ rounds ih =>
    have htaken : numbered filename k ∈ siblings.map s.name := mem_of_lt_freshIndex (by omega)
    unfold uniqueFilename
    rw [Prog.bind_run_ok (isUnique_run _ h), if_neg (by simpa using htaken)]
    exact ih (k + 1) (by omega)

/-- The loop needs one round for each candidate up to the first free one. -/
theorem uniqueFilename_rounds (h : ∀ n ∈ siblings, s.Live n) (filename : CStr) (rounds : Nat) :
    uniqueFilename filename siblings rounds filename 1 s =
      if freshIndex filename (siblings.map s.name) < rounds then
        .ok (freshName filename (siblings.map s.name), s)
      else .error .endless := by
  split
  · rename_i hrounds
    exact uniqueFilename_run h rounds 0 (Nat.zero_le _) (by omega)
  · rename_i hrounds
    exact uniqueFilename_endless h rounds 0 (by omega)

/-! ## The child and its siblings -/

/-- `add_fuse_child` tries at most one candidate more than there are children. The child keeps its
    name if that is free, and gets the least number that makes it free otherwise; no other node is
    renamed, and the child becomes the last one. -/
theorem renumbering_ends_minimal {p c : NodeId} {t : TreeNode} {e : AgendaEntry}
    (hp : s.heap p = some t) (hsiblings : ∀ n ∈ t.children, s.Live n)
    (he : s.entry c = some e) :
    (∀ f, Function.Injective (filenameNumbered f)) ∧
    ∃ k s', k ≤ t.children.length ∧
      (∀ rounds, uniqueFilename e.filename t.children rounds e.filename 1 s =
        if k < rounds then .ok (s'.name c, s) else .error .endless) ∧
      addFuseChild (some p) c s = .ok (0, s') ∧
      s'.name c ∉ t.children.map s.name ∧
      (e.filename ∉ t.children.map s.name → k = 0 ∧ s'.name c = e.filename) ∧
      (e.filename ∈ t.children.map s.name →
        IsLeast {k | 1 ≤ k ∧ filenameNumbered e.filename k ∉ t.children.map s.name} k ∧
          s'.name c = filenameNumbered e.filename k) ∧
      (∀ n, n ≠ c → s'.name n = s.name n) ∧
      s'.links.children p = t.children ++ [c] ∧ s'.links.parent c = some p := by
  have hchildren := links_children_eq hp
  have hlive : s.Live p := Option.isSome_iff_exists.2 ⟨t, hp⟩
  have hc := live_of_entry he
  have hrun := addFuseChild_run_of_live hlive (hchildren.symm ▸ hsiblings) he
  rw [childNames, hchildren] at hrun
  have hbound := freshIndex_le e.filename (t.children.map s.name)
  rw [List.length_map] at hbound
  -- The new names are the old ones but for the child.
  have hname : ∀ x n, ((s.rename c x).attach p c).name n = Function.update s.name c x n := by
    intro x n
    rw [attach_name, rename_name he]
  have hself : ∀ x, ((s.rename c x).attach p c).name c = x := fun x =>
    (hname x c).trans (Function.update_self ..)
  have hlinks := links_attach
    (s := s.rename c (freshName e.filename (t.children.map s.name)))
    ((rename_live ..).2 hlive) ((rename_live ..).2 hc)
  rw [links_rename] at hlinks
  refine ⟨filenameNumbered_injective, freshIndex e.filename (t.children.map s.name), _, hbound,
    fun rounds => ?_, hrun, ?_, fun hfree => ⟨freshIndex_of_not_mem hfree, ?_⟩,
    fun htaken => ⟨freshIndex_isLeast htaken, ?_⟩, fun n hn => ?_, ?_, ?_⟩
  · rw [hself]
    exact uniqueFilename_rounds hsiblings e.filename rounds
  · rw [hself]
    exact freshName_not_mem _ _
  · rw [hself, freshName, freshIndex_of_not_mem hfree]
    rfl
  · rw [hself, freshName, numbered_of_pos (freshIndex_isLeast htaken).1.1]
  · rw [hname, Function.update_of_ne hn]
  · rw [hlinks, Links.attach_children, Function.update_self, hchildren]
  · rw [hlinks, Links.attach_parent, Function.update_self]

/-- A directory with notes `a.txt` and `a.1.txt`, and another note `a.txt` outside. -/
def namesakes : Store where
  heap n := match n with
    | 0 => some ⟨none, none, [1, 2]⟩
    | 1 => some ⟨some ⟨bytes "a.txt", bytes "1.ics"⟩, some 0, []⟩
    | 2 => some ⟨some ⟨bytes "a.1.txt", bytes "2.ics"⟩, some 0, []⟩
    | 3 => some ⟨some ⟨bytes "a.txt", bytes "3.ics"⟩, none, []⟩
    | _ => none
  nextId := 4
  fuseRoot := 0
  entriesVdir := Hashmap.new

theorem renumbering_ends_minimal_namesakes :
    ∃ s', addFuseChild (some 0) 3 namesakes = .ok (0, s') ∧ s'.name 3 = bytes "a.2.txt" ∧
      s'.links.children 0 = [1, 2, 3] := by
  have hsiblings : ∀ n ∈ [1, 2], namesakes.Live n := by simp [Store.Live, namesakes]
  obtain ⟨_, k, s', _, _, hrun, _, _, htaken, _, hchildren, _⟩ :=
    renumbering_ends_minimal (s := namesakes) (p := 0) (c := 3) rfl hsiblings rfl
  obtain ⟨hleast, hname⟩ := htaken (by decide +kernel)
  -- The first number is taken.
  have hk : 2 ≤ k := by
    by_contra hlt
    obtain rfl : k = 1 := by
      have := hleast.1.1
      omega
    exact hleast.1.2 (by decide +kernel)
  have hk' : k ≤ 2 := hleast.2 ⟨by decide, by decide +kernel⟩
  obtain rfl := Nat.le_antisymm hk' hk
  exact ⟨s', hrun, hname.trans (by decide +kernel), hchildren⟩

end Agendafs
