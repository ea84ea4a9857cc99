import Agendafs.ForStd.Forest
import Mathlib.Algebra.BigOperators.Group.Finset.Basic

/-!
# Going down a forest

A recursion that goes from a node to its children takes as many calls in a row as
the tree is deep. Below a root there is no cycle, so every step down leaves a node
behind, and the number of nodes is enough.

## Key results

- `WF.induction_down`: induction down a tree with finitely many nodes
- `WF.sum_subtree`: a sum over a subtree, by the children of its root
-/

universe u v

namespace Links

variable {ι : Type u} {l : Links ι} {r : ι}

/-! ## The nodes below a node -/

/-- What is below a node, apart from the node itself, is below one of its children. -/
theorem WF.below_iff_children (h : l.WF) {n m : ι} :
    Below l n m ↔ m = n ∨ ∃ c ∈ l.children n, Below l c m := by
  constructor
  · intro hm
    induction hm with
    | refl => exact .inl rfl
    | step hp _ ih =>
      rcases ih with rfl | ⟨c, hc, hcp⟩
      · exact .inr ⟨_, h.mem_children.2 hp, .refl⟩
      · exact .inr ⟨c, hc, .step hp hcp⟩
  · rintro (rfl | ⟨c, hc, hm⟩)
    · exact .refl
    · exact Below.trans (.step (h.mem_children.1 hc) .refl) hm

/-- Of two nodes above a third, one is above the other. -/
theorem Below.comparable {a b n : ι} (ha : Below l a n) (hb : Below l b n) :
    Below l a b ∨ Below l b a := by
  induction ha with
  | refl => exact .inr hb
  | step hp ha ih =>
    cases hb with
    | refl => exact .inl (.step hp ha)
    | step hp' hb =>
      -- A node has one parent, which both of them are above.
      obtain rfl := Option.some.inj (hp.symm.trans hp')
      exact ih hb

/-- No node is below two children of one node. -/
theorem WF.eq_of_below_children (h : l.WF) (hr : l.parent r = none) {n c d m : ι}
    (hn : Below l r n) (hc : c ∈ l.children n) (hd : d ∈ l.children n) (hcm : Below l c m)
    (hdm : Below l d m) : c = d := by
  have hone : ∀ {a b : ι}, a ∈ l.children n → b ∈ l.children n → Below l a b → a = b := by
    intro a b ha hb hab
    have hpa := h.mem_children.1 ha
    cases hab with
    | refl => rfl
    | step hp hap =>
      -- The parent of both would be below the first of them.
      obtain rfl := Option.some.inj ((h.mem_children.1 hb).symm.trans hp)
      exact absurd hap ((Below.step hpa hn).acyclic hr hpa)
  rcases hcm.comparable hdm with hcd | hdc
  · exact hone hc hd hcd
  · exact (hone hd hc hdc).symm

/-! ## Subtrees -/

open Classical in
/-- The nodes of the subtree of `n`. -/
noncomputable def subtree (l : Links ι) (nodes : Finset ι) (n : ι) : Finset ι :=
  nodes.filter (Below l n)

theorem mem_subtree {nodes : Finset ι} {n m : ι} :
    m ∈ l.subtree nodes n ↔ m ∈ nodes ∧ Below l n m := by
  simp only [subtree, Finset.mem_filter]

theorem subtree_subset (l : Links ι) (nodes : Finset ι) (n : ι) : l.subtree nodes n ⊆ nodes := by
  intro m hm
  exact (mem_subtree.1 hm).1

/-- The subtree of a child is smaller. -/
theorem WF.subtree_lt (h : l.WF) (hr : l.parent r = none) {nodes : Finset ι} {n c : ι}
    (hn : Below l r n) (hmem : n ∈ nodes) (hc : c ∈ l.children n) :
    (l.subtree nodes c).card < (l.subtree nodes n).card := by
  have hparent := h.mem_children.1 hc
  apply Finset.card_lt_card
  rw [Finset.ssubset_iff_of_subset]
  · refine ⟨n, ?_, ?_⟩
    · exact mem_subtree.2 ⟨hmem, .refl⟩
    · have hnot : ¬ Below l c n := (Below.step hparent hn).acyclic hr hparent
      simp [mem_subtree, hnot]
  · intro m hm
    rw [mem_subtree] at hm ⊢
    exact ⟨hm.1, Below.trans (.step hparent .refl) hm.2⟩

/-- Induction down a tree, with as much fuel as there are nodes. -/
theorem WF.induction_down (h : l.WF) (hr : l.parent r = none) (nodes : Finset ι)
    (hnodes : ∀ n, Below l r n → n ∈ nodes) {motive : ℕ → ι → Prop}
    (step : ∀ fuel n, Below l r n → (∀ c ∈ l.children n, motive fuel c) → motive (fuel + 1) n)
    {fuel : ℕ} {n : ι} (hn : Below l r n) (hfuel : nodes.card ≤ fuel) : motive fuel n := by
  -- The nodes that are left are those of the subtree.
  suffices hgo : ∀ (fuel : ℕ) (n : ι), Below l r n → (l.subtree nodes n).card ≤ fuel →
      motive fuel n from
    hgo fuel n hn ((Finset.card_le_card (l.subtree_subset nodes n)).trans hfuel)
  intro fuel
  induction fuel with
  | zero =>
    intro n hn hcard
    have hmem : n ∈ l.subtree nodes n := mem_subtree.2 ⟨hnodes n hn, .refl⟩
    have := Finset.card_pos.2 ⟨n, hmem⟩
    omega
  | succ fuel ih =>
    intro n hn hcard
    refine step fuel n hn fun c hc => ?_
    have hlt := h.subtree_lt hr hn (hnodes n hn) hc
    exact ih c (.step (h.mem_children.1 hc) hn) (by omega)

open Classical in
/-- A sum over the nodes of a subtree adds up its root and the subtrees of the children. -/
theorem WF.sum_subtree {M : Type v} [AddCommMonoid M] (h : l.WF) (hr : l.parent r = none)
    {nodes : Finset ι} {n : ι} (hn : Below l r n) (hmem : n ∈ nodes) (f : ι → M) :
    ∑ m ∈ l.subtree nodes n, f m =
      f n + ((l.children n).map fun c => ∑ m ∈ l.subtree nodes c, f m).sum := by
  have hsplit : l.subtree nodes n =
      insert n ((l.children n).toFinset.biUnion (l.subtree nodes)) := by
    ext m
    simp only [mem_subtree, Finset.mem_insert, Finset.mem_biUnion, List.mem_toFinset]
    rw [h.below_iff_children]
    constructor
    · rintro ⟨hm, rfl | ⟨c, hc, hcm⟩⟩
      · exact .inl rfl
      · exact .inr ⟨c, hc, hm, hcm⟩
    · rintro (rfl | ⟨c, hc, hm, hcm⟩)
      · exact ⟨hmem, .inl rfl⟩
      · exact ⟨hm, .inr ⟨c, hc, hcm⟩⟩
  have hnot : n ∉ (l.children n).toFinset.biUnion (l.subtree nodes) := by
    simp only [Finset.mem_biUnion, List.mem_toFinset, mem_subtree, not_exists, not_and]
    intro c hc _ hcn
    exact (Below.step (h.mem_children.1 hc) hn).acyclic hr (h.mem_children.1 hc) hcn
  have hdisjoint : ((l.children n).toFinset : Set ι).PairwiseDisjoint (l.subtree nodes) := by
    intro c hc d hd hne
    apply Finset.disjoint_left.2
    intro m hcm hdm
    simp only [Finset.mem_coe, List.mem_toFinset] at hc hd
    exact hne (h.eq_of_below_children hr hn hc hd (mem_subtree.1 hcm).2 (mem_subtree.1 hdm).2)
  rw [hsplit, Finset.sum_insert hnot, Finset.sum_biUnion hdisjoint,
    List.sum_toFinset _ (h.nodup n)]

end Links
