import Agendafs.Spec.StatPaths

/-!
# The size of a directory

`calculate_node_size` adds up what it finds in the children of a directory, and
goes down again for each of them. Below the root there is no cycle and no node
has two parents, so this comes to an end and meets each file of the subtree once.

## Key results

- `size_mod_eq`: the size of a node as a sum over its subtree
- `directory_sizes`
-/

namespace Agendafs

open Store Prog

variable {Text : Type} {cfg : Config Text} {w : World Text} {n : NodeId}

/-- What a node adds to the size of the directories above it. -/
def World.ownSize (cfg : Config Text) (w : World Text) (n : NodeId) : Nat :=
  if w.isDirectory cfg n then 0 else icalcomponentGetDescriptionSize (w.component cfg n)

/-- The nodes that are allocated. -/
def World.nodes (w : World Text) : Finset NodeId := Finset.range w.store.nextId

theorem mem_nodes (h : w.store.Inv) (hn : w.store.links.Below w.store.fuseRoot n) :
    n ∈ w.nodes := Finset.mem_range.2 (h.lt_nextId n (h.live_of_below hn))

theorem sum_mod_congr {α : Type} {f g : α → Nat} {as : List α} {m : Nat}
    (h : ∀ a ∈ as, f a % m = g a % m) : (as.map f).sum % m = (as.map g).sum % m := by
  rw [List.sum_nat_mod, List.map_map, List.sum_nat_mod (as.map g), List.map_map]
  exact congrArg (·.sum % m) (List.map_congr_left h)

/-- Up to overflow the size of a node is the sum of what the nodes of its subtree add. -/
theorem size_mod_eq (cfg : Config Text) (h : w.store.Inv)
    (hn : w.store.links.Below w.store.fuseRoot n) {fuel : Nat} (hfuel : w.store.nextId ≤ fuel) :
    w.sizeWithin cfg fuel n % 2 ^ 64 =
      (∑ m ∈ w.store.links.subtree w.nodes n, w.ownSize cfg m) % 2 ^ 64 := by
  refine h.wf.induction_down h.root_parent w.nodes (fun m hm => mem_nodes h hm)
    (motive := fun fuel n => w.sizeWithin cfg fuel n % 2 ^ 64 =
      (∑ m ∈ w.store.links.subtree w.nodes n, w.ownSize cfg m) % 2 ^ 64)
    (fun fuel n hn ih => ?_) hn (by simpa [World.nodes] using hfuel)
  have hsum := h.wf.sum_subtree h.root_parent hn (mem_nodes h hn) (w.ownSize cfg)
  rw [hsum, World.sizeWithin]
  cases hdir : w.isDirectory cfg n with
  | false =>
    -- A file has no children and adds its own description.
    have hown : w.ownSize cfg n = icalcomponentGetDescriptionSize (w.component cfg n) := by
      simp [World.ownSize, hdir]
    simp [children_of_not_directory hdir, hown]
  | true =>
    -- A directory adds nothing itself, and each child has the sum over its own subtree.
    have hown : w.ownSize cfg n = 0 := by simp [World.ownSize, hdir]
    rw [if_pos rfl, Nat.mod_mod, hown, Nat.zero_add]
    exact sum_mod_congr ih

/-- The size of a directory is below the bound of a `size_t`. -/
theorem sizeWithin_lt (hdir : w.isDirectory cfg n = true) (fuel : Nat) :
    w.sizeWithin cfg fuel n < 2 ^ 64 := by
  cases fuel with
  | zero => exact Nat.two_pow_pos 64
  | succ fuel =>
    rw [World.sizeWithin, if_pos hdir]
    exact Nat.mod_lt _ (Nat.two_pow_pos 64)

/-- When every file below the node opens, `calculate_node_size` returns. -/
theorem calculateNodeSize_returns (h : w.store.Inv) {d : NodeId}
    (hopens : ∀ m e, w.store.links.Below d m → w.store.entry m = some e →
      m ≠ d → w.Readable cfg e.filenameVdir)
    (hd : w.store.links.Below w.store.fuseRoot d) {fuel : Nat} (hfuel : w.store.nextId ≤ fuel)
    {ic : Option Icalcomponent} (hic : ic = w.component cfg d ∨ w.store.links.children d ≠ []) :
    wp (calculateNodeSize cfg fuel d ic) (fun k w' => k = w.sizeWithin cfg fuel d ∧ w' = w)
      (fun _ => False) w := by
  -- Inside the subtree of `d`, by induction down the tree.
  refine h.wf.induction_down h.root_parent w.nodes (fun m hm => mem_nodes h hm)
    (motive := fun fuel n => w.store.links.Below d n → ∀ ic,
      ic = w.component cfg n ∨ w.store.links.children n ≠ [] →
      wp (calculateNodeSize cfg fuel n ic) (fun k w' => k = w.sizeWithin cfg fuel n ∧ w' = w)
        (fun _ => False) w)
    (fun fuel n hn ih hdn ic hic => ?_) hd (by simpa [World.nodes] using hfuel) .refl ic hic
  refine wp_calculateNodeSize_step h (h.live_of_below hn) (fun c hc hclosed => ?_)
    (fun c hc => ?_) hic
  · have hparent := h.wf.mem_children.1 hc
    have hcd : c ≠ d := by
      rintro rfl
      exact (Links.Below.step hparent hn).acyclic h.root_parent hparent hdn
    exact absurd (fun e he => hopens c e (.step hparent hdn) he hcd) hclosed
  · exact ih c hc (.step (h.wf.mem_children.1 hc) hdn) _ (.inl rfl)

/-- Below the root `calculate_node_size` ends, with any depth from the number of allocations on:
    it stops only where a file of the subtree does not open. What it returns for a directory is
    the sum of the descriptions of the files of the subtree, as a `size_t`. -/
theorem directory_sizes (h : Reachable cfg w) (hn : w.store.links.Below w.store.fuseRoot n)
    {ic : Option Icalcomponent} (hic : ic = w.component cfg n ∨ w.store.links.children n ≠ [])
    {fuel : Nat} (hfuel : w.store.nextId ≤ fuel) :
    (∀ crash, calculateNodeSize cfg fuel n ic w = .error crash → crash ≠ .endless ∧
      ∃ m e, w.store.links.Below n m ∧ w.store.entry m = some e ∧
        m ≠ n ∧ ¬ w.Readable cfg e.filenameVdir) ∧
    ∃ files : Finset NodeId,
      (∀ m, m ∈ files ↔ w.store.links.Below n m ∧ w.isDirectory cfg m = false) ∧
      ∀ k w', calculateNodeSize cfg fuel n ic w = .ok (k, w') → w' = w ∧
        (w.isDirectory cfg n = true →
          k = (∑ m ∈ files, icalcomponentGetDescriptionSize (w.component cfg m)) % 2 ^ 64) := by
  classical
  have hinv := h.sound.toInv
  have hsized : w.SizedWithin cfg fuel n := sizedWithin_of_below hinv hn hfuel
  have hreads := hsized.run ic hic
  constructor
  · intro crash hcrash
    constructor
    · rintro rfl
      rcases hreads.error hcrash with hc | hc | hc
      · cases hc
      · cases hc
      · cases hc
    · by_contra hnone
      push Not at hnone
      exact (calculateNodeSize_returns hinv hnone hn hfuel hic).error hcrash
  · refine ⟨(w.store.links.subtree w.nodes n).filter fun m => w.isDirectory cfg m = false,
      fun m => ?_, fun k w' hrun => ?_⟩
    · rw [Finset.mem_filter, Links.mem_subtree]
      constructor
      · rintro ⟨⟨_, hm⟩, hfile⟩
        exact ⟨hm, hfile⟩
      · rintro ⟨hm, hfile⟩
        exact ⟨⟨mem_nodes hinv (hn.trans hm), hm⟩, hfile⟩
    · obtain ⟨rfl, rfl⟩ := hreads.ok hrun
      refine ⟨rfl, fun hdir => ?_⟩
      have hsum : ∑ m ∈ w'.store.links.subtree w'.nodes n, w'.ownSize cfg m =
          ∑ m ∈ (w'.store.links.subtree w'.nodes n).filter fun m => w'.isDirectory cfg m = false,
            icalcomponentGetDescriptionSize (w'.component cfg m) := by
        rw [Finset.sum_filter]
        refine Finset.sum_congr rfl fun m _ => ?_
        cases hm : w'.isDirectory cfg m with
        | true => simp [World.ownSize, hm]
        | false => simp [World.ownSize, hm]
      rw [← hsum, ← size_mod_eq cfg hinv hn hfuel, Nat.mod_eq_of_lt (sizeWithin_lt hdir fuel)]

theorem directory_sizes_nestedNote :
    ∃ files : Finset NodeId,
      (∀ m, m ∈ files ↔ (sampleMount nestedNote {}).store.links.Below 1 m ∧
        (sampleMount nestedNote {}).isDirectory sampleConfig m = false) ∧
      ∀ k w', calculateNodeSize sampleConfig 3 1
          ((sampleMount nestedNote {}).component sampleConfig 1) (sampleMount nestedNote {}) =
            .ok (k, w') → w' = sampleMount nestedNote {} ∧
        ((sampleMount nestedNote {}).isDirectory sampleConfig 1 = true →
          k = (∑ m ∈ files, icalcomponentGetDescriptionSize
            ((sampleMount nestedNote {}).component sampleConfig m)) % 2 ^ 64) := by
  have hparent : (sampleMount nestedNote {}).store.links.parent 1 =
      some (sampleMount nestedNote {}).store.fuseRoot := by decide +kernel
  have hfuel : (sampleMount nestedNote {}).store.nextId ≤ 3 := by decide +kernel
  exact (directory_sizes reachable_nestedNote (.step hparent .refl) (.inl rfl) hfuel).2

end Agendafs
