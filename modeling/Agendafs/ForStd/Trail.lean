import Agendafs.ForStd.Forest

/-!
# Forests as maps from paths

Where siblings have different names, following a list of names is the same as
going up from the node that is reached and reading the names off (`Trail`). In
that form only parents and names matter, and the edits of a forest become edits
of the map from paths to nodes: hanging a new leaf sets one path, taking a leaf
off clears one, and moving a subtree moves the paths through its root.

## Key results

- `Links.WF.resolve_iff`: `resolve` and `Trail` agree
- `Links.Moved.trail_iff`: the paths after a subtree has been moved and renamed
- `Links.WF.resolve_attach`, `resolve_remove`, `resolve_move`: the edits as edits of the map
-/

universe u v

namespace Links

variable {ι : Type u} {ν : Type v} {l l' : Links ι} {name name' : ι → ν} {r : ι}

/-- The names on the way down from `r` to a node. -/
inductive Trail (l : Links ι) (name : ι → ν) (r : ι) : List ν → ι → Prop
  | nil : Trail l name r [] r
  | snoc {xs : List ν} {p n : ι} : Trail l name r xs p → l.parent n = some p →
      Trail l name r (xs ++ [name n]) n

theorem below_of_trail {xs : List ν} {n : ι} (h : Trail l name r xs n) : Below l r n := by
  induction h with
  | nil => exact .refl
  | snoc _ hp ih => exact .step hp ih

theorem Trail.append {xs ys : List ν} {p n : ι} (hx : Trail l name r xs p)
    (hy : Trail l name p ys n) : Trail l name r (xs ++ ys) n := by
  induction hy with
  | nil => rwa [List.append_nil]
  | snoc _ hp ih => rw [← List.append_assoc]; exact .snoc ih hp

/-- A trail stays where the nodes on it keep parent and name. -/
theorem Trail.congr {xs : List ν} {n : ι} (h : Trail l name r xs n)
    (hsame : ∀ m q, l.parent m = some q → Below l r q → Below l m n →
      l'.parent m = some q ∧ name' m = name m) : Trail l' name' r xs n := by
  induction h with
  | nil => exact .nil
  | @snoc xs p n hx hp ih =>
    obtain ⟨hp', hname⟩ := hsame n p hp (below_of_trail hx) .refl
    rw [← hname]
    exact .snoc (ih fun m q hq hr hm => hsame m q hq hr (.step hp hm)) hp'

/-- Siblings have different names. -/
def Distinct (l : Links ι) (name : ι → ν) : Prop := ∀ p, ((l.children p).map name).Nodup

section Resolve

variable [DecidableEq ν]

/-- Among siblings of different names the one with a given name is found. -/
theorem Distinct.find? (hd : l.Distinct name) (h : l.WF) {p n : ι} (hp : l.parent n = some p) :
    (l.children p).find? (name · = name n) = some n := by
  have hmem := h.mem_children.2 hp
  cases hfind : (l.children p).find? (name · = name n) with
  | none => simpa using List.find?_eq_none.1 hfind n hmem
  | some m =>
    have hm := List.mem_of_find?_eq_some hfind
    have hname : name m = name n := by simpa using List.find?_some hfind
    exact congrArg some (List.inj_on_of_nodup_map (hd p) hm hmem hname)

/-- Following names leads to a node exactly along its trail. -/
theorem WF.resolve_iff (h : l.WF) (hd : l.Distinct name) {xs : List ν} {n : ι} :
    l.resolve name r xs = some n ↔ Trail l name r xs n := by
  constructor
  · intro hn
    induction xs using List.reverseRec generalizing n with
    | nil => exact Option.some.inj hn ▸ .nil
    | append_singleton xs x ih =>
      obtain ⟨p, hxs, hp, rfl⟩ := h.of_resolve_append hn
      exact .snoc (ih hxs) hp
  · intro hn
    induction hn with
    | nil => rfl
    | snoc _ hp ih => rw [resolve_append, ih, Option.bind_some, resolve_singleton, hd.find? h hp]

/-- The children with these names, one below the other, lead from `n` to `m`. -/
inductive Follows (l : Links ι) (name : ι → ν) : ι → List ν → ι → Prop
  | nil {n : ι} : Follows l name n [] n
  | cons {n c m : ι} {xs : List ν} : c ∈ l.children n → Follows l name c xs m →
      Follows l name n (name c :: xs) m

/-- `resolve` finds the one node that the names lead to. -/
theorem WF.resolve_eq_some (h : l.WF) (hd : l.Distinct name) {xs : List ν} {n m : ι} :
    l.resolve name n xs = some m ↔ Follows l name n xs m := by
  constructor
  · intro hm
    induction xs generalizing n with
    | nil =>
      obtain rfl := Option.some.inj hm
      exact .nil
    | cons x xs ih =>
      unfold resolve at hm
      cases hc : (l.children n).find? (name · = x) with
      | none =>
        rw [hc] at hm
        cases hm
      | some c =>
        rw [hc] at hm
        have hname : name c = x := by simpa using List.find?_some hc
        rw [← hname]
        exact .cons (List.mem_of_find?_eq_some hc) (ih hm)
  · intro hm
    induction hm with
    | nil => rfl
    | cons hc _ ih =>
      unfold resolve
      rw [hd.find? h (h.mem_children.1 hc)]
      exact ih

omit [DecidableEq ν] in
/-- Every node below `n` is reached by names. -/
theorem Follows.exists_of_below (h : l.WF) {n m : ι} (hm : Below l n m) :
    ∃ xs, Follows l name n xs m := by
  have append : ∀ {xs n q}, Follows l name n xs q → ∀ {m}, m ∈ l.children q →
      Follows l name n (xs ++ [name m]) m := by
    intro xs n q hq
    induction hq with
    | nil => exact fun hm => .cons hm .nil
    | cons hc _ ih => exact fun hm => .cons hc (ih hm)
  induction hm with
  | refl => exact ⟨[], .nil⟩
  | step hp _ ih =>
    obtain ⟨xs, hxs⟩ := ih
    exact ⟨_, append hxs (h.mem_children.2 hp)⟩

end Resolve

/-! ## Moving a subtree -/

section Move

variable [DecidableEq ι] {p c : ι}

/-- The links and names of `l` after the node `c` has been hung below `p`, under some name. -/
structure Moved (l l' : Links ι) (name name' : ι → ν) (c p : ι) : Prop where
  parent : l'.parent = Function.update l.parent c (some p)
  name : ∀ n, n ≠ c → name' n = name n

/-- Outside the subtree that is moved a trail stays. -/
theorem Moved.trail_of_not_below (h : Moved l l' name name' c p) {xs : List ν} {n : ι}
    (hn : Trail l name r xs n) (hc : ¬ Below l c n) : Trail l' name' r xs n := by
  refine hn.congr fun m q hq _ hm => ?_
  have hmc : m ≠ c := by
    rintro rfl
    exact hc hm
  rw [h.parent, Function.update_of_ne hmc]
  exact ⟨hq, h.name m hmc⟩

/-- Within the subtree that is moved a trail stays. -/
theorem Moved.trail_of_below (h : Moved l l' name name' c p)
    (hacyclic : ∀ q, l.parent c = some q → ¬ Below l c q) {xs : List ν} {n : ι}
    (hn : Trail l name c xs n) : Trail l' name' c xs n := by
  refine hn.congr fun m q hq hc _ => ?_
  have hmc : m ≠ c := by
    rintro rfl
    exact hacyclic q hq hc
  rw [h.parent, Function.update_of_ne hmc]
  exact ⟨hq, h.name m hmc⟩

/-- After the move a node is reached as before, or through the new place of the subtree. -/
theorem Moved.trail_iff (h : Moved l l' name name' c p) (hr : l.parent r = none) (hcr : c ≠ r)
    (hcp : ¬ Below l c p) (hacyclic : ∀ q, l.parent c = some q → ¬ Below l c q)
    {xs : List ν} {n : ι} :
    Trail l' name' r xs n ↔ (¬ Below l c n ∧ Trail l name r xs n) ∨
      ∃ ys zs, Trail l name r ys p ∧ Trail l name c zs n ∧ xs = ys ++ name' c :: zs := by
  constructor
  · intro hn
    induction hn with
    | nil => exact .inl ⟨fun hc => hcr (hc.eq_of_parent_none hr), .nil⟩
    | @snoc xs q n _ hq ih =>
      rw [h.parent] at hq
      by_cases hnc : n = c
      · -- The last step leads to the subtree at its new place.
        subst hnc
        rw [Function.update_self, Option.some.injEq] at hq
        subst hq
        rcases ih with ⟨_, hxs⟩ | ⟨_, zs, _, hzs, _⟩
        · exact .inr ⟨xs, [], hxs, .nil, rfl⟩
        · exact absurd (below_of_trail hzs) hcp
      · rw [Function.update_of_ne hnc] at hq
        rw [h.name n hnc]
        rcases ih with ⟨hcq, hxs⟩ | ⟨ys, zs, hys, hzs, rfl⟩
        · refine .inl ⟨fun hcn => ?_, .snoc hxs hq⟩
          cases hcn with
          | refl => exact hnc rfl
          | step hq' hcq' =>
            rw [hq, Option.some.injEq] at hq'
            exact hcq (hq' ▸ hcq')
        · exact .inr ⟨ys, zs ++ [name n], hys, .snoc hzs hq, by simp⟩
  · rintro (⟨hcn, hn⟩ | ⟨ys, zs, hys, hzs, rfl⟩)
    · exact h.trail_of_not_below hn hcn
    · have hc : Trail l' name' r (ys ++ [name' c]) c :=
        .snoc (h.trail_of_not_below hys hcp) (by rw [h.parent, Function.update_self])
      have htrail := hc.append (h.trail_of_below hacyclic hzs)
      rwa [List.append_assoc] at htrail

/-- After a subtree has been taken off, the other nodes are reached as before. -/
theorem trail_removed (hparent : l'.parent = Function.update l.parent c none)
    (hname : ∀ n, n ≠ c → name' n = name n) (hr : l.parent r = none) (hcr : c ≠ r)
    {xs : List ν} {n : ι} :
    Trail l' name' r xs n ↔ ¬ Below l c n ∧ Trail l name r xs n := by
  constructor
  · intro hn
    induction hn with
    | nil => exact ⟨fun hc => hcr (hc.eq_of_parent_none hr), .nil⟩
    | @snoc xs q n _ hq ih =>
      have hnc : n ≠ c := by
        rintro rfl
        rw [hparent, Function.update_self] at hq
        exact nomatch hq
      rw [hparent, Function.update_of_ne hnc] at hq
      rw [hname n hnc]
      refine ⟨fun hcn => ?_, .snoc ih.2 hq⟩
      cases hcn with
      | refl => exact hnc rfl
      | step hq' hcq' =>
        rw [hq, Option.some.injEq] at hq'
        exact ih.1 (hq' ▸ hcq')
  · rintro ⟨hcn, hn⟩
    refine hn.congr fun m q hq _ hm => ?_
    have hmc : m ≠ c := by
      rintro rfl
      exact hcn hm
    rw [hparent, Function.update_of_ne hmc]
    exact ⟨hq, hname m hmc⟩

end Move

/-! ## The edits as edits of the map from paths -/

/-- The map from paths after the subtree at `old` has been moved to `new`. -/
def moveSubtree [DecidableEq ν] (paths : List ν → Option ι) (old new : List ν) :
    List ν → Option ι := fun xs =>
  if new <+: xs then paths (old ++ xs.drop new.length)
  else if old <+: xs then none
  else paths xs

/-- A node at the new place does not matter, if the old place is not above it. -/
theorem moveSubtree_update [DecidableEq ν] (paths : List ν → Option ι) {old new : List ν}
    (h : ¬ old <+: new) :
    moveSubtree (Function.update paths new none) old new = moveSubtree paths old new := by
  funext xs
  unfold moveSubtree
  by_cases hnew : new <+: xs
  · rw [if_pos hnew, if_pos hnew, Function.update_of_ne]
    exact fun heq => h ⟨_, heq⟩
  · have hne : xs ≠ new := fun heq => hnew (heq ▸ List.prefix_rfl)
    rw [if_neg hnew, if_neg hnew, Function.update_of_ne hne]

section Map

variable [DecidableEq ι] [DecidableEq ν] {p c : ι} {xs ys : List ν}

omit [DecidableEq ι] in
/-- A node that a path from `r` leads to is on no cycle. -/
theorem WF.acyclic_of_resolve (h : l.WF) (hr : l.parent r = none)
    (hc : l.resolve name r xs = some c) (q : ι) (hq : l.parent c = some q) :
    ¬ Below l c q := (h.resolve_below hc).acyclic hr hq

/-- Hanging a node that stood alone sets the path of its place. -/
theorem WF.resolve_attach (h : l.WF) (hd : l.Distinct name) (h' : l'.WF)
    (hd' : l'.Distinct name') (hmoved : Moved l l' name name' c p) (hr : l.parent r = none)
    (hcr : c ≠ r) (hc : l.parent c = none) (hchildren : l.children c = [])
    (hp : l.resolve name r ys = some p) :
    l'.resolve name' r = Function.update (l.resolve name r) (ys ++ [name' c]) (some c) := by
  have hcp : ¬ Below l c p := fun hcp => by
    obtain rfl := h.eq_of_below hchildren hcp
    exact hcr ((h.resolve_below hp).eq_of_parent_none hc).symm
  have hiff : ∀ {us n}, Trail l' name' r us n ↔ (¬ Below l c n ∧ Trail l name r us n) ∨
      ∃ ys zs, Trail l name r ys p ∧ Trail l name c zs n ∧ us = ys ++ name' c :: zs :=
    hmoved.trail_iff hr hcr hcp fun q hq => absurd (hc.symm.trans hq) nofun
  have hnew : l'.resolve name' r (ys ++ [name' c]) = some c :=
    (h'.resolve_iff hd').2 (hiff.2 (.inr ⟨ys, [], (h.resolve_iff hd).1 hp, .nil, rfl⟩))
  funext xs
  by_cases hxs : xs = ys ++ [name' c]
  · rw [hxs, Function.update_self, hnew]
  · rw [Function.update_of_ne hxs]
    refine Option.ext fun n => ?_
    rw [h'.resolve_iff hd', h.resolve_iff hd, hiff]
    constructor
    · rintro (⟨_, hn⟩ | ⟨ys', zs, hys', hzs, rfl⟩)
      · exact hn
      · -- Nothing hangs below the node.
        refine absurd ?_ hxs
        obtain rfl := h.resolve_inj hr ((h.resolve_iff hd).2 hys') hp
        cases hzs with
        | nil => rfl
        | snoc hzs hq =>
          have hmem := h.mem_children.2 hq
          rw [h.eq_of_below hchildren (below_of_trail hzs), hchildren] at hmem
          exact nomatch hmem
    · intro hn
      refine .inl ⟨fun hcn => ?_, hn⟩
      obtain rfl := h.eq_of_below hchildren hcn
      exact hcr ((below_of_trail hn).eq_of_parent_none hc).symm

/-- Taking a leaf off clears its path. -/
theorem WF.resolve_remove (h : l.WF) (hd : l.Distinct name) (h' : l'.WF)
    (hd' : l'.Distinct name') (hparent : l'.parent = Function.update l.parent c none)
    (hname : ∀ n, n ≠ c → name' n = name n) (hr : l.parent r = none) (hcr : c ≠ r)
    (hchildren : l.children c = []) (hc : l.resolve name r ys = some c) :
    l'.resolve name' r = Function.update (l.resolve name r) ys none := by
  have hiff : ∀ {xs n}, l'.resolve name' r xs = some n ↔
      ¬ Below l c n ∧ l.resolve name r xs = some n := fun {xs n} => by
    rw [h'.resolve_iff hd', h.resolve_iff hd]
    exact trail_removed hparent hname hr hcr
  funext xs
  refine Option.ext fun n => ?_
  rw [hiff]
  by_cases hxs : xs = ys
  · subst hxs
    rw [Function.update_self, hc]
    exact iff_of_false (fun ⟨hcn, hn⟩ => hcn (Option.some.inj hn ▸ .refl)) nofun
  · rw [Function.update_of_ne hxs]
    refine ⟨And.right, fun hn => ⟨fun hcn => ?_, hn⟩⟩
    obtain rfl := h.eq_of_below hchildren hcn
    exact hxs (h.resolve_inj hr hn hc)

/-- Moving a subtree to a free place moves the paths through its root. -/
theorem WF.resolve_move (h : l.WF) (hd : l.Distinct name) (h' : l'.WF)
    (hd' : l'.Distinct name') (hmoved : Moved l l' name name' c p) (hr : l.parent r = none)
    (hcr : c ≠ r) (hc : l.resolve name r xs = some c) (hp : l.resolve name r ys = some p)
    (hbelow : ¬ xs <+: ys) (hfree : l.resolve name r (ys ++ [name' c]) = none) :
    l'.resolve name' r = moveSubtree (l.resolve name r) xs (ys ++ [name' c]) := by
  have hcp : ¬ Below l c p := fun hcp => hbelow (h.prefix_of_below hr hc hp hcp)
  have hsub : ∀ zs, l.resolve name r (xs ++ zs) = l.resolve name c zs := fun zs => by
    rw [resolve_append, hc, Option.bind_some]
  funext us
  refine Option.ext fun n => ?_
  rw [h'.resolve_iff hd', hmoved.trail_iff hr hcr hcp (h.acyclic_of_resolve hr hc)]
  unfold moveSubtree
  split
  · -- A path through the new place goes on as it does from the old one.
    rename_i hus
    obtain ⟨zs, rfl⟩ := hus
    rw [List.drop_left, hsub]
    constructor
    · rintro (⟨_, hn⟩ | ⟨ys', zs', hys', hzs', heq⟩)
      · have hn := (h.resolve_iff hd).2 hn
        rw [resolve_append, hfree] at hn
        cases hn
      · obtain rfl := h.resolve_inj hr ((h.resolve_iff hd).2 hys') hp
        rw [List.append_assoc, List.append_cancel_left_eq, List.singleton_append,
          List.cons.injEq] at heq
        rw [heq.2]
        exact (h.resolve_iff hd).2 hzs'
    · intro hn
      exact .inr ⟨ys, zs, (h.resolve_iff hd).1 hp, (h.resolve_iff hd).1 hn, by simp⟩
  · rename_i hus
    have hold : ¬ ∃ ys' zs, Trail l name r ys' p ∧ Trail l name c zs n ∧
        us = ys' ++ name' c :: zs := by
      rintro ⟨ys', zs, hys', _, rfl⟩
      obtain rfl := h.resolve_inj hr ((h.resolve_iff hd).2 hys') hp
      exact hus ⟨zs, by simp⟩
    rw [or_iff_left hold]
    split
    · rename_i hxs
      obtain ⟨zs, rfl⟩ := hxs
      refine iff_of_false ?_ (by simp)
      rintro ⟨hcn, hn⟩
      apply hcn
      have hn := (h.resolve_iff hd).2 hn
      rw [hsub] at hn
      exact h.resolve_below hn
    · rename_i hxs
      rw [h.resolve_iff hd]
      refine ⟨And.right, fun hn => ⟨fun hcn => hxs ?_, hn⟩⟩
      exact h.prefix_of_below hr hc ((h.resolve_iff hd).2 hn) hcn

end Map

end Links
