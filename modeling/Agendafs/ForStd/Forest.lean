import Mathlib.Data.List.Find
import Mathlib.Data.List.Induction
import Mathlib.Data.List.Nodup
import Mathlib.Logic.Function.Basic
import Mathlib.Logic.Relation

/-!
# Forests with parent pointers and child lists

A pointer structure keeps each edge of a tree twice: as the parent of the child
and as an entry in the child list of the parent. `Links` is that structure over
an arbitrary type of nodes, `Links.WF` says that the two agree, and `detach` and
`attach` are the edits a program makes of it. `Below` is the subtree order (which
a cycle of parents makes reflexive in more than one way), and `resolve` follows a
list of names from a node.
-/

universe u v

/-- The parent pointers and the child lists of a forest. -/
@[ext] structure Links (ι : Type u) where
  parent : ι → Option ι
  children : ι → List ι

namespace Links

variable {ι : Type u} {ν : Type v}

/-- Parent pointers and child lists agree, and no child is listed twice. -/
structure WF (l : Links ι) : Prop where
  mem_children : ∀ {p c}, c ∈ l.children p ↔ l.parent c = some p
  nodup : ∀ p, (l.children p).Nodup

/-- `n` is in the subtree of `a`. -/
inductive Below (l : Links ι) (a : ι) : ι → Prop
  | refl : Below l a a
  | step {n p : ι} : l.parent n = some p → Below l a p → Below l a n

variable [DecidableEq ι]

/-- Take `n` away from its parent. -/
def detach (l : Links ι) (n : ι) : Links ι :=
  match l.parent n with
  | none => l
  | some p =>
    { parent := Function.update l.parent n none
      children := Function.update l.children p ((l.children p).erase n) }

/-- Hang `c` behind the children of `p`. -/
def attach (l : Links ι) (p c : ι) : Links ι where
  parent := Function.update l.parent c (some p)
  children := Function.update l.children p (l.children p ++ [c])

/-! ## The two edits -/

theorem detach_of_none {l : Links ι} {n : ι} (h : l.parent n = none) : l.detach n = l := by
  unfold detach
  rw [h]

theorem detach_parent (l : Links ι) (n : ι) :
    (l.detach n).parent = Function.update l.parent n none := by
  unfold detach
  cases h : l.parent n with
  | none => exact (Function.update_eq_self_iff.2 h.symm).symm
  | some p => rfl

@[simp] theorem attach_parent (l : Links ι) (p c : ι) :
    (l.attach p c).parent = Function.update l.parent c (some p) := rfl

@[simp] theorem attach_children (l : Links ι) (p c : ι) :
    (l.attach p c).children = Function.update l.children p (l.children p ++ [c]) := rfl

/-- Detaching takes the node out of every child list. -/
theorem WF.detach_children {l : Links ι} (h : l.WF) (n q : ι) :
    (l.detach n).children q = (l.children q).erase n := by
  unfold detach
  -- Lists that do not hold `n` are left as they are by `erase`, too.
  cases hp : l.parent n with
  | none =>
    have hn : n ∉ l.children q := fun hm => by
      rw [h.mem_children, hp] at hm
      exact nomatch hm
    exact (List.erase_of_not_mem hn).symm
  | some p =>
    by_cases hq : q = p
    · subst hq
      exact Function.update_self _ _ _
    · have hn : n ∉ l.children q := fun hm => by
        rw [h.mem_children, hp, Option.some.injEq] at hm
        exact hq hm.symm
      rw [List.erase_of_not_mem hn]
      exact Function.update_of_ne hq _ _

/-- Detaching keeps the structure well-formed. -/
theorem WF.detach {l : Links ι} (h : l.WF) (n : ι) : (l.detach n).WF where
  mem_children {p c} := by
    rw [h.detach_children, detach_parent, (h.nodup p).mem_erase_iff, h.mem_children]
    by_cases hc : c = n
    · subst hc
      simp
    · rw [Function.update_of_ne hc]
      exact ⟨And.right, fun hp => ⟨hc, hp⟩⟩
  nodup p := by
    rw [h.detach_children]
    exact (h.nodup p).erase n

/-- Attaching a node without parent keeps the structure well-formed. -/
theorem WF.attach {l : Links ι} (h : l.WF) {c : ι} (hc : l.parent c = none) (p : ι) :
    (l.attach p c).WF where
  mem_children {q d} := by
    rw [attach_children, attach_parent]
    -- No list holds `c` before, so only its entry behind the children of `p` is new.
    have hcq : ∀ q, c ∉ l.children q := fun q hm => by
      rw [h.mem_children, hc] at hm
      exact nomatch hm
    by_cases hq : q = p
    · subst hq
      rw [Function.update_self, List.mem_append, List.mem_singleton]
      by_cases hd : d = c
      · subst hd
        simp
      · rw [Function.update_of_ne hd, h.mem_children]
        exact ⟨fun hm => hm.resolve_right hd, .inl⟩
    · rw [Function.update_of_ne hq]
      by_cases hd : d = c
      · subst hd
        rw [Function.update_self, Option.some.injEq]
        exact ⟨fun hm => absurd hm (hcq q), fun hp => absurd hp.symm hq⟩
      · rw [Function.update_of_ne hd, h.mem_children]
  nodup q := by
    rw [attach_children]
    by_cases hq : q = p
    · subst hq
      rw [Function.update_self, List.nodup_append]
      refine ⟨h.nodup q, List.nodup_singleton c, ?_⟩
      rintro d hd _ hd' rfl
      rw [List.mem_singleton] at hd'
      rw [h.mem_children, hd', hc] at hd
      exact nomatch hd
    · rw [Function.update_of_ne hq]
      exact h.nodup q

/-- The parent pointers after a move. -/
theorem move_parent (l : Links ι) (p c : ι) :
    ((l.detach c).attach p c).parent = Function.update l.parent c (some p) := by
  rw [attach_parent, detach_parent, Function.update_idem]

/-- The child lists after a move. -/
theorem WF.move_children {l : Links ι} (h : l.WF) (p c q : ι) :
    ((l.detach c).attach p c).children q =
      if q = p then (l.children p).erase c ++ [c] else (l.children q).erase c := by
  rw [attach_children]
  split
  · rename_i hq
    subst hq
    rw [Function.update_self, h.detach_children]
  · rename_i hq
    rw [Function.update_of_ne hq, h.detach_children]

/-! ## The subtree order -/

omit [DecidableEq ι] in
theorem Below.trans {l : Links ι} {a b n : ι} (hab : Below l a b) (hbn : Below l b n) :
    Below l a n := by
  induction hbn with
  | refl => exact hab
  | step hp _ ih => exact .step hp ih

omit [DecidableEq ι] in
/-- The subtree order only looks at the parents of the nodes on the way up. -/
theorem Below.congr {l l' : Links ι} {a n : ι} (h : Below l a n)
    (hparent : ∀ m, Below l m n → Below l a m → m = a ∨ l'.parent m = l.parent m) :
    Below l' a n := by
  -- By the way up from `n`; it may end early where it comes through `a`.
  induction h with
  | refl => exact .refl
  | step hp hbelow ih =>
    rename_i n p
    rcases hparent n .refl (.step hp hbelow) with rfl | hn
    · exact .refl
    · refine .step (hn.trans hp) (ih fun m hm ham => hparent m ?_ ham)
      exact hm.trans (.step hp .refl)

/-- Moving `c` under a node outside its own subtree keeps everything that was
    below `r`, or in the subtree of `c`, below `r`. -/
theorem Below.move {l : Links ι} {r p c : ι} (hp : Below l r p)
    (hpc : ¬ Below l c p) {n : ι} (hn : Below l r n ∨ Below l c n) :
    Below ((l.detach c).attach p c) r n := by
  have hpar : ∀ m, m ≠ c → ((l.detach c).attach p c).parent m = l.parent m := fun m hm => by
    rw [move_parent, Function.update_of_ne hm]
  -- The way from `p` up to `r` does not pass through `c`.
  have hp' : Below ((l.detach c).attach p c) r p := by
    refine hp.congr fun m hm _ => .inr (hpar m ?_)
    rintro rfl
    exact hpc hm
  have hc' : Below ((l.detach c).attach p c) r c :=
    .step (by rw [move_parent, Function.update_self]) hp'
  -- Any other way goes up to its old end, or to `c` and from there through `p`.
  have up : ∀ {a n}, Below l a n → Below ((l.detach c).attach p c) r a →
      Below ((l.detach c).attach p c) r n := by
    intro a n h ha
    induction h with
    | refl => exact ha
    | @step m q hm _ ih =>
      by_cases hmc : m = c
      · rw [hmc]
        exact hc'
      · exact .step ((hpar m hmc).trans hm) ih
  rcases hn with hn | hn
  · exact up hn .refl
  · exact up hn hc'

omit [DecidableEq ι] in
/-- What is below a node is what its child lists lead to. -/
theorem WF.below_iff {l : Links ι} (h : l.WF) {a n : ι} :
    Below l a n ↔ Relation.ReflTransGen (fun p c => c ∈ l.children p) a n := by
  constructor
  · intro hn
    induction hn with
    | refl => exact .refl
    | step hp _ ih => exact ih.tail (h.mem_children.2 hp)
  · intro hn
    induction hn with
    | refl => exact .refl
    | tail _ hc ih => exact .step (h.mem_children.1 hc) ih

omit [DecidableEq ι] in
/-- Only a root is above a root. -/
theorem Below.eq_of_parent_none {l : Links ι} {a n : ι} (hn : Below l a n)
    (hp : l.parent n = none) : a = n := by
  cases hn with
  | refl => rfl
  | step hp' _ => rw [hp] at hp'; exact nomatch hp'

omit [DecidableEq ι] in
/-- No node below a root is above its own parent. -/
theorem Below.acyclic {l : Links ι} {r n q : ι} (hn : Below l r n) (hr : l.parent r = none)
    (hq : l.parent n = some q) : ¬ Below l n q := by
  induction hn generalizing q with
  | refl =>
    rw [hr] at hq
    cases hq
  | @step n p hp hbelow ih =>
    obtain rfl : p = q := Option.some.inj (hp.symm.trans hq)
    intro hcycle
    -- A cycle through the node goes through its parent, too.
    cases hcycle with
    | refl => exact ih hp .refl
    | step hq' hcycle' => exact ih hq' (Below.trans (.step hp .refl) hcycle')

omit [DecidableEq ι] in
/-- Only the node itself is below a node without children. -/
theorem WF.eq_of_below {l : Links ι} (h : l.WF) {a n : ι} (ha : l.children a = [])
    (hn : Below l a n) : n = a := by
  induction hn with
  | refl => rfl
  | step hp _ ih =>
    subst ih
    rw [← h.mem_children, ha] at hp
    exact nomatch hp

/-- Detaching a node without children keeps every other node where it is. -/
theorem WF.below_detach {l : Links ι} (h : l.WF) {a c n : ι} (hc : l.children c = [])
    (hn : Below l a n) (hnc : n ≠ c) : Below (l.detach c) a n := by
  refine hn.congr fun m hm _ => .inr ?_
  rw [detach_parent, Function.update_of_ne]
  rintro rfl
  exact hnc (h.eq_of_below hc hm)

/-! ## Following names -/

variable [DecidableEq ν]

omit [DecidableEq ι] in
/-- The node reached from `n` by following children with these names, the first
    of a name where a name is ambiguous. -/
def resolve (l : Links ι) (name : ι → ν) : ι → List ν → Option ι
  | n, [] => some n
  | n, x :: xs =>
    match (l.children n).find? (name · = x) with
    | none => none
    | some c => resolve l name c xs

omit [DecidableEq ι] in
theorem resolve_append (l : Links ι) (name : ι → ν) (n : ι) (xs ys : List ν) :
    l.resolve name n (xs ++ ys) = (l.resolve name n xs).bind (l.resolve name · ys) := by
  induction xs generalizing n with
  | nil => rfl
  | cons x xs ih =>
    rw [List.cons_append, resolve, resolve]
    cases (l.children n).find? (name · = x) with
    | none => rfl
    | some c => exact ih c

omit [DecidableEq ι] in
theorem resolve_singleton (l : Links ι) (name : ι → ν) (n : ι) (x : ν) :
    l.resolve name n [x] = (l.children n).find? (name · = x) := by
  rw [resolve]
  cases (l.children n).find? (name · = x) <;> rfl

omit [DecidableEq ι] in
/-- Where every name is found as before among the children, every list of names is. -/
theorem resolve_congr_find {l l' : Links ι} {name name' : ι → ν}
    (h : ∀ p x, (l'.children p).find? (name' · = x) = (l.children p).find? (name · = x)) (n : ι)
    (xs : List ν) : l'.resolve name' n xs = l.resolve name n xs := by
  induction xs generalizing n with
  | nil => rfl
  | cons x xs ih =>
    unfold resolve
    rw [h n x]
    cases (l.children n).find? (name · = x) with
    | none => rfl
    | some c => exact ih c

omit [DecidableEq ι] in
/-- Following names only looks at the names of children. -/
theorem resolve_congr {l : Links ι} {name name' : ι → ν}
    (h : ∀ p, ∀ c ∈ l.children p, name c = name' c) (n : ι) (xs : List ν) :
    l.resolve name n xs = l.resolve name' n xs :=
  resolve_congr_find (fun p _ => List.find?_congr fun c hc => by rw [h p c hc]) n xs

/-- A child that is put last hides no other. -/
theorem resolve_attach_of_some {l : Links ι} {name name' : ι → ν}
    (hname : ∀ q, ∀ d ∈ l.children q, name' d = name d) {p c n m : ι} {xs : List ν}
    (hm : l.resolve name n xs = some m) : (l.attach p c).resolve name' n xs = some m := by
  induction xs generalizing n with
  | nil => exact hm
  | cons x xs ih =>
    rw [resolve] at hm ⊢
    cases hd : (l.children n).find? (name · = x) with
    | none =>
      rw [hd] at hm
      cases hm
    | some d =>
      rw [hd] at hm
      have hd' : (l.children n).find? (name' · = x) = some d := by
        rw [← hd]
        exact List.find?_congr fun d hd => by rw [hname n d hd]
      have hfound : ((l.attach p c).children n).find? (name' · = x) = some d := by
        rw [attach_children]
        by_cases hn : n = p
        · rw [← hn, Function.update_self, List.find?_append, hd', Option.some_or]
        · rw [Function.update_of_ne hn, hd']
      rw [hfound]
      exact ih hm

/-- A child with a name of its own is found under it. -/
theorem resolve_attach_self {l : Links ι} {name name' : ι → ν}
    (hname : ∀ q, ∀ d ∈ l.children q, name' d = name d) {p c n : ι} {xs : List ν}
    (hp : l.resolve name n xs = some p)
    (hfree : l.resolve name n (xs ++ [name' c]) = none) :
    (l.attach p c).resolve name' n (xs ++ [name' c]) = some c := by
  rw [resolve_append, hp, Option.bind_some, resolve_singleton] at hfree
  have hfree' : (l.children p).find? (name' · = name' c) = none := by
    rw [← hfree]
    exact List.find?_congr fun d hd => by rw [hname p d hd]
  rw [resolve_append, resolve_attach_of_some hname hp, Option.bind_some, resolve_singleton,
    attach_children, Function.update_self, List.find?_append, hfree', Option.none_or]
  exact List.find?_cons_of_pos (decide_eq_true rfl)

/-- An element that is put last is found as before, if it is the only one to be found. -/
theorem find?_erase_append {P : ι → Bool} {ds : List ι} {c : ι} (hc : c ∈ ds)
    (honly : P c = true → ∀ d ∈ ds.erase c, P d = false) :
    (ds.erase c ++ [c]).find? P = ds.find? P := by
  cases hP : P c with
  | false =>
    rw [List.find?_append, List.find?_singleton, hP, if_neg Bool.false_ne_true, Option.or_none]
    clear honly
    induction ds with
    | nil => rfl
    | cons d ds ih =>
      by_cases hd : d = c
      · subst hd
        rw [List.erase_cons_head, List.find?_cons_of_neg (by simp [hP])]
      · have hmem := (List.mem_cons.1 hc).resolve_left fun heq => hd heq.symm
        rw [List.erase_cons_tail (by simpa using hd), List.find?_cons, List.find?_cons, ih hmem]
  | true =>
    have hrest : (ds.erase c).find? P = none :=
      List.find?_eq_none.2 fun d hd => by simp [honly hP d hd]
    rw [List.find?_append, hrest, Option.none_or, List.find?_singleton, if_pos hP]
    obtain ⟨d, hd⟩ : ∃ d, ds.find? P = some d :=
      Option.isSome_iff_exists.1 (List.find?_isSome.2 ⟨c, hc, hP⟩)
    rw [hd]
    by_contra hne
    have hmem : d ∈ ds.erase c :=
      (List.mem_erase_of_ne fun heq => hne (by rw [heq])).2 (List.mem_of_find?_eq_some hd)
    exact Bool.false_ne_true ((honly hP d hmem).symm.trans (List.find?_some hd))

omit [DecidableEq ι] in
/-- What a path with a last name resolves to is a child of that name. -/
theorem WF.of_resolve_append {l : Links ι} (h : l.WF) {name : ι → ν} {r m : ι} {xs : List ν}
    {x : ν} (hm : l.resolve name r (xs ++ [x]) = some m) :
    ∃ p, l.resolve name r xs = some p ∧ l.parent m = some p ∧ name m = x := by
  rw [resolve_append, Option.bind_eq_some_iff] at hm
  obtain ⟨p, hp, hm⟩ := hm
  rw [resolve_singleton] at hm
  exact ⟨p, hp, h.mem_children.1 (List.mem_of_find?_eq_some hm), by
    simpa using List.find?_some hm⟩

omit [DecidableEq ι] in
/-- What a path resolves to lies below the node it starts from. -/
theorem WF.resolve_below {l : Links ι} (h : l.WF) {name : ι → ν} {n m : ι} {xs : List ν}
    (hm : l.resolve name n xs = some m) : Below l n m := by
  induction xs generalizing n with
  | nil =>
    rw [resolve, Option.some.injEq] at hm
    exact hm ▸ .refl
  | cons x xs ih =>
    rw [resolve] at hm
    cases hc : (l.children n).find? (name · = x) with
    | none => rw [hc] at hm; exact nomatch hm
    | some c =>
      rw [hc] at hm
      have hpar := h.mem_children.1 (List.mem_of_find?_eq_some hc)
      exact (Below.step hpar .refl).trans (ih hm)

omit [DecidableEq ι] in
/-- From a node without parent, two paths to the same node are the same. -/
theorem WF.resolve_inj {l : Links ι} (h : l.WF) {name : ι → ν} {r m : ι}
    (hr : l.parent r = none) {xs ys : List ν} (hx : l.resolve name r xs = some m)
    (hy : l.resolve name r ys = some m) : xs = ys := by
  -- The last name is that of `m`, and what precedes it leads to the parent of `m`.
  induction xs using List.reverseRec generalizing ys m with
  | nil =>
    rw [resolve, Option.some.injEq] at hx
    subst hx
    rcases List.eq_nil_or_concat' ys with rfl | ⟨ys, y, rfl⟩
    · rfl
    · obtain ⟨p, _, hp, _⟩ := h.of_resolve_append hy
      rw [hr] at hp
      exact nomatch hp
  | append_singleton xs x ih =>
    obtain ⟨p, hxs, hp, hname⟩ := h.of_resolve_append hx
    rcases List.eq_nil_or_concat' ys with rfl | ⟨ys, y, rfl⟩
    · rw [resolve, Option.some.injEq] at hy
      rw [← hy, hr] at hp
      exact nomatch hp
    · obtain ⟨q, hys, hq, hname'⟩ := h.of_resolve_append hy
      rw [hp, Option.some.injEq] at hq
      subst hq
      rw [ih hxs hys, ← hname, ← hname']

omit [DecidableEq ι] in
/-- The path to a node goes through the paths to the nodes above it. -/
theorem WF.prefix_of_below {l : Links ι} (h : l.WF) {name : ι → ν} {r c p : ι}
    (hr : l.parent r = none) {xs ys : List ν} (hx : l.resolve name r xs = some c)
    (hy : l.resolve name r ys = some p) (hcp : Below l c p) : xs <+: ys := by
  -- Each step from `p` up to `c` takes the last name off the path.
  induction hcp generalizing ys with
  | refl =>
    have heq : xs = ys := h.resolve_inj hr hx hy
    exact heq ▸ List.prefix_refl xs
  | @step n p hp _ ih =>
    rcases List.eq_nil_or_concat ys with rfl | ⟨zs, y, rfl⟩
    · rw [resolve, Option.some.injEq] at hy
      rw [← hy, hr] at hp
      exact nomatch hp
    · rw [List.concat_eq_append] at hy ⊢
      obtain ⟨p', hzs, hp', _⟩ := h.of_resolve_append hy
      rw [hp, Option.some.injEq] at hp'
      subst hp'
      exact (ih hzs).trans (List.prefix_append zs [y])

omit [DecidableEq ν] in
/-- Erasing another element does not change what is found first. -/
theorem find?_erase_of_ne {P : ι → Bool} {ds : List ι} {c d : ι} (hd : ds.find? P = some d)
    (hdc : d ≠ c) : (ds.erase c).find? P = some d := by
  induction ds with
  | nil => exact nomatch hd
  | cons e ds ih =>
    by_cases he : P e = true
    · rw [List.find?_cons_of_pos he, Option.some.injEq] at hd
      subst hd
      rw [List.erase_cons_tail (by simpa using hdc), List.find?_cons_of_pos he]
    · rw [List.find?_cons_of_neg he] at hd
      by_cases hec : e = c
      · subst hec
        rw [List.erase_cons_head]
        exact hd
      · rw [List.erase_cons_tail (by simpa using hec), List.find?_cons_of_neg he]
        exact ih hd

/-- Detaching a node without children changes no path that resolves to another node. -/
theorem WF.resolve_detach {l : Links ι} (h : l.WF) {name : ι → ν} {c : ι}
    (hc : l.children c = []) {n m : ι} {xs : List ν} (hm : l.resolve name n xs = some m)
    (hmc : m ≠ c) : (l.detach c).resolve name n xs = some m := by
  induction xs generalizing n with
  | nil => exact hm
  | cons x xs ih =>
    rw [resolve] at hm ⊢
    cases hd : (l.children n).find? (name · = x) with
    | none => rw [hd] at hm; exact nomatch hm
    | some d =>
      simp only [hd] at hm
      -- `d` is not the detached node: that one has no children to go on with.
      have hdc : d ≠ c := by
        rintro rfl
        cases xs with
        | nil =>
          rw [resolve, Option.some.injEq] at hm
          exact hmc hm.symm
        | cons y ys =>
          rw [resolve, hc] at hm
          exact nomatch hm
      have hfind : ((l.children n).erase c).find? (name · = x) = some d :=
        find?_erase_of_ne hd hdc
      rw [h.detach_children, hfind]
      exact ih hm

end Links
