import Mathlib.Data.List.Find
import Mathlib.Data.List.Forall2
import Mathlib.Data.List.Nodup
import Mathlib.Data.List.Perm.Basic

/-!
# Names given out one after another

Keys come in some order, and each is given a name that no key before it has
(`Chooser.assign`). When the order is only known up to the order inside each of
some blocks, the names may depend on it. `Settles` says of two choosers that they
give the same names in every such order.

The second part is about directories that hold keys under names, where a key may
be a directory again: following names (`find`) sees exactly the directories that
are reached from the top.

## Key results

- `Settles.mem_assign`, `settles_of_forall`: the orders inside the blocks do not
  matter exactly when the blocks settle
- `seen_eq_iff`: two systems of directories that are seen alike
-/

universe u v

variable {κ : Type u} {ν : Type v}

/-- A way to give a key a name that is not taken: what is chosen stays the choice
    while more names are taken, until it is taken itself. -/
structure Chooser (κ : Type u) (ν : Type v) where
  pick : κ → List ν → ν
  fresh : ∀ k N, pick k N ∉ N
  stable : ∀ {k N N'}, N ⊆ N' → pick k N ∉ N' → pick k N' = pick k N

namespace Chooser

variable {C C' : Chooser κ ν} {N N' : List ν}

/-- The names given to keys one after another, when the names `N` are taken. -/
def assign (C : Chooser κ ν) : List ν → List κ → List (κ × ν)
  | _, [] => []
  | N, k :: ks => (k, C.pick k N) :: assign C (N ++ [C.pick k N]) ks

theorem assign_append (N : List ν) (ks ls : List κ) :
    C.assign N (ks ++ ls) =
      C.assign N ks ++ C.assign (N ++ (C.assign N ks).map Prod.snd) ls := by
  induction ks generalizing N with
  | nil => simp [assign]
  | cons k ks ih => simp [assign, ih]

@[simp] theorem assign_keys (N : List ν) (ks : List κ) : (C.assign N ks).map Prod.fst = ks := by
  induction ks generalizing N with
  | nil => rfl
  | cons k ks ih => simp [assign, ih]

theorem key_mem_of_assign {ks : List κ} {p : κ × ν} (h : p ∈ C.assign N ks) : p.1 ∈ ks := by
  rw [← assign_keys (C := C) N ks]
  exact List.mem_map_of_mem h

theorem exists_mem_assign (C : Chooser κ ν) (N : List ν) {ks : List κ} {k : κ} (h : k ∈ ks) :
    ∃ x, (k, x) ∈ C.assign N ks := by
  rw [← assign_keys (C := C) N ks] at h
  obtain ⟨⟨_, x⟩, hmem, rfl⟩ := List.mem_map.1 h
  exact ⟨x, hmem⟩

theorem mem_keys {N : List ν} {ks : List κ} {k : κ} :
    k ∈ ks ↔ ∃ x, (k, x) ∈ C.assign N ks :=
  ⟨exists_mem_assign C N, fun ⟨_, hx⟩ => key_mem_of_assign hx⟩

/-- No name is given twice, and none that is taken is given. -/
theorem assign_names (N : List ν) (ks : List κ) :
    ((C.assign N ks).map Prod.snd).Nodup ∧ ∀ x ∈ (C.assign N ks).map Prod.snd, x ∉ N := by
  induction ks generalizing N with
  | nil => simp [assign]
  | cons k ks ih =>
    obtain ⟨hnodup, hfree⟩ := ih (N ++ [C.pick k N])
    simp only [List.mem_append, List.mem_singleton, not_or] at hfree
    rw [assign, List.map_cons, List.nodup_cons]
    refine ⟨⟨fun hmem => (hfree _ hmem).2 rfl, hnodup⟩, fun x hx => ?_⟩
    rcases List.mem_cons.1 hx with rfl | hx
    · exact C.fresh k N
    · exact (hfree x hx).1

/-- A choice depends on which names are taken only. -/
theorem pick_congr (h : ∀ x, x ∈ N' ↔ x ∈ N) (k : κ) : C.pick k N' = C.pick k N :=
  C.stable (fun x hx => (h x).2 hx) fun hx => C.fresh k N ((h _).1 hx)

theorem assign_congr (h : ∀ x, x ∈ N' ↔ x ∈ N) (ks : List κ) : C.assign N' ks = C.assign N ks := by
  induction ks generalizing N N' with
  | nil => rfl
  | cons k ks ih =>
    have hpick := pick_congr (C := C) h k
    have hnext : ∀ x, x ∈ N' ++ [C.pick k N] ↔ x ∈ N ++ [C.pick k N] := fun x => by
      rw [List.mem_append, List.mem_append, h x]
    rw [assign, assign, hpick, ih hnext]

/-- Keys that choose different names get what they choose. -/
theorem assign_eq_map {ks : List κ} (hnodup : (ks.map (C.pick · N)).Nodup) :
    C.assign N ks = ks.map fun k => (k, C.pick k N) := by
  -- Over the keys left, when names that none of them chooses have been given.
  suffices h : ∀ M, (∀ k ∈ ks, C.pick k N ∉ M) →
      C.assign (N ++ M) ks = ks.map fun k => (k, C.pick k N) by
    have hnil := h [] fun _ _ => List.not_mem_nil
    rwa [List.append_nil] at hnil
  induction ks with
  | nil => exact fun _ _ => rfl
  | cons k ks ih =>
    intro M hM
    rw [List.map_cons, List.nodup_cons] at hnodup
    have hpick : C.pick k (N ++ M) = C.pick k N := by
      refine C.stable (List.subset_append_left N M) fun hmem => ?_
      rcases List.mem_append.1 hmem with hmem | hmem
      · exact C.fresh k N hmem
      · exact hM k List.mem_cons_self hmem
    rw [assign, hpick, List.append_assoc, ih hnodup.2, List.map_cons]
    intro k' hk' hmem
    rcases List.mem_append.1 hmem with hmem | hmem
    · exact hM k' (List.mem_cons_of_mem _ hk') hmem
    · rw [List.mem_singleton] at hmem
      exact hnodup.1 (hmem ▸ List.mem_map_of_mem hk')

/-- Choosers that agree on the keys give the same names. -/
theorem assign_congr_pick {ks : List κ} (h : ∀ k ∈ ks, ∀ N, C'.pick k N = C.pick k N)
    (N : List ν) : C'.assign N ks = C.assign N ks := by
  induction ks generalizing N with
  | nil => rfl
  | cons k ks ih =>
    rw [assign, assign, h k List.mem_cons_self, ih fun k' hk' => h k' (List.mem_cons_of_mem _ hk')]

/-- If a key is always or never given a name that counts, those that are never given one can be
    left out. -/
theorem assign_filter {counts : ν → Bool} {P : κ → Bool} {ks : List κ}
    (h : ∀ k ∈ ks, ∀ N, counts (C.pick k N) = P k) (N : List ν) :
    (C.assign N ks).filter (counts ·.2) = C.assign (N.filter counts) (ks.filter P) := by
  induction ks generalizing N with
  | nil => rfl
  | cons k ks ih =>
    have hk := h k List.mem_cons_self
    rw [assign, List.filter_cons, List.filter_cons, ih fun k' hk' => h k' (List.mem_cons_of_mem _ hk'),
      List.filter_append]
    simp only [hk]
    cases hP : P k with
    | false => simp [hk, hP]
    | true =>
      -- The names that do not count are no obstacle to one that does.
      have hpick : C.pick k N = C.pick k (N.filter counts) := by
        refine C.stable (List.filter_subset_self N) fun hmem => ?_
        have hcounts : counts (C.pick k (N.filter counts)) = true := by
          rw [hk, hP]
        exact C.fresh k _ (List.mem_filter.2 ⟨hmem, hcounts⟩)
      simp [assign, hk, hP, hpick]

/-! ## Orders inside blocks -/

/-- Block by block, the keys choose different names, and the same by both choosers. -/
def Settles (C C' : Chooser κ ν) : List ν → List (List κ) → Prop
  | _, [] => True
  | N, b :: bs => (∀ k ∈ b, C'.pick k N = C.pick k N) ∧ (b.map (C.pick · N)).Nodup ∧
      Settles C C' (N ++ b.map (C.pick · N)) bs

theorem Settles.left {bs : List (List κ)} (h : Settles C C' N bs) : Settles C C N bs := by
  induction bs generalizing N with
  | nil => trivial
  | cons b bs ih => exact ⟨fun _ _ => rfl, h.2.1, ih h.2.2⟩

/-- A block whose keys choose different names is given these in any order, and what follows
    does not depend on the order. -/
theorem assign_block {a b : List κ} (hpick : ∀ k ∈ b, C'.pick k N = C.pick k N)
    (hnodup : (b.map (C.pick · N)).Nodup) (hab : a.Perm b) (ks : List κ) :
    C'.assign N (a ++ ks) =
      (a.map fun k => (k, C.pick k N)) ++ C'.assign (N ++ b.map (C.pick · N)) ks := by
  have hsame : ∀ k ∈ a, C'.pick k N = C.pick k N := fun k hk => hpick k (hab.mem_iff.1 hk)
  have hmap : a.map (C'.pick · N) = a.map (C.pick · N) := List.map_congr_left hsame
  have hfirst : C'.assign N a = a.map fun k => (k, C.pick k N) := by
    rw [assign_eq_map (by rw [hmap]; exact (hab.map _).nodup_iff.2 hnodup)]
    exact List.map_congr_left fun k hk => by rw [hsame k hk]
  rw [assign_append, hfirst, List.map_map]
  refine congrArg (_ ++ ·) (assign_congr (fun x => ?_) ks)
  rw [List.mem_append, List.mem_append]
  exact or_congr_right (hab.map _).mem_iff

/-- Blocks of single keys settle when the choosers agree. -/
theorem settles_of_length_le {bs : List (List κ)} (hbs : ∀ b ∈ bs, b.length ≤ 1)
    (h : ∀ k ∈ bs.flatten, ∀ N, C'.pick k N = C.pick k N) : Settles C C' N bs := by
  induction bs generalizing N with
  | nil => trivial
  | cons b bs ih =>
    refine ⟨fun k hk => h k (List.mem_append_left _ hk) N, ?_,
      ih (fun b' hb' => hbs b' (List.mem_cons_of_mem _ hb'))
        fun k hk => h k (List.mem_append_right _ hk)⟩
    match b, hbs b List.mem_cons_self with
    | [], _ => exact List.nodup_nil
    | [k], _ => exact List.nodup_singleton _

/-- Then the second chooser gives in every order the names that the first gives. -/
theorem Settles.mem_assign {as bs : List (List κ)} (h : Settles C C' N bs)
    (has : List.Forall₂ List.Perm as bs) (p : κ × ν) :
    p ∈ C'.assign N as.flatten ↔ p ∈ C.assign N bs.flatten := by
  induction has generalizing N with
  | nil => rfl
  | @cons a b as bs hab _ ih =>
    obtain ⟨hpick, hnodup, hrest⟩ := h
    rw [List.flatten_cons, List.flatten_cons, assign_block hpick hnodup hab,
      assign_block (fun _ _ => rfl) hnodup (.refl b), List.mem_append, List.mem_append]
    exact or_congr (hab.map _).mem_iff (ih hrest)

/-- A family of orders inside the blocks in which each key comes first in its block once. -/
structure Shuffles (F : List (List κ) → Prop) (bs : List (List κ)) : Prop where
  nodup : bs.flatten.Nodup
  perm : ∀ as, F as → List.Forall₂ List.Perm as bs
  first : ∀ k ∈ bs.flatten, ∃ as, F as ∧ ∃ a ∈ as, a.head? = some k

section Shuffles

variable {F : List (List κ) → Prop} {b : List κ} {bs : List (List κ)}

theorem Shuffles.disjoint (h : Shuffles F (b :: bs)) {k : κ} (hk : k ∈ b) : k ∉ bs.flatten := by
  have hnodup := h.nodup
  rw [List.flatten_cons, List.nodup_append] at hnodup
  exact fun hk' => hnodup.2.2 k hk k hk' rfl

theorem Shuffles.tail (h : Shuffles F (b :: bs)) : Shuffles (fun as => ∃ a, F (a :: as)) bs where
  nodup := by
    have hnodup := h.nodup
    rw [List.flatten_cons] at hnodup
    exact hnodup.of_append_right
  perm := by
    rintro as ⟨a, has⟩
    cases h.perm _ has with
    | cons _ hrest => exact hrest
  first k hk := by
    obtain ⟨as, has, a, ha, hhead⟩ := h.first k (List.mem_append_right _ hk)
    cases h.perm as has with
    | @cons a' _ as' _ hab _ =>
      rcases List.mem_cons.1 ha with rfl | ha
      · exact absurd hk (h.disjoint (hab.mem_iff.1 (List.mem_of_mem_head? hhead)))
      · exact ⟨as', ⟨a', has⟩, a, ha, hhead⟩

/-- In one of the orders a key of the first block is given what it chooses. -/
theorem Shuffles.exists_first (h : Shuffles F (b :: bs)) {k : κ} (hk : k ∈ b) (N : List ν) :
    ∃ as, F as ∧ as.flatten.Nodup ∧ ∀ D : Chooser κ ν, (k, D.pick k N) ∈ D.assign N as.flatten := by
  obtain ⟨as, has, a, ha, hhead⟩ := h.first k (List.mem_append_left _ hk)
  obtain ⟨ks, rfl⟩ := List.head?_eq_some_iff.1 hhead
  refine ⟨as, has, (List.Perm.flatten_congr (h.perm as has)).nodup_iff.2 h.nodup, fun D => ?_⟩
  cases h.perm as has with
  | cons hab hrest =>
    rcases List.mem_cons.1 ha with rfl | ha
    · exact List.mem_cons_self
    · exact absurd ((List.Perm.flatten_congr hrest).mem_iff.1
        (List.mem_flatten.2 ⟨_, ha, List.mem_cons_self⟩)) (h.disjoint hk)

/-- If the names are the same in all orders of such a family, then the blocks settle. -/
theorem settles_of_forall (h : Shuffles F bs)
    (hsame : ∀ as as', F as → F as' →
      ∀ p, p ∈ C'.assign N as'.flatten ↔ p ∈ C.assign N as.flatten) :
    Settles C C' N bs := by
  induction bs generalizing N F with
  | nil => trivial
  | cons b bs ih =>
    have hpick : ∀ k ∈ b, C'.pick k N = C.pick k N := by
      intro k hk
      obtain ⟨as, has, hkeys, hmem⟩ := h.exists_first hk N
      rw [← assign_keys (C := C) N as.flatten] at hkeys
      have hmem' := (hsame as as has has _).1 (hmem C')
      exact congrArg Prod.snd (List.inj_on_of_nodup_map hkeys hmem' (hmem C) rfl)
    have hinj : ∀ x ∈ b, ∀ y ∈ b, C.pick x N = C.pick y N → x = y := by
      intro x hx y hy hxy
      obtain ⟨as, has, _, hmemx⟩ := h.exists_first hx N
      obtain ⟨as', has', _, hmemy⟩ := h.exists_first hy N
      have hmemy' := (hsame as as' has has' _).1 (hmemy C')
      have hnames := (assign_names (C := C) N as.flatten).1
      have heq : C.pick x N = C'.pick y N := by rw [hxy, hpick y hy]
      exact congrArg Prod.fst (List.inj_on_of_nodup_map hnames (hmemx C) hmemy' heq)
    have hnodup : (b.map (C.pick · N)).Nodup := by
      have hb := h.nodup
      rw [List.flatten_cons] at hb
      exact hb.of_append_left.map_on hinj
    refine ⟨hpick, hnodup, ih h.tail ?_⟩
    rintro as as' ⟨a, has⟩ ⟨a', has'⟩ p
    -- The keys of the first block are not among those that are left.
    have hout : ∀ {D : Chooser κ ν} {N' a as a' as'}, F (a :: as) → F (a' :: as') →
        p ∈ D.assign N' as.flatten → p ∉ a'.map fun k => (k, C.pick k N) := by
      intro D N' a as a' as' ha ha' hp hp'
      cases h.perm _ ha with
      | cons _ hrest =>
        cases h.perm _ ha' with
        | cons hab' _ =>
          obtain ⟨k, hk, rfl⟩ := List.mem_map.1 hp'
          exact h.disjoint (hab'.mem_iff.1 hk)
            ((List.Perm.flatten_congr hrest).mem_iff.1 (key_mem_of_assign hp))
    have hwhole := hsame _ _ has has' p
    cases h.perm _ has with
    | cons hab _ =>
      cases h.perm _ has' with
      | cons hab' _ =>
        rw [List.flatten_cons, List.flatten_cons, assign_block hpick hnodup hab',
          assign_block (fun _ _ => rfl) hnodup hab, List.mem_append, List.mem_append] at hwhole
        exact ⟨fun hp => (hwhole.1 (.inr hp)).resolve_left (hout has' has hp),
          fun hp => (hwhole.2 (.inr hp)).resolve_left (hout has has' hp)⟩

end Shuffles

end Chooser

/-! ## Directories -/

section Directories

variable {L L' : Option κ → List (κ × ν)} {inside : Option κ → κ → Prop} {D : Option κ}

/-- The directories that are reached from the top, by what is inside a directory. -/
inductive Reached (inside : Option κ → κ → Prop) : Option κ → Prop
  | top : Reached inside none
  | step {D : Option κ} {k : κ} (hD : Reached inside D) (hk : inside D k) : Reached inside (some k)

variable [DecidableEq ν]

/-- The key that is found by following names down from a directory; the top itself is no key. -/
def find (L : Option κ → List (κ × ν)) : Option κ → List ν → Option (Option κ)
  | D, [] => some D
  | D, x :: xs => ((L D).find? (·.2 = x)).bind fun p => find L (some p.1) xs

theorem find_append (L : Option κ → List (κ × ν)) (D : Option κ) (xs ys : List ν) :
    find L D (xs ++ ys) = (find L D xs).bind (find L · ys) := by
  induction xs generalizing D with
  | nil => rfl
  | cons x xs ih =>
    rw [List.cons_append, find, find, Option.bind_assoc]
    exact Option.bind_congr fun p _ => ih _

/-- What is seen of directories from outside: the key at the end of a path. -/
def seen (L : Option κ → List (κ × ν)) (xs : List ν) : Option κ := (find L none xs).join

/-- A name that counts is found among those that count. -/
theorem find?_filter (counts : ν → Bool) (ps : List (κ × ν)) (x : ν) :
    (ps.filter (counts ·.2)).find? (·.2 = x) =
      if counts x then ps.find? (·.2 = x) else none := by
  rw [List.find?_filter]
  cases hx : counts x with
  | false =>
    refine List.find?_eq_none.2 fun p _ hp => ?_
    rw [decide_eq_true_eq, decide_eq_true_eq] at hp
    rw [hp.2, hx] at hp
    exact nomatch hp.1
  | true =>
    refine List.find?_congr fun p _ => ?_
    by_cases hp : p.2 = x
    · simp [hp, hx]
    · simp [hp]

/-- A path whose names all count is followed among the names that count, and no other path is. -/
theorem find_filter (counts : ν → Bool) (L : Option κ → List (κ × ν)) (D : Option κ) (xs : List ν) :
    find (fun D => (L D).filter (counts ·.2)) D xs =
      if xs.all counts then find L D xs else none := by
  induction xs generalizing D with
  | nil => rfl
  | cons x xs ih =>
    rw [find, find, find?_filter, List.all_cons]
    cases counts x with
    | false => rfl
    | true =>
      rw [if_pos rfl, Bool.true_and]
      cases (L D).find? fun p => decide (p.2 = x) with
      | none => simp
      | some p => exact ih _

/-- Seen along the paths whose names count. -/
theorem seen_filter_iff {counts : ν → Bool} :
    (∀ xs : List ν, xs.all counts = true → seen L' xs = seen L xs) ↔
      ∀ xs, seen (fun D => (L' D).filter (counts ·.2)) xs =
        seen (fun D => (L D).filter (counts ·.2)) xs := by
  refine forall_congr' fun xs => ?_
  simp only [seen, find_filter]
  cases hxs : xs.all counts with
  | true => simp
  | false => simp

/-- Where names are given once, the key with a name is found. -/
theorem find?_eq_some_iff (h : ((L D).map Prod.snd).Nodup) {p : κ × ν} {x : ν} :
    (L D).find? (·.2 = x) = some p ↔ p ∈ L D ∧ p.2 = x := by
  constructor
  · intro hp
    exact ⟨List.mem_of_find?_eq_some hp, by simpa using List.find?_some hp⟩
  · rintro ⟨hp, rfl⟩
    obtain ⟨q, hq⟩ := Option.isSome_iff_exists.1
      (List.find?_isSome (p := fun q : κ × ν => decide (q.2 = p.2)) |>.2 ⟨p, hp, by simp⟩)
    have hname : q.2 = p.2 := by simpa using List.find?_some hq
    rw [hq, List.inj_on_of_nodup_map h (List.mem_of_find?_eq_some hq) hp hname]

theorem find_singleton (h : ((L D).map Prod.snd).Nodup) {k : κ} {x : ν} :
    find L D [x] = some (some k) ↔ (k, x) ∈ L D := by
  rw [find, Option.bind_eq_some_iff]
  constructor
  · rintro ⟨p, hp, hk⟩
    obtain ⟨hmem, rfl⟩ := (find?_eq_some_iff h).1 hp
    obtain rfl : p.1 = k := Option.some.inj (Option.some.inj hk)
    exact hmem
  · exact fun hmem => ⟨(k, x), (find?_eq_some_iff h).2 ⟨hmem, rfl⟩, rfl⟩

/-- Directories that hold the same keys under the same names are followed alike. -/
theorem find_congr (hL : ∀ D k, (∃ x, (k, x) ∈ L D) ↔ inside D k)
    (h : ∀ D, ((L D).map Prod.snd).Nodup) (h' : ∀ D, ((L' D).map Prod.snd).Nodup)
    (hsame : ∀ D, Reached inside D → ∀ p, p ∈ L' D ↔ p ∈ L D) (hD : Reached inside D)
    (xs : List ν) : find L' D xs = find L D xs := by
  induction xs generalizing D with
  | nil => rfl
  | cons x xs ih =>
    have hfind : (L' D).find? (·.2 = x) = (L D).find? (·.2 = x) := by
      refine Option.ext fun p => ?_
      rw [find?_eq_some_iff (h' D), find?_eq_some_iff (h D), hsame D hD]
    rw [find, find, hfind]
    refine Option.bind_congr fun p hp => ih (hD.step ((hL D p.1).1 ⟨p.2, ?_⟩))
    exact List.mem_of_find?_eq_some hp

/-- A directory that is reached is at the end of a path. -/
theorem Reached.exists_find (hL : ∀ D k, (∃ x, (k, x) ∈ L D) ↔ inside D k)
    (h : ∀ D, ((L D).map Prod.snd).Nodup) (hD : Reached inside D) :
    ∃ xs, find L none xs = some D := by
  induction hD with
  | top => exact ⟨[], rfl⟩
  | @step D k _ hk ih =>
    obtain ⟨xs, hxs⟩ := ih
    obtain ⟨x, hx⟩ := (hL D k).2 hk
    refine ⟨xs ++ [x], ?_⟩
    rw [find_append, hxs, Option.bind_some, find_singleton (h D)]
    exact hx

/-- What is inside a directory is seen at the paths through it. -/
theorem seen_append (h : ((L D).map Prod.snd).Nodup) {xs : List ν}
    (hxs : find L none xs = some D) {k : κ} {x : ν} :
    seen L (xs ++ [x]) = some k ↔ (k, x) ∈ L D := by
  rw [seen, find_append, hxs, Option.bind_some, Option.join_eq_some_iff, find_singleton h]

/-- Two systems of directories with the same keys inside each are seen alike exactly when those
    that are reached hold the keys under the same names. -/
theorem seen_eq_iff (hL : ∀ D k, (∃ x, (k, x) ∈ L D) ↔ inside D k)
    (h : ∀ D, ((L D).map Prod.snd).Nodup) (h' : ∀ D, ((L' D).map Prod.snd).Nodup) :
    (∀ xs, seen L' xs = seen L xs) ↔ ∀ D, Reached inside D → ∀ p, p ∈ L' D ↔ p ∈ L D := by
  constructor
  · rintro hseen D hD ⟨k, x⟩
    have hpath : ∃ xs, find L none xs = some D ∧ find L' none xs = some D := by
      cases D with
      | none => exact ⟨[], rfl, rfl⟩
      | some k =>
        obtain ⟨xs, hxs⟩ := hD.exists_find hL h
        refine ⟨xs, hxs, Option.join_eq_some_iff.1 ((hseen xs).trans ?_)⟩
        rw [seen, hxs, Option.join_some]
    obtain ⟨xs, hxs, hxs'⟩ := hpath
    rw [← seen_append (h' D) hxs', ← seen_append (h D) hxs, hseen]
  · intro hsame xs
    rw [seen, seen, find_congr hL h h' hsame .top]

end Directories
