import Agendafs.Native.Path
import Mathlib.Data.List.Basic
import Mathlib.Data.List.Induction

/-!
# The path functions

What the string scans of `path.c` compute: `strrchr` splits at the last
occurrence, `split_path` of a path is `split_path` of its parent path followed by
its base name, and `filename_numbered` gives different names for different
numbers.
-/

namespace Agendafs

/-! ## strrchr -/

theorem strrchr_eq_none {c : UInt8} {s : CStr} : strrchr c s = none ↔ c ∉ s := by
  induction s with
  | nil => simp [strrchr]
  | cons b s ih =>
    rw [strrchr, List.mem_cons, not_or]
    cases hs : strrchr c s with
    | some p =>
      have : c ∈ s := by
        rw [hs] at ih
        simpa using ih
      simp [this]
    | none =>
      by_cases hb : b = c
      · simp [hb]
      · simp [hb, Ne.symm hb, ih.1 hs]

theorem strrchr_append {c : UInt8} (pre : CStr) {post : CStr} (hc : c ∉ post) :
    strrchr c (pre ++ c :: post) = some (pre, post) := by
  induction pre with
  | nil =>
    rw [List.nil_append, strrchr, strrchr_eq_none.2 hc]
    exact if_pos rfl
  | cons b pre ih => rw [List.cons_append, strrchr, ih]

/-- `strrchr` splits at the last occurrence. -/
theorem strrchr_eq_some {c : UInt8} {s pre post : CStr} :
    strrchr c s = some (pre, post) ↔ s = pre ++ c :: post ∧ c ∉ post := by
  constructor
  · intro h
    induction s generalizing pre with
    | nil => exact nomatch h
    | cons b s ih =>
      rw [strrchr] at h
      -- An occurrence in the rest is behind this byte.
      cases hs : strrchr c s with
      | some p =>
        rw [hs, Option.some.injEq, Prod.mk.injEq] at h
        obtain ⟨rfl, rfl⟩ := h
        obtain ⟨hsplit, hc⟩ := ih hs
        exact ⟨by rw [hsplit, List.cons_append], hc⟩
      | none =>
        simp only [hs] at h
        split at h
        · rename_i hb
          rw [Option.some.injEq, Prod.mk.injEq] at h
          obtain ⟨rfl, rfl⟩ := h
          exact ⟨by rw [hb, List.nil_append], strrchr_eq_none.1 hs⟩
        · exact nomatch h
  · rintro ⟨rfl, hc⟩
    exact strrchr_append pre hc

/-- A string that holds a byte has a last occurrence of it. -/
theorem exists_strrchr {c : UInt8} {s : CStr} (h : c ∈ s) :
    ∃ pre post, strrchr c s = some (pre, post) := by
  cases hs : strrchr c s with
  | none => exact absurd h (strrchr_eq_none.1 hs)
  | some p => exact ⟨p.1, p.2, rfl⟩

/-! ## split_path -/

theorem strtok_append (c : UInt8) (p q acc : CStr) :
    strtok c (p ++ c :: q) acc = strtok c p acc ++ strtok c q [] := by
  induction p generalizing acc with
  | nil =>
    rw [List.nil_append, strtok.eq_2, if_pos rfl, strtok.eq_1]
    split <;> simp
  | cons b p ih =>
    rw [List.cons_append, strtok.eq_2, strtok.eq_2]
    split
    · split
      · exact ih []
      · rw [ih [], List.cons_append]
    · exact ih _

theorem strtok_of_not_mem {c : UInt8} {q : CStr} (h : c ∉ q) (acc : CStr) :
    strtok c q acc = if acc ++ q = [] then [] else [acc ++ q] := by
  induction q generalizing acc with
  | nil => rw [strtok, List.append_nil]
  | cons b q ih =>
    rw [List.mem_cons, not_or] at h
    rw [strtok, if_neg (Ne.symm h.1), ih h.2]
    simp

/-- The segments of a path are not empty and have no slash. -/
theorem of_mem_splitPath {p seg : CStr} (h : seg ∈ splitPath p) : seg ≠ [] ∧ slash ∉ seg := by
  -- The token that is being read has no slash, either.
  have key : ∀ (p acc : CStr), slash ∉ acc → ∀ seg ∈ strtok slash p acc, seg ≠ [] ∧ slash ∉ seg := by
    intro p
    induction p with
    | nil =>
      intro acc hacc seg hseg
      rw [strtok] at hseg
      split at hseg
      · exact nomatch hseg
      · rw [List.mem_singleton.1 hseg]
        exact ⟨‹_›, hacc⟩
    | cons b p ih =>
      intro acc hacc seg hseg
      rw [strtok] at hseg
      split at hseg
      · split at hseg
        · exact ih [] List.not_mem_nil seg hseg
        · rcases List.mem_cons.1 hseg with rfl | hseg
          · exact ⟨‹_›, hacc⟩
          · exact ih [] List.not_mem_nil seg hseg
      · refine ih (acc ++ [b]) ?_ seg hseg
        simp only [List.mem_append, List.mem_singleton, not_or]
        exact ⟨hacc, Ne.symm ‹_›⟩
  exact key p [] List.not_mem_nil seg h

/-- Appending a base name appends a segment. -/
theorem splitPath_append (p : CStr) {name : CStr} (h : slash ∉ name) :
    splitPath (p ++ slash :: name) = splitPath p ++ if name = [] then [] else [name] := by
  unfold splitPath
  rw [strtok_append, strtok_of_not_mem h, List.nil_append]

theorem getFilename_append (p : CStr) {name : CStr} (h : slash ∉ name) :
    getFilename (p ++ slash :: name) = name := by
  unfold getFilename
  rw [strrchr_append p h]

/-- The file name of a file in a directory. -/
theorem getFilename_appendPath (p : CStr) {name : CStr} (h : slash ∉ name) :
    getFilename (appendPath p name) = name := getFilename_append p h

theorem slash_not_mem_getFilename (p : CStr) : slash ∉ getFilename p := by
  unfold getFilename
  cases h : strrchr slash p with
  | none => exact strrchr_eq_none.1 h
  | some q => exact (strrchr_eq_some.1 h).2

/-- The segments of a path are those of its parent path and its base name. -/
theorem splitPath_eq_parent {path parent : CStr} (h : getParentPath path = some parent) :
    splitPath path =
      splitPath parent ++ if getFilename path = [] then [] else [getFilename path] := by
  unfold getParentPath at h
  cases hs : strrchr slash path with
  | none => rw [hs] at h; exact nomatch h
  | some q =>
    obtain ⟨pre, post⟩ := q
    obtain ⟨rfl, hpost⟩ := strrchr_eq_some.1 hs
    simp only [hs] at h
    rw [getFilename_append pre hpost, splitPath_append pre hpost]
    -- The parent of a name below the root is the root, which has no segments.
    split at h
    · rename_i hpre
      subst hpre
      rw [Option.some.injEq] at h
      rw [← h]
      rfl
    · rw [Option.some.injEq] at h
      rw [h]

theorem getParentPath_isSome_of_mem {path : CStr} (h : slash ∈ path) :
    ∃ parent, getParentPath path = some parent := by
  obtain ⟨pre, post, hs⟩ := exists_strrchr h
  simp only [getParentPath, hs]
  by_cases hpre : pre = []
  · exact ⟨_, if_pos hpre⟩
  · exact ⟨_, if_neg hpre⟩

theorem appendPath_inj {p a b : CStr} : appendPath p a = appendPath p b ↔ a = b := by
  simp [appendPath]

theorem strstr_append (s t : CStr) : strstr t (s ++ t) = true := by
  induction s with
  | nil =>
    cases t with
    | nil => rfl
    | cons b t => simp [strstr]
  | cons b s ih =>
    rw [List.cons_append, strstr, ih, Bool.or_true]

/-! ## Names and extensions -/

/-- A name without dot has no extension to cut. -/
theorem extension_of_not_mem {name : CStr} (h : dot ∉ name) :
    getFileExtension name = none ∧ withoutFileExtension name = name := by
  unfold getFileExtension withoutFileExtension
  rw [strrchr_eq_none.2 h]
  exact ⟨rfl, rfl⟩

/-- A name is cut at its last dot. -/
theorem extension_of_append (base : CStr) {ext : CStr} (hdot : dot ∉ ext) (hslash : slash ∉ ext) :
    getFileExtension (base ++ dot :: ext) = some ext ∧
      withoutFileExtension (base ++ dot :: ext) = base := by
  unfold getFileExtension withoutFileExtension
  rw [strrchr_append base hdot]
  exact ⟨rfl, if_neg hslash⟩

/-- A name has no dot, or a base and an extension at its last dot. -/
theorem name_cases (name : CStr) :
    dot ∉ name ∨ ∃ base ext, name = base ++ dot :: ext ∧ dot ∉ ext := by
  cases h : strrchr dot name with
  | none => exact .inl (strrchr_eq_none.1 h)
  | some p => exact .inr ⟨p.1, p.2, strrchr_eq_some.1 h⟩

/-! ## filename_numbered -/

theorem decimal_injective : Function.Injective decimal := by
  -- The digits can be read back from the bytes, except that 0 is printed although it has none.
  have digit : ∀ n, ∀ d ∈ Nat.digits 10 n, (UInt8.ofNat (48 + d)).toNat - 48 = d := by
    intro n d hd
    have := Nat.digits_lt_base (by decide : 1 < 10) hd
    rw [UInt8.toNat_ofNat']
    omega
  have key : ∀ n, n ≠ 0 →
      (decimal n).map (fun b => b.toNat - 48) = (Nat.digits 10 n).reverse := by
    intro n hn
    rw [decimal, if_neg hn, List.map_map]
    refine (List.map_congr_left fun d hd => ?_).trans (List.map_id _)
    exact digit n d (List.mem_reverse.1 hd)
  have zero : ∀ n, n ≠ 0 → decimal n ≠ decimal 0 := by
    intro n hn h
    have := key n hn
    rw [h] at this
    have hd : Nat.digits 10 n = [0] := by
      rw [← List.reverse_reverse (Nat.digits 10 n), ← this]
      decide
    have := congrArg (Nat.ofDigits 10) hd
    rw [Nat.ofDigits_digits] at this
    exact hn (by simpa using this)
  intro m n h
  by_cases hm : m = 0
  · by_cases hn : n = 0
    · rw [hm, hn]
    · exact absurd (hm ▸ h).symm (zero n hn)
  · by_cases hn : n = 0
    · exact absurd (hn ▸ h) (zero m hm)
    · have := key m hm
      rw [h, key n hn, List.reverse_inj] at this
      exact (Nat.digits_inj_iff.1 this).symm

/-- Different numbers give different names. -/
theorem filenameNumbered_injective (filename : CStr) :
    Function.Injective (filenameNumbered filename) := by
  intro m n h
  unfold filenameNumbered at h
  cases hs : strrchr dot filename with
  | none =>
    simp only [hs] at h
    exact decimal_injective (by simpa using h)
  | some p =>
    simp only [hs] at h
    exact decimal_injective (by simpa using h)

/-- A numbered name is longer than the name. -/
theorem filenameNumbered_ne (filename : CStr) (n : Nat) : filenameNumbered filename n ≠ filename := by
  intro h
  have hlen := congrArg List.length h
  unfold filenameNumbered at hlen
  cases hs : strrchr dot filename with
  | none => simp [hs] at hlen
  | some p =>
    obtain ⟨hsplit, _⟩ := strrchr_eq_some.1 hs
    have := congrArg List.length hsplit
    simp [hs] at hlen this
    omega

/-! ## Normal paths -/

/-- The absolute path with these segments, without empty ones. -/
def normalPath (segments : List CStr) : CStr := segments.flatMap (slash :: ·)

/-- The segments of a path: non-empty and without a slash. -/
def ProperSegments (segments : List CStr) : Prop := ∀ x ∈ segments, x ≠ [] ∧ slash ∉ x

section

variable {segments : List CStr} {x : CStr}

theorem normalPath_append (segments : List CStr) (x : CStr) :
    normalPath (segments ++ [x]) = normalPath segments ++ slash :: x := by
  unfold normalPath
  rw [List.flatMap_append, List.flatMap_singleton]

theorem ProperSegments.of_append {ys : List CStr} (h : ProperSegments (segments ++ ys)) :
    ProperSegments segments := fun y hy => h y (List.mem_append_left _ hy)

theorem ProperSegments.last (h : ProperSegments (segments ++ [x])) : x ≠ [] ∧ slash ∉ x :=
  h x (List.mem_append_right _ (List.mem_singleton_self x))

theorem splitPath_normalPath (h : ProperSegments segments) :
    splitPath (normalPath segments) = segments := by
  induction segments using List.reverseRec with
  | nil => rfl
  | append_singleton xs x ih =>
    rw [normalPath_append, splitPath_append _ h.last.2, if_neg h.last.1, ih h.of_append]

theorem getFilename_normalPath (h : ProperSegments (segments ++ [x])) :
    getFilename (normalPath (segments ++ [x])) = x := by
  rw [normalPath_append]
  exact getFilename_append _ h.last.2

/-- The parent path has the segments before the last. -/
theorem getParentPath_normalPath (h : ProperSegments (segments ++ [x])) :
    ∃ parent, getParentPath (normalPath (segments ++ [x])) = some parent ∧
      splitPath parent = segments := by
  have hmem : slash ∈ normalPath (segments ++ [x]) := by simp [normalPath_append]
  obtain ⟨parent, hparent⟩ := getParentPath_isSome_of_mem hmem
  have hsplit := splitPath_eq_parent hparent
  rw [splitPath_normalPath h, getFilename_normalPath h, if_neg h.last.1] at hsplit
  exact ⟨parent, hparent, (List.append_inj_left' hsplit rfl).symm⟩

/-- A normal path that is not empty is absolute. -/
theorem exists_normalPath (hne : segments ≠ []) : ∃ path, normalPath segments = slash :: path := by
  cases segments with
  | nil => exact absurd rfl hne
  | cons x xs => exact ⟨_, rfl⟩

end

end Agendafs
