import Agendafs.Spec.Siblings
import Mathlib.Data.List.TakeWhile

/-!
# The functions that take paths apart

`split_path` reads tokens from the front of a path and counts them, `get_filename`
and `get_parent_path` search for its last slash, and the second of them finds out
by a comparison whether the parent is the root. On the path of a list of names
they give the names, the last of them and the path of the others.

## Key results

- `splitPathLoop_run`: the loop of `split_path` ends, and stores each name at its place
- `getParentPath_eq_strcmp`: the comparison in `get_parent_path`
- `path_splitters_agree`
-/

namespace Agendafs

open Store

/-! ## The loop of split_path -/

/-- `strtok_r` with the delimiter `/`: the next token, and what is left to read behind it. -/
def strtokR (saveptr : CStr) : Option (CStr × CStr) :=
  match saveptr.dropWhile (· = slash) with
  | [] => none
  | b :: s => some ((b :: s).takeWhile (· ≠ slash), ((b :: s).dropWhile (· ≠ slash)).tail)

/-- The loop of `split_path`, for at most this many tests of its condition: what it stores in
    `segments`, each token with the index `count++`. -/
def splitPathLoop : Nat → CStr → Nat → Option (List (CStr × Nat))
  | 0, _, _ => none
  | fuel + 1, saveptr, count =>
    match strtokR saveptr with
    | none => some []
    | some (segment, saveptr) =>
      (splitPathLoop fuel saveptr (count + 1)).map ((segment, count) :: ·)

theorem splitPath_dropWhile (s : CStr) : splitPath (s.dropWhile (· = slash)) = splitPath s := by
  unfold splitPath
  induction s with
  | nil => rfl
  | cons b s ih =>
    by_cases hb : b = slash
    · rw [List.dropWhile_cons, if_pos (decide_eq_true hb), ih, strtok.eq_2, if_pos hb, if_pos rfl]
    · rw [List.dropWhile_cons, if_neg (by simpa using hb)]

/-- Bytes before the first slash have none. -/
theorem slash_not_mem_takeWhile (s : CStr) : slash ∉ s.takeWhile (· ≠ slash) := by
  intro hm
  have hne := List.mem_takeWhile_imp hm
  exact of_decide_eq_true hne rfl

theorem takeWhile_segment_ne_nil {b : UInt8} (hb : b ≠ slash) (s : CStr) :
    (b :: s).takeWhile (· ≠ slash) ≠ [] := by
  rw [List.takeWhile_cons, if_pos (decide_eq_true hb)]
  exact List.cons_ne_nil _ _

/-- What is left after bytes have been skipped begins with another one. -/
theorem head_of_dropWhile {p : UInt8 → Bool} {b : UInt8} {s rest : CStr}
    (h : s.dropWhile p = b :: rest) : p b = false := by
  have hhead := List.head?_dropWhile_not p s
  rw [h] at hhead
  exact hhead

/-- A path that does not begin with a slash begins with a segment. -/
theorem splitPath_takeWhile {b : UInt8} {s : CStr} (hb : b ≠ slash) :
    splitPath (b :: s) = (b :: s).takeWhile (· ≠ slash) ::
      splitPath ((b :: s).dropWhile (· ≠ slash)).tail := by
  have hne := takeWhile_segment_ne_nil hb s
  have hflat := slash_not_mem_takeWhile (b :: s)
  have hsplit : (b :: s).takeWhile (· ≠ slash) ++ (b :: s).dropWhile (· ≠ slash) = b :: s :=
    List.takeWhile_append_dropWhile
  unfold splitPath
  conv_lhs => rw [← hsplit]
  -- The segment ends at the end of the path or at a slash.
  cases hrest : (b :: s).dropWhile (· ≠ slash) with
  | nil =>
    rw [List.append_nil, strtok_of_not_mem hflat, List.nil_append, if_neg hne]
    rfl
  | cons b' rest =>
    have hslash : b' = slash := not_not.1 (of_decide_eq_false (head_of_dropWhile hrest))
    rw [hslash, strtok_append, strtok_of_not_mem hflat, List.nil_append, if_neg hne]
    rfl

/-- Each token is the next segment, and leaves less to read. -/
theorem strtokR_spec (s : CStr) :
    match strtokR s with
    | none => splitPath s = []
    | some (segment, rest) => splitPath s = segment :: splitPath rest ∧ rest.length < s.length := by
  have hdrop := splitPath_dropWhile s
  have hlength := (List.dropWhile_suffix (l := s) (· = slash)).length_le
  unfold strtokR
  cases hs : s.dropWhile (· = slash) with
  | nil =>
    rw [hs] at hdrop
    exact hdrop.symm
  | cons b rest =>
    have hb : b ≠ slash := of_decide_eq_false (head_of_dropWhile hs)
    rw [hs] at hdrop hlength
    refine ⟨hdrop.symm.trans (splitPath_takeWhile hb), ?_⟩
    have htail : ((b :: rest).dropWhile (· ≠ slash)).tail.length ≤ rest.length := by
      rw [List.dropWhile_cons, if_pos (decide_eq_true hb), List.length_tail]
      have := (List.dropWhile_suffix (l := rest) (· ≠ slash)).length_le
      omega
    rw [List.length_cons] at hlength
    omega

/-- The loop ends, after it has stored the segments one behind the other. -/
theorem splitPathLoop_run {fuel : Nat} {s : CStr} (h : s.length < fuel) (count : Nat) :
    splitPathLoop fuel s count = some ((splitPath s).zipIdx count) := by
  induction fuel generalizing s count with
  | zero => omega
  | succ fuel ih =>
    have hspec := strtokR_spec s
    unfold splitPathLoop
    cases hs : strtokR s with
    | none =>
      rw [hs] at hspec
      rw [hspec]
      rfl
    | some p =>
      obtain ⟨segment, rest⟩ := p
      rw [hs] at hspec
      obtain ⟨hsplit, hless⟩ := hspec
      simp only
      rw [ih (by omega), hsplit, List.zipIdx_cons, Option.map_some]

/-! ## The comparison in get_parent_path -/

/-- The parent is the root if what begins at the last slash is the whole path. -/
theorem getParentPath_eq_strcmp (path : CStr) :
    getParentPath path = (strrchr slash path).map fun (pre, post) =>
      if slash :: post = path then [slash] else pre := by
  unfold getParentPath
  cases hs : strrchr slash path with
  | none => rfl
  | some p =>
    obtain ⟨pre, post⟩ := p
    obtain ⟨hpath, _⟩ := strrchr_eq_some.1 hs
    have hroot : slash :: post = path ↔ pre = [] := by
      rw [hpath]
      exact List.self_eq_append_left
    simp only [hroot, Option.map_some]
    split <;> rfl

/-! ## One decomposition -/

/-- The path of names that are not empty and have no slash is split into them; its base name is
    the last, and its parent path, which is that of the others or the root, has the others. So
    what the path is looked up as is the child of that name below what the parent path is. -/
theorem path_splitters_agree {names : List CStr} (h : ProperSegments names) (hne : names ≠ []) :
    (∀ fuel, (normalPath names).length < fuel →
      splitPathLoop fuel (normalPath names) 0 = some names.zipIdx) ∧
    splitPath (normalPath names) = names ∧
    getFilename (normalPath names) = names.getLast hne ∧
    getParentPath (normalPath names) =
      some (if names.length = 1 then [slash] else normalPath names.dropLast) ∧
    ∀ parent, getParentPath (normalPath names) = some parent →
      splitPath (normalPath names) = splitPath parent ++ [getFilename (normalPath names)] ∧
      ∀ (s : Store) (p : NodeId), s.lookup parent = some p →
        s.lookup (normalPath names) =
          (s.links.children p).find? (s.name · = getFilename (normalPath names)) := by
  have hsplit := splitPath_normalPath h
  -- The last name and those before it.
  obtain ⟨others, last, rfl⟩ := (List.eq_nil_or_concat' names).resolve_left hne
  have hlast := h.last
  have hfilename := getFilename_normalPath h
  refine ⟨fun fuel hfuel => ?_, hsplit, ?_, ?_, fun parent hparent => ?_⟩
  · rw [splitPathLoop_run hfuel, hsplit]
  · rw [hfilename, List.getLast_append_singleton]
  · rw [normalPath_append, getParentPath_eq_strcmp, strrchr_append _ hlast.2, Option.map_some,
      List.dropLast_concat, List.length_append, List.length_singleton]
    -- The slash of the last name begins the path if there is no other name.
    simp only [List.self_eq_append_left]
    cases others with
    | nil => rfl
    | cons x others =>
      have hpath : normalPath (x :: others) ≠ [] := List.cons_ne_nil _ _
      have hlong : (x :: others).length + 1 ≠ 1 := by simp
      rw [if_neg hpath, if_neg hlong]
  · have hname : getFilename (normalPath (others ++ [last])) ≠ [] := by
      rw [hfilename]
      exact hlast.1
    refine ⟨?_, fun s p hp => lookup_child hparent hp hname⟩
    rw [splitPath_eq_parent hparent, if_neg hname]

theorem path_splitters_agree_dotsAndSpaces :
    splitPathLoop 16 (bytes "/a b/.c.txt") 0 = some [(bytes "a b", 0), (bytes ".c.txt", 1)] ∧
      getFilename (bytes "/a b/.c.txt") = bytes ".c.txt" ∧
      getParentPath (bytes "/a b/.c.txt") = some (bytes "/a b") := by
  have hproper : ∀ x ∈ [bytes "a b", bytes ".c.txt"], x ≠ [] ∧ slash ∉ x := by decide
  obtain ⟨hloop, _, hfilename, hparent, _⟩ :=
    path_splitters_agree hproper (List.cons_ne_nil _ _)
  exact ⟨hloop 16 (by decide), hfilename, hparent⟩

end Agendafs
