import Agendafs.ForStd.Trail

/-!
# Trees of files

`TreeFs ν γ` is a file system as its users see it: a map from paths over names `ν`
to directories and files with a content `γ`, in which whatever exists is inside a
directory. The edits take the condition under which the result is a tree of files
again. The calls look for that condition, and refuse without it.

## Key results

- `TreeFs.put`, `remove`, `move`, `edit`: the edits of a tree
- `TreeFs.create`, `unlink`, `rmdir`, `rename`, `write`: the calls
- `TreeFs.create_of_free`, `unlink_of_file`, ..: the calls that are not refused
-/

universe u v

/-- What a path leads to. -/
inductive TreeFs.Entry (γ : Type v)
  | directory
  | file (content : γ)

/-- The top is a directory, and what exists is inside one. -/
@[ext] structure TreeFs (ν : Type u) (γ : Type v) where
  entry : List ν → Option (TreeFs.Entry γ)
  top : entry [] = some .directory
  inside : ∀ {dir : List ν} {x : ν}, entry (dir ++ [x]) ≠ none → entry dir = some .directory

namespace TreeFs

variable {ν : Type u} {γ : Type v} {t : TreeFs ν γ} {path dir old : List ν} {x : ν} {e : Entry γ}
  {text : γ}

/-- Nothing is inside. -/
def Empty (t : TreeFs ν γ) (path : List ν) : Prop := ∀ x, t.entry (path ++ [x]) = none

/-- Something is inside directories only. -/
theorem empty_of_ne_directory (h : t.entry path ≠ some .directory) : t.Empty path := fun x => by
  by_contra hx
  exact h (t.inside hx)

theorem empty_of_none (h : t.entry path = none) : t.Empty path :=
  empty_of_ne_directory fun hdir => nomatch hdir.symm.trans h

theorem empty_of_file (h : t.entry path = some (.file text)) : t.Empty path :=
  empty_of_ne_directory fun hdir => nomatch hdir.symm.trans h

theorem ne_nil_of_file (h : t.entry path = some (.file text)) : path ≠ [] := by
  rintro rfl
  exact nomatch t.top.symm.trans h

/-! ## The edits -/

section Edits

variable [DecidableEq ν]

/-- Put something without anything inside into a directory. -/
def put (t : TreeFs ν γ) (dir : List ν) (x : ν) (e : Entry γ)
    (hdir : t.entry dir = some .directory) (hempty : t.Empty (dir ++ [x])) : TreeFs ν γ where
  entry := Function.update t.entry (dir ++ [x]) (some e)
  top := by
    rw [Function.update_of_ne (by simp)]
    exact t.top
  inside {dir' y} h := by
    by_cases heq : dir' ++ [y] = dir ++ [x]
    · obtain ⟨rfl, rfl⟩ := List.append_singleton_inj.1 heq
      rw [Function.update_of_ne (by simp)]
      exact hdir
    · rw [Function.update_of_ne heq] at h
      have hne : dir' ≠ dir ++ [x] := fun hdir' => h (hdir' ▸ hempty y)
      rw [Function.update_of_ne hne]
      exact t.inside h

/-- Take away what has nothing inside. -/
def remove (t : TreeFs ν γ) (path : List ν) (hne : path ≠ []) (hempty : t.Empty path) :
    TreeFs ν γ where
  entry := Function.update t.entry path none
  top := by
    rw [Function.update_of_ne hne.symm]
    exact t.top
  inside {dir y} h := by
    by_cases heq : dir ++ [y] = path
    · rw [heq, Function.update_self] at h
      exact absurd rfl h
    · rw [Function.update_of_ne heq] at h
      have hne : dir ≠ path := fun hdir => h (hdir ▸ hempty y)
      rw [Function.update_of_ne hne]
      exact t.inside h

/-- Move a subtree into a directory that is not inside it; what was there before is gone. -/
def move (t : TreeFs ν γ) (old dir : List ν) (x : ν) (hold : old ≠ [])
    (hdir : t.entry dir = some .directory) (hbelow : ¬ old <+: dir ++ [x]) : TreeFs ν γ where
  entry := Links.moveSubtree t.entry old (dir ++ [x])
  top := by
    rw [Links.moveSubtree, if_neg (by simp), if_neg (by simpa using hold)]
    exact t.top
  inside {dir' y} h := by
    unfold Links.moveSubtree at h ⊢
    by_cases hnew : dir ++ [x] <+: dir' ++ [y]
    · rw [if_pos hnew] at h
      rcases List.prefix_concat_iff.1 hnew with heq | hnew'
      · -- The directory it is put into does not move.
        obtain ⟨rfl, rfl⟩ := List.append_singleton_inj.1 heq
        have hlen : ¬ dir ++ [x] <+: dir := fun hp => by
          have hlength := hp.length_le
          rw [List.length_append, List.length_singleton] at hlength
          exact absurd hlength (Nat.not_succ_le_self _)
        have hin : ¬ old <+: dir := fun hp => hbelow (hp.trans (List.prefix_append dir [x]))
        rw [if_neg hlen, if_neg hin]
        exact hdir
      · rw [if_pos hnew']
        rw [List.drop_append_of_le_length hnew'.length_le, ← List.append_assoc] at h
        exact t.inside h
    · rw [if_neg hnew] at h
      have hnew' : ¬ dir ++ [x] <+: dir' := fun hp => hnew (hp.trans (List.prefix_append ..))
      by_cases hp : old <+: dir' ++ [y]
      · rw [if_pos hp] at h
        exact absurd rfl h
      · rw [if_neg hp] at h
        have hp' : ¬ old <+: dir' := fun hp' => hp (hp'.trans (List.prefix_append ..))
        rw [if_neg hnew', if_neg hp']
        exact t.inside h

/-- Replace the content of a file. -/
def edit (t : TreeFs ν γ) (path : List ν) (text : γ)
    (hfile : ∃ old, t.entry path = some (.file old)) : TreeFs ν γ where
  entry := Function.update t.entry path (some (.file text))
  top := by
    obtain ⟨old, hold⟩ := hfile
    rw [Function.update_of_ne (ne_nil_of_file hold).symm]
    exact t.top
  inside {dir y} h := by
    obtain ⟨old, hold⟩ := hfile
    have hdir : t.entry dir = some .directory := by
      refine t.inside (x := y) ?_
      by_cases heq : dir ++ [y] = path
      · rw [heq, hold]
        exact Option.some_ne_none _
      · rwa [Function.update_of_ne heq] at h
    have hne : dir ≠ path := fun heq => by
      rw [heq, hold] at hdir
      exact nomatch hdir
    rw [Function.update_of_ne hne]
    exact hdir

end Edits

/-! ## The calls -/

/-- Why a call is refused. -/
inductive Refusal
  | missing | alreadyExists | notDirectory | isDirectory | notEmpty | insideItself

section Calls

variable [DecidableEq ν]

open scoped Classical in
/-- Make a file or a directory. -/
noncomputable def create (t : TreeFs ν γ) (dir : List ν) (x : ν) (e : Entry γ) :
    Except Refusal (TreeFs ν γ) :=
  if hfree : t.entry (dir ++ [x]) = none then
    if hdir : t.entry dir = some .directory then .ok (t.put dir x e hdir (empty_of_none hfree))
    else .error (if t.entry dir = none then .missing else .notDirectory)
  else .error .alreadyExists

/-- Delete a file. -/
def unlink (t : TreeFs ν γ) (path : List ν) : Except Refusal (TreeFs ν γ) :=
  match h : t.entry path with
  | none => .error .missing
  | some .directory => .error .isDirectory
  | some (.file _) => .ok (t.remove path (ne_nil_of_file h) (empty_of_file h))

open scoped Classical in
/-- Delete a directory that is empty. -/
noncomputable def rmdir (t : TreeFs ν γ) (path : List ν) : Except Refusal (TreeFs ν γ) :=
  match t.entry path with
  | none => .error .missing
  | some (.file _) => .error .notDirectory
  | some .directory =>
    if h : path ≠ [] ∧ t.Empty path then .ok (t.remove path h.1 h.2) else .error .notEmpty

open scoped Classical in
/-- Move a subtree, in place of what has nothing inside. -/
noncomputable def rename (t : TreeFs ν γ) (old dir : List ν) (x : ν) :
    Except Refusal (TreeFs ν γ) :=
  if ¬ t.Empty (dir ++ [x]) then .error .notEmpty
  else if t.entry old = none then .error .missing
  else if hdir : t.entry dir = some .directory then
    if h : old ≠ [] ∧ ¬ old <+: dir ++ [x] then .ok (t.move old dir x h.1 hdir h.2)
    else .error .insideItself
  else .error .notDirectory

/-- Change the content of a file. -/
def write (t : TreeFs ν γ) (path : List ν) (f : γ → γ) : Except Refusal (TreeFs ν γ) :=
  match h : t.entry path with
  | none => .error .missing
  | some .directory => .error .isDirectory
  | some (.file text) => .ok (t.edit path (f text) ⟨text, h⟩)

theorem create_of_free (hfree : t.entry (dir ++ [x]) = none)
    (hdir : t.entry dir = some .directory) (e : Entry γ) :
    t.create dir x e = .ok (t.put dir x e hdir (empty_of_none hfree)) := by
  rw [create, dif_pos hfree, dif_pos hdir]

theorem create_of_exists (h : t.entry (dir ++ [x]) ≠ none) (e : Entry γ) :
    t.create dir x e = .error .alreadyExists := by
  rw [create, dif_neg h]

theorem unlink_of_none (h : t.entry path = none) : t.unlink path = .error .missing := by
  unfold unlink
  split <;> simp_all

theorem unlink_of_directory (h : t.entry path = some .directory) :
    t.unlink path = .error .isDirectory := by
  unfold unlink
  split <;> simp_all

theorem unlink_of_file (h : t.entry path = some (.file text)) :
    t.unlink path = .ok (t.remove path (ne_nil_of_file h) (empty_of_file h)) := by
  unfold unlink
  split <;> simp_all

theorem rmdir_of_none (h : t.entry path = none) : t.rmdir path = .error .missing := by
  rw [rmdir, h]

theorem rmdir_of_file (h : t.entry path = some (.file text)) :
    t.rmdir path = .error .notDirectory := by
  rw [rmdir, h]

theorem rmdir_of_empty (h : t.entry path = some .directory) (hne : path ≠ [])
    (hempty : t.Empty path) : t.rmdir path = .ok (t.remove path hne hempty) := by
  rw [rmdir, h]
  exact dif_pos ⟨hne, hempty⟩

theorem rmdir_of_not_empty (h : t.entry path = some .directory) (hempty : ¬ t.Empty path) :
    t.rmdir path = .error .notEmpty := by
  rw [rmdir, h]
  exact dif_neg fun hboth => hempty hboth.2

theorem rename_of_not_empty (h : ¬ t.Empty (dir ++ [x])) :
    t.rename old dir x = .error .notEmpty := by
  rw [rename, if_pos h]

theorem rename_of_empty (h : t.Empty (dir ++ [x])) (hexists : t.entry old ≠ none)
    (hdir : t.entry dir = some .directory) (hold : old ≠ []) (hbelow : ¬ old <+: dir ++ [x]) :
    t.rename old dir x = .ok (t.move old dir x hold hdir hbelow) := by
  rw [rename, if_neg (not_not.2 h), if_neg hexists, dif_pos hdir, dif_pos ⟨hold, hbelow⟩]

theorem write_of_none (h : t.entry path = none) (f : γ → γ) :
    t.write path f = .error .missing := by
  unfold write
  split <;> simp_all

theorem write_of_file (h : t.entry path = some (.file text)) (f : γ → γ) :
    t.write path f = .ok (t.edit path (f text) ⟨text, h⟩) := by
  unfold write
  split
  · simp_all
  · simp_all
  · rename_i text' h'
    obtain rfl : text = text' := by simpa using h.symm.trans h'
    rfl

end Calls

end TreeFs
