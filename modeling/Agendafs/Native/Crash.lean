/-!
# How a call can end without returning

The program runs with assertions on, and uses pointers that may be NULL or
freed. Each way to stop has its own constructor, so that a theorem can exclude
some and allow others.
-/

namespace Agendafs

/-- Why a call does not return. -/
inductive Crash
  /-- A failed `assert`. -/
  | assertFailed
  /-- A NULL pointer is dereferenced. -/
  | nullDereference
  /-- A freed node is dereferenced. -/
  | useAfterFree
  /-- `split_path` writes past the 255 segments of its caller. -/
  | segmentsOverflow
  /-- `detach_tree_node` does not find the node among the children of its parent
      and shifts from index `(size_t)-1`. -/
  | childNotFound
  /-- A loop or recursion of the source goes on past the bound the model gives it. -/
  | endless
deriving DecidableEq

end Agendafs
