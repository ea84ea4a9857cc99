import Agendafs.ForStd.Prog
import Agendafs.Native.Crash
import Agendafs.Native.Hashmap

/-!
# tree.c and fuse_node_store.c

The node tree and its index. A node is named by the number of its allocation;
`heap` maps the nodes that have been allocated and not freed to their fields, so
that following a pointer to a freed node stops with `useAfterFree`. The array
`children` is the list of its first `child_count` entries.
-/

namespace Agendafs

/-- `struct agenda_entry`. -/
structure AgendaEntry where
  filename : CStr
  filenameVdir : CStr
deriving DecidableEq

/-- The identity of an allocated node. -/
abbrev NodeId := Nat

/-- `struct tree_node`. Its `data` is NULL for the root only. -/
structure TreeNode where
  data : Option AgendaEntry
  parent : Option NodeId
  children : List NodeId

/-- The node tree of `tree.c` with `fuse_root` and `entries_vdir`. -/
structure Store where
  heap : NodeId → Option TreeNode
  nextId : NodeId
  fuseRoot : NodeId
  entriesVdir : Hashmap NodeId

/-- Programs on the tree and its index. -/
abbrev StoreM := Prog Crash Store

/-! ## Memory -/

/-- A pointer that is about to be dereferenced. -/
def nonNull {α : Type} : Option α → StoreM α
  | some a => pure a
  | none => throw .nullDereference

/-- Read the fields of a node. -/
def deref (node : NodeId) : StoreM TreeNode := do
  match (← get).heap node with
  | some t => pure t
  | none => throw .useAfterFree

/-- The store with `f` applied to the fields of one node. -/
def Store.modifyNode (s : Store) (node : NodeId) (f : TreeNode → TreeNode) : Store :=
  { s with heap := fun n => if n = node then (s.heap n).map f else s.heap n }

/-- Write fields of a node. -/
def writeNode (node : NodeId) (f : TreeNode → TreeNode) : StoreM Unit := do
  let _ ← deref node
  modify (·.modifyNode node f)

/-! ## tree.c -/

/-- `create_tree_node`. -/
def createTreeNode (data : Option AgendaEntry) : StoreM NodeId := do
  let s ← get
  modify fun s => { s with
    heap := fun n => if n = s.nextId then some ⟨data, none, []⟩ else s.heap n
    nextId := s.nextId + 1 }
  pure s.nextId

/-- `add_child`. -/
def addChild (parent child : NodeId) : StoreM Nat := do
  writeNode parent fun t => { t with children := t.children ++ [child] }
  writeNode child fun t => { t with parent := some parent }
  pure 0

/-- `node_has_children`. -/
def nodeHasChildren (node : NodeId) : StoreM Bool := do
  pure ((← deref node).children ≠ [])

/-- `free_tree`. The recursion is bounded by the number of allocated nodes. -/
def freeTree : Nat → NodeId → StoreM Unit
  | 0, _ => throw .endless
  | fuel + 1, node => do
    let t ← deref node
    -- The children are freed as they are, without being taken out of the index.
    t.children.forM (freeTree fuel)
    modify fun s => { s with heap := fun n => if n = node then none else s.heap n }

/-- `detach_tree_node`. -/
def detachTreeNode (node : NodeId) : StoreM Bool := do
  match (← deref node).parent with
  | none => pure false
  | some parent => do
    if node ∈ (← deref parent).children then
      writeNode parent fun t => { t with children := t.children.erase node }
      writeNode node fun t => { t with parent := none }
      pure true
    -- The index stays `(size_t)-1`, and the shift starts at the first child.
    else throw .childNotFound

/-- `move_node`. -/
def moveNode (newParent child : NodeId) : StoreM Nat := do
  let _ ← detachTreeNode child
  addChild newParent child

/-! ## fuse_node_store.c -/

/-- `set_node_filename`. -/
def setNodeFilename (node : NodeId) (filename : CStr) : StoreM Unit := do
  let entry ← nonNull (← deref node).data
  writeNode node fun t => { t with data := some { entry with filename := filename } }

/-- `get_fuse_node_from_vdir_name`. -/
def getFuseNodeFromVdirName (vdirName : CStr) : StoreM (Option NodeId) := do
  pure ((← get).entriesVdir.get vdirName)

/-- `is_root_node`. -/
def isRootNode (node : NodeId) : StoreM Bool := do
  pure (← deref node).data.isNone

/-- `get_node_filename`. -/
def getNodeFilename (node : NodeId) : StoreM CStr := do
  match (← deref node).data with
  | none => pure []
  | some entry => pure entry.filename

/-- `get_vdir_filepath`, in the directory `vdir`. -/
def getVdirFilepath (vdir : CStr) (node : NodeId) : StoreM CStr := do
  let entry ← nonNull (← deref node).data
  pure (appendPath vdir entry.filenameVdir)

/-- `delete_fuse_node`. -/
def deleteFuseNode (node : NodeId) : StoreM Unit := do
  let e ← nonNull (← deref node).data
  modify fun s => { s with entriesVdir := s.entriesVdir.remove e.filenameVdir }
  let _ ← detachTreeNode node
  -- No subtree is deeper than there are allocations.
  freeTree ((← get).nextId + 1) node

/-- `create_fuse_node`. -/
def createFuseNode (entry : AgendaEntry) : StoreM NodeId := do
  let newNode ← createTreeNode (some entry)
  modify fun s => { s with entriesVdir := s.entriesVdir.insert entry.filenameVdir newNode }
  pure newNode

/-- `upsert_fuse_node`. -/
def upsertFuseNode (entry : AgendaEntry) : StoreM NodeId := do
  match (← get).entriesVdir.get entry.filenameVdir with
  | some node => do
    setNodeFilename node entry.filename
    pure node
  | none => createFuseNode entry

/-- The inner loop of `add_fuse_child`: is no sibling called `newFilename`? -/
def isUnique (newFilename : CStr) : List NodeId → StoreM Bool
  | [] => pure true
  | sibling :: siblings => do
    if newFilename = (← getNodeFilename sibling) then pure false
    else isUnique newFilename siblings

/-- The outer loop of `add_fuse_child`. `siblings.length + 1` rounds are enough,
    since the candidates are distinct. -/
def uniqueFilename (filename : CStr) (siblings : List NodeId) :
    Nat → CStr → Nat → StoreM CStr
  | 0, _, _ => throw .endless
  | rounds + 1, newFilename, conflictCount => do
    if ← isUnique newFilename siblings then
      pure newFilename
    else
      uniqueFilename filename siblings rounds (filenameNumbered filename conflictCount)
        (conflictCount + 1)

/-- `add_fuse_child`. The parent may be a NULL pointer. -/
def addFuseChild (parent : Option NodeId) (child : NodeId) : StoreM Nat := do
  let filename ← getNodeFilename child
  -- `parent->child_count` is the first access through `parent`.
  let parent ← nonNull parent
  let siblings := (← deref parent).children
  let newFilename ← uniqueFilename filename siblings (siblings.length + 1) filename 1
  setNodeFilename child newFilename
  addChild parent child

/-- `move_fuse_node`. -/
def moveFuseNode (newParent : Option NodeId) (child : NodeId) : StoreM Nat := do
  let _ ← detachTreeNode child
  addFuseChild newParent child

end Agendafs
