import Agendafs.Native.Buckets
import Agendafs.Native.FuseNode

/-!
# tree.c and fuse_node_store.c in memory

The functions of `tree.c`, `fuse_node_store.c` and the path lookup of `fuse_node.c` as
the source has them: each node has an array of pointers to its children that grows by
`realloc`, with a count and a capacity, and the index of the notes is the hash table of
`hashmap.c` in memory. Reading or writing outside of an array, reading an entry that has
not been written, and following a NULL or dangling pointer all stop.
-/

namespace Agendafs

open Linked

/-- `struct tree_node`. -/
structure NodeData where
  data : Option AgendaEntry
  parent : Option NodeId
  /-- The array, of which some entries may not have been written yet. -/
  children : List (Option NodeId)
  childCount : Nat
  childCapacity : Nat

/-- The nodes and the buckets that are allocated, `fuse_root` and `entries_vdir`. -/
structure StoreMemory where
  nodes : NodeId → Option NodeData
  nextId : NodeId
  fuseRoot : NodeId
  entriesVdir : Memory (BucketData NodeId) (HashmapData NodeId)

/-- Programs on the memory of the store. -/
abbrev MemM := Prog Fault StoreMemory

namespace Mem

/-! ## Memory -/

/-- A pointer that is about to be dereferenced. -/
def nonNull {α : Type} : Option α → MemM α
  | some a => pure a
  | none => throw .nullPointer

/-- Read the fields of a node. -/
def deref (node : NodeId) : MemM NodeData := do
  match (← get).nodes node with
  | some t => pure t
  | none => throw .dangling

/-- Write fields of a node. -/
def writeNode (node : NodeId) (f : NodeData → NodeData) : MemM Unit := do
  let _ ← deref node
  modify fun c => { c with nodes := fun n => if n = node then (c.nodes n).map f else c.nodes n }

/-- Read `xs[i]`. -/
def readArray (xs : List (Option NodeId)) (i : Nat) : MemM NodeId :=
  match xs[i]? with
  | none => throw .outOfBounds
  | some none => throw .uninitialised
  | some (some n) => pure n

/-- The array after `xs[i] = n`. -/
def writeArray (xs : List (Option NodeId)) (i : Nat) (n : NodeId) : MemM (List (Option NodeId)) :=
  if i < xs.length then pure (xs.set i (some n)) else throw .outOfBounds

/-- `xreallocarray`, where there is enough memory. -/
def xreallocarray (xs : List (Option NodeId)) (n : Nat) : List (Option NodeId) :=
  xs.take n ++ List.replicate (n - xs.length) none

/-- A call of the hash table. -/
def onEntries {α : Type} (m : BucketM NodeId α) : MemM α :=
  Prog.zoom (·.entriesVdir) (fun h c => { c with entriesVdir := h }) m

/-! ## tree.c -/

/-- `create_tree_node`. -/
def createTreeNode (data : Option AgendaEntry) : MemM NodeId := do
  let c ← get
  modify fun c => { c with
    nodes := fun n => if n = c.nextId then some ⟨data, none, [], 0, 0⟩ else c.nodes n
    nextId := c.nextId + 1 }
  pure c.nextId

/-- The array of the children of `add_child`, with room for another one. -/
def grow (t : NodeData) : NodeData :=
  if t.childCount = t.childCapacity then
    let newCapacity := if t.childCapacity ≠ 0 then t.childCapacity * 2 else 4
    { t with children := xreallocarray t.children newCapacity, childCapacity := newCapacity }
  else t

/-- `parent->children[parent->child_count++] = child`, after the array has grown. -/
def pushChild (parent child : NodeId) : MemM Unit := do
  writeNode parent grow
  let t ← deref parent
  let children ← writeArray t.children t.childCount child
  writeNode parent fun t => { t with children := children, childCount := t.childCount + 1 }

/-- `add_child`. -/
def addChild (parent child : NodeId) : MemM Nat := do
  pushChild parent child
  writeNode child fun t => { t with parent := some parent }
  pure 0

/-- `node_has_children`. -/
def nodeHasChildren (node : NodeId) : MemM Bool := do
  pure (0 < (← deref node).childCount)

/-- `free_tree`. The recursion is bounded by the number of allocated nodes. -/
def freeTree : Nat → NodeId → MemM Unit
  | 0, _ => throw .endless
  | fuel + 1, node => do
    let t ← deref node
    (List.range t.childCount).forM fun i => do
      -- The node is read again, although a child has been freed.
      freeTree fuel (← readArray (← deref node).children i)
    let _ ← deref node
    modify fun c => { c with nodes := fun n => if n = node then none else c.nodes n }

/-- The first loop of `detach_tree_node`, with so many children left from `i` on. -/
def findIndex (children : List (Option NodeId)) (node : NodeId) : Nat → Nat → MemM (Option Nat)
  | 0, _ => pure none
  | left + 1, i => do
    if (← readArray children i) = node then pure (some i)
    else findIndex children node left (i + 1)

/-- The second loop of `detach_tree_node`, with so many children left from `i` on. -/
def shift : Nat → Nat → List (Option NodeId) → MemM (List (Option NodeId))
  | 0, _, children => pure children
  | left + 1, i, children => do
    let child ← readArray children i
    shift left (i + 1) (← writeArray children (i - 1) child)

/-- Take a child out of the array of its parent, as `detach_tree_node` does. -/
def removeChild (parent node : NodeId) : MemM Unit := do
  let t ← deref parent
  match ← findIndex t.children node t.childCount 0 with
  -- From the index `(size_t)-1` on, the shift would start at `children[-1]`.
  | none => throw .outOfBounds
  | some index => do
    let children ← shift (t.childCount - (index + 1)) (index + 1) t.children
    writeNode parent fun t => { t with children := children, childCount := t.childCount - 1 }

/-- `detach_tree_node`. -/
def detachTreeNode (node : NodeId) : MemM Bool := do
  match (← deref node).parent with
  | none => pure false
  | some parent => do
    removeChild parent node
    writeNode node fun t => { t with parent := none }
    pure true

/-- `move_node`. -/
def moveNode (newParent child : NodeId) : MemM Nat := do
  let _ ← detachTreeNode child
  addChild newParent child

/-! ## fuse_node_store.c -/

/-- `set_node_filename`. -/
def setNodeFilename (node : NodeId) (filename : CStr) : MemM Unit := do
  let entry ← nonNull (← deref node).data
  writeNode node fun t => { t with data := some { entry with filename := filename } }

/-- `get_fuse_node_from_vdir_name`. -/
def getFuseNodeFromVdirName (vdirName : CStr) : MemM (Option NodeId) :=
  onEntries (hashmapGet vdirName)

/-- `is_root_node`. -/
def isRootNode (node : NodeId) : MemM Bool := do
  pure (← deref node).data.isNone

/-- `get_node_filename`. -/
def getNodeFilename (node : NodeId) : MemM CStr := do
  match (← deref node).data with
  | none => pure []
  | some entry => pure entry.filename

/-- `get_vdir_filepath`, in the directory `vdir`. -/
def getVdirFilepath (vdir : CStr) (node : NodeId) : MemM CStr := do
  let entry ← nonNull (← deref node).data
  pure (appendPath vdir entry.filenameVdir)

/-- `delete_fuse_node`. -/
def deleteFuseNode (node : NodeId) : MemM Unit := do
  let e ← nonNull (← deref node).data
  let _ ← onEntries (hashmapRemove e.filenameVdir)
  let _ ← detachTreeNode node
  freeTree ((← get).nextId + 1) node

/-- `create_fuse_node`. -/
def createFuseNode (entry : AgendaEntry) : MemM NodeId := do
  let newNode ← createTreeNode (some entry)
  let _ ← onEntries (hashmapInsert entry.filenameVdir newNode)
  pure newNode

/-- `upsert_fuse_node`. -/
def upsertFuseNode (entry : AgendaEntry) : MemM NodeId := do
  match ← onEntries (hashmapGet entry.filenameVdir) with
  | some node => do
    setNodeFilename node entry.filename
    pure node
  | none => createFuseNode entry

/-- The inner loop of `add_fuse_child`, with so many siblings left from `i` on. -/
def isUnique (newFilename : CStr) (children : List (Option NodeId)) : Nat → Nat → MemM Bool
  | 0, _ => pure true
  | left + 1, i => do
    if newFilename = (← getNodeFilename (← readArray children i)) then pure false
    else isUnique newFilename children left (i + 1)

/-- The outer loop of `add_fuse_child`. -/
def uniqueFilename (filename : CStr) (children : List (Option NodeId)) (childCount : Nat) :
    Nat → CStr → Nat → MemM CStr
  | 0, _, _ => throw .endless
  | rounds + 1, newFilename, conflictCount => do
    if ← isUnique newFilename children childCount 0 then
      pure newFilename
    else
      uniqueFilename filename children childCount rounds (filenameNumbered filename conflictCount)
        (conflictCount + 1)

/-- `add_fuse_child`. The parent may be a NULL pointer. -/
def addFuseChild (parent : Option NodeId) (child : NodeId) : MemM Nat := do
  let filename ← getNodeFilename child
  let parent ← nonNull parent
  let t ← deref parent
  let newFilename ← uniqueFilename filename t.children t.childCount (t.childCount + 1) filename 1
  setNodeFilename child newFilename
  addChild parent child

/-- `move_fuse_node`. -/
def moveFuseNode (newParent : Option NodeId) (child : NodeId) : MemM Nat := do
  let _ ← detachTreeNode child
  addFuseChild newParent child

/-- The pointers that a loop over the children goes through, with so many left from `i` on. -/
def readChildren (children : List (Option NodeId)) : Nat → Nat → MemM (List NodeId)
  | 0, _ => pure []
  | left + 1, i => do
    let child ← readArray children i
    pure (child :: (← readChildren children left (i + 1)))

/-- The loop of `fuse_readdir` and `calculate_node_size` over the children of a node. -/
def childrenOf (node : NodeId) : MemM (List NodeId) := do
  let t ← deref node
  readChildren t.children t.childCount 0

/-! ## Lookup -/

/-- `get_node_by_uuid`. -/
def getNodeByUuid (targetUuid : CStr) : MemM (Option NodeId) :=
  getFuseNodeFromVdirName (targetUuid ++ bytes ".ics")

/-- The inner loop of `get_node_by_path`, with so many children left from `j` on. -/
def findChild (segment : CStr) (children : List (Option NodeId)) :
    Nat → Nat → MemM (Option NodeId)
  | 0, _ => pure none
  | left + 1, j => do
    let child ← readArray children j
    if (← getNodeFilename child) = segment then pure (some child)
    else findChild segment children left (j + 1)

/-- The outer loop of `get_node_by_path`. -/
def walkSegments (current : NodeId) : List CStr → MemM (Option NodeId)
  | [] => pure (some current)
  | segment :: segments => do
    let t ← deref current
    match ← findChild segment t.children t.childCount 0 with
    | none => pure none
    | some next => walkSegments next segments

/-- `get_node_by_path`. The array of segments has 255 entries. -/
def getNodeByPath (path : CStr) : MemM (Option NodeId) := do
  let root := (← get).fuseRoot
  if path = [slash] then pure (some root)
  else
    let segments := splitPath path
    if 255 < segments.length then throw .outOfBounds
    else walkSegments root segments

/-! ## Start and end -/

/-- The memory after `load_root_node_tree` has made `entries_vdir` and `fuse_root`. -/
def mount : StoreMemory where
  nodes n := if n = 0 then some ⟨none, none, [], 0, 0⟩ else none
  nextId := 1
  fuseRoot := 0
  entriesVdir := hashmapNew false

/-- The end of `main`: `hashmap_free(entries_vdir)` and `free_tree(fuse_root)`. -/
def cleanUp : MemM Unit := do
  onEntries hashmapFree
  let c ← get
  freeTree (c.nextId + 1) c.fuseRoot

end Mem

end Agendafs
