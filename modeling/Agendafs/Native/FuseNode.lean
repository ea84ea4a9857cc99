import Agendafs.Native.FuseNodeStore
import Agendafs.Native.IcalExtra

/-!
# fuse_node.c

Notes as nodes of the tree with a file in VDIR: lookup by path, reading and
writing the file of a node, the initial load, and what the FUSE operations and
the inotify handler do to tree, index and files.

The outcome of each system call is part of the state, so that a theorem about
every state is about every failure: `writes` and `removes` list what the next
calls give (success when the list is used up).
-/

namespace Agendafs

open Icalcomponent

/-! ## The state of the program and of VDIR -/

/-- A regular file, and whether it can be opened for reading. -/
structure File (Text : Type) where
  content : Text
  readable : Bool := true

/-- The outcome of opening a file for writing and writing to it. A failed write
    leaves some other content behind. -/
inductive WriteOutcome (Text : Type)
  | written
  | openFailed
  | writeFailed (left : Text)

/-- What the coming library and system calls return. -/
structure Environment (Text : Type) where
  /-- `uuid_unparse`. -/
  uuid : CStr := []
  /-- The readings of the clock. -/
  clock : List CStr := []
  /-- The outcomes of the files opened for writing. -/
  writes : List (WriteOutcome Text) := []
  /-- Which calls of `remove` succeed. -/
  removes : List Bool := []

/-- The state: the tree, the files by their path, and the coming system calls. -/
structure World (Text : Type) where
  store : Store
  files : CStr → Option (File Text)
  env : Environment Text

/-- What is fixed while the program runs: libical, `VDIR` and `FILE_EXTENSION`. -/
structure Config (Text : Type) where
  ical : Libical Text
  vdir : CStr
  fileExtension : CStr

/-- Programs on tree and files. -/
abbrev FsM (Text : Type) := Prog Crash (World Text)

/-! ## Status values -/

def EPERM : Int := 1
def ENOENT : Int := 2
def EIO : Int := 5
def ENOMEM : Int := 12
def EEXIST : Int := 17
def ENOTDIR : Int := 20
def EISDIR : Int := 21
def EINVAL : Int := 22
def ERANGE : Int := 34
def ENOTEMPTY : Int := 39
def ENODATA : Int := 61
def ENONET : Int := 64
def EMSGSIZE : Int := 90

/-- An `int` converted to `size_t`. -/
def sizeOfInt (i : Int) : Nat := (i % 2 ^ 64).toNat

/-- A `size_t` converted to `int`. -/
def intOfSize (n : Nat) : Int := Int.bmod n (2 ^ 32)

section

variable {Text : Type} (cfg : Config Text)

/-- Run a program on the tree. -/
def onStore {α : Type} (m : StoreM α) : FsM Text α :=
  Prog.zoom World.store (fun s w => { w with store := s }) m

/-! ## Lookup -/

/-- `get_node_by_uuid`: the files are called `uid.ics`. -/
def getNodeByUuid (targetUuid : CStr) : StoreM (Option NodeId) :=
  getFuseNodeFromVdirName (targetUuid ++ bytes ".ics")

/-- The loop of `get_node_by_path` over the children of one node. -/
def findChild (segment : CStr) : List NodeId → StoreM (Option NodeId)
  | [] => pure none
  | child :: children => do
    if (← getNodeFilename child) = segment then pure (some child)
    else findChild segment children

/-- The loop of `get_node_by_path` over the segments. -/
def walkSegments (current : NodeId) : List CStr → StoreM (Option NodeId)
  | [] => pure (some current)
  | segment :: segments => do
    match ← findChild segment (← deref current).children with
    | none => pure none
    | some next => walkSegments next segments

/-- `get_node_by_path`. The array of segments has 255 entries. -/
def getNodeByPath (path : CStr) : StoreM (Option NodeId) := do
  let root := (← get).fuseRoot
  if path = [slash] then pure (some root)
  else
    let segments := splitPath path
    if 255 < segments.length then throw .segmentsOverflow
    else walkSegments root segments

/-! ## Files -/

/-- `parse_ics_file`. Reading from a file that could not be opened dereferences NULL. -/
def parseIcsFile (filename : CStr) : FsM Text (Option Icalcomponent) := do
  match (← get).files filename with
  | none => throw .assertFailed
  | some file =>
    if file.readable then pure (cfg.ical.newFromString file.content)
    else throw .nullDereference

/-- `get_icalcomponent_from_node`: NULL for the root and for a file that does not parse. -/
def getIcalcomponentFromNode (n : NodeId) : FsM Text (Option Icalcomponent) := do
  if ← onStore (isRootNode n) then pure none
  else
    let origPath ← onStore (getVdirFilepath cfg.vdir n)
    parseIcsFile cfg origPath

/-- `node_is_directory`. -/
def nodeIsDirectory (node : NodeId) (nodeIcs : Option Icalcomponent) : FsM Text Bool := do
  if (← onStore (isRootNode node)) || (← onStore (nodeHasChildren node)) then pure true
  -- libical finds nothing in a NULL component, so a note that does not parse is no directory.
  else pure (nodeIcs.any (isDirectoryComponent cfg.ical))

/-- `get_ical_now`. -/
def getIcalNow : FsM Text CStr := do
  let w ← get
  match w.env.clock with
  | [] => pure []
  | now :: clock => do
    modify fun w => { w with env := { w.env with clock := clock } }
    pure now

/-- The files after `content` has been written to `filepath`. -/
def writtenFiles (files : CStr → Option (File Text)) (filepath : CStr) (content : Text) :
    CStr → Option (File Text) := fun f =>
  if f = filepath then some { content := content, readable := (files filepath).all (·.readable) }
  else files f

/-- `write_to_file`. A failing `fputs` or `fclose` is not noticed. -/
def writeToFile (filepath : CStr) (content : Text) : FsM Text Nat := do
  let w ← get
  let outcome := w.env.writes.head?.getD .written
  let env := { w.env with writes := w.env.writes.tail }
  match outcome with
  -- `-EIO` goes through the `size_t` that the function returns.
  | .openFailed => do
    modify fun w => { w with env := env }
    pure (sizeOfInt (- EIO))
  | .writeFailed left => do
    modify fun w => { w with env := env, files := writtenFiles w.files filepath left }
    pure 0
  | .written => do
    modify fun w => { w with env := env, files := writtenFiles w.files filepath content }
    pure 0

/-- `remove`. -/
def removeFile (filepath : CStr) : FsM Text Int := do
  let w ← get
  let succeeds := w.env.removes.head?.getD true
  modify fun w => { w with env := { w.env with removes := w.env.removes.tail } }
  if succeeds && (w.files filepath).isSome then do
    modify fun w => { w with files := fun f => if f = filepath then none else w.files f }
    pure 0
  else pure (-1)

/-- The edits of `write_ical_file`: the time of writing, and no empty description. -/
def stamp (now : CStr) (ic : Icalcomponent) : Icalcomponent :=
  -- LAST-MODIFIED is a property of `ic` itself, the description one of its inner component.
  (ic.setFirstProperty .lastModified now).modifyInner fun inner =>
    if (inner.getFirstProperty .description).any (·.value = []) then
      inner.removeFirst (·.kind = .description)
    else inner

/-- `write_ical_file`. Returns the status and the component as edited. -/
def writeIcalFile (node : NodeId) (ic : Icalcomponent) : FsM Text (Nat × Icalcomponent) := do
  let now ← getIcalNow
  let ic := stamp now ic
  let filepath ← onStore (getVdirFilepath cfg.vdir node)
  let res ← writeToFile filepath (cfg.ical.asIcalString ic)
  pure (sizeOfInt (intOfSize res), ic)

/-- `write_to_file` without content: `fputs` dereferences NULL once the file is open. -/
def writeNullToFile (_filepath : CStr) : FsM Text Nat := do
  let w ← get
  match w.env.writes.head?.getD .written with
  | .openFailed => do
    modify fun w => { w with env := { w.env with writes := w.env.writes.tail } }
    pure (sizeOfInt (- EIO))
  | _ => throw .nullDereference

/-- `write_ical_file` for a NULL component, which libical neither edits nor prints. -/
def writeNullIcalFile (node : NodeId) : FsM Text Nat := do
  let _ ← getIcalNow
  let filepath ← onStore (getVdirFilepath cfg.vdir node)
  let res ← writeNullToFile filepath
  pure (sizeOfInt (intOfSize res))

/-- `write_parent_child_components`. -/
def writeParentChildComponents (iparent : Icalcomponent) (child : NodeId)
    (ichild : Icalcomponent) : FsM Text Int := do
  let (res, _) ← writeIcalFile cfg child (setParentChildRelationshipToComponent iparent ichild)
  pure (intOfSize res)

/-- The edit of `update_summary`. -/
def updatedSummary (filename : CStr) (ics : Icalcomponent) : Icalcomponent :=
  if isDirectoryComponent cfg.ical ics then ics.setSummary filename
  else ics.setSummary (withoutFileExtension filename)

/-- `update_summary`. -/
def updateSummary (ics : Icalcomponent) (node : NodeId) : FsM Text Icalcomponent := do
  let filename ← onStore (getNodeFilename node)
  let (_, ics) ← writeIcalFile cfg node (updatedSummary cfg filename ics)
  pure ics

/-- `update_node_file_extension`. -/
def updateNodeFileExtension (ics : Icalcomponent) (node : NodeId) : FsM Text Icalcomponent := do
  let filename ← onStore (getNodeFilename node)
  match getFileExtension filename with
  | none => pure ics
  | some ext => do
    let (_, ics) ← writeIcalFile cfg node (icalcomponentSetFileExtension ics ext)
    pure ics

/-! ## Notes of VDIR -/

/-- The name a note is shown under: the summary of a directory, the summary and
    the extension of a file. -/
def shownFilename (component : Icalcomponent) (summary : CStr) : CStr :=
  if isDirectoryComponent cfg.ical component then summary
  else
    let extension := (icalcomponentGetFileExtension cfg.ical component).getD cfg.fileExtension
    if extension = [] then summary else summary ++ dot :: extension

/-- The entry `parse_ics_to_agenda_entry` makes of a component. -/
def agendaEntryOf (vdirFilepath : CStr) (component : Icalcomponent) : Option AgendaEntry :=
  match component.getFirstRealComponent with
  | none => none
  | some journal =>
    if journal.kind ≠ .vjournal then none
    else match component.getSummary with
      | none => none
      | some summary => some ⟨shownFilename cfg component summary, getFilename vdirFilepath⟩

/-- `parse_ics_to_agenda_entry`. -/
def parseIcsToAgendaEntry (vdirFilepath : CStr) : FsM Text (Option AgendaEntry) := do
  let component ← parseIcsFile cfg vdirFilepath
  pure (component.bind (agendaEntryOf cfg vdirFilepath))

/-- `load_agenda_entry_from_ics_file`. -/
def loadAgendaEntryFromIcsFile (filename : CStr) : FsM Text (Option AgendaEntry) := do
  let filepath := appendPath cfg.vdir filename
  if ((← get).files filepath).isNone then pure none
  else parseIcsToAgendaEntry cfg filepath

/-- Mark the file of a parent as a directory, if it is not one yet. -/
def markParent (parent : NodeId) (pic : Option Icalcomponent) : FsM Text Unit := do
  if pic.any (isDirectoryComponent cfg.ical) then pure ()
  else match pic with
    | none => throw .assertFailed
    | some pic => do
      let (res, _) ← writeIcalFile cfg parent (icalcomponentMarkAsDirectory pic)
      -- `assert(write_ical_file(ar, parent, pic) == 0)`
      if res = 0 then pure () else throw .assertFailed

/-- `d_type` of a directory entry. -/
inductive DType
  | reg | unknown | other
deriving DecidableEq

/-- `struct dirent`. -/
structure Dirent where
  dName : CStr
  dType : DType

/-- The body of the first loop of `load_root_node_tree`. -/
def loadDirent (entry : Dirent) : FsM Text Unit := do
  if entry.dType = .reg && strstr (bytes ".ics") entry.dName then
    match ← loadAgendaEntryFromIcsFile cfg entry.dName with
    | some newEntry => do
      let _ ← onStore (createFuseNode newEntry)
    | none => pure ()
  else pure ()

/-- The body of the second loop of `load_root_node_tree`. -/
def attachLoaded (vdirname : CStr) : FsM Text Unit := do
  let child ← onStore (do nonNull (← getFuseNodeFromVdirName vdirname))
  let ic ← getIcalcomponentFromNode cfg child
  match ic.bind (getParentUid cfg.ical) with
  | some parentUid => do
    match ← onStore (getNodeByUuid parentUid) with
    | some parent => do
      let pic ← getIcalcomponentFromNode cfg parent
      markParent cfg parent pic
      let _ ← onStore (moveFuseNode (some parent) child)
    -- The parent is not in the index: the child stays without one.
    | none => pure ()
  | none => do
    let root := (← get).store.fuseRoot
    let _ ← onStore (addFuseChild (some root) child)

/-- `load_root_node_tree`, for what `readdir` lists (`none` when `opendir` fails). -/
def loadRootNodeTree (listing : Option (List Dirent)) : FsM Text Unit := do
  modify fun w => { w with store := { w.store with entriesVdir := Hashmap.new } }
  let root ← onStore (createTreeNode none)
  modify fun w => { w with store := { w.store with fuseRoot := root } }
  match listing with
  | none => pure ()
  | some entries => do
    entries.forM (loadDirent cfg)
    -- The second loop follows the order of the buckets, not of the listing.
    let keys := (← get).store.entriesVdir.getKeys
    keys.forM (attachLoaded cfg)

/-! ## Attributes -/

/-- The setters that leave a node without component alone. -/
def editNode (node : NodeId) (edit : Icalcomponent → Icalcomponent) : FsM Text Int := do
  match ← getIcalcomponentFromNode cfg node with
  | none => pure 0
  | some component => do
    let (res, _) ← writeIcalFile cfg node (edit component)
    pure (intOfSize res)

/-- The setters that assert that the node has a component. -/
def editNodeAsserted (node : NodeId) (edit : Icalcomponent → Icalcomponent) : FsM Text Int := do
  match ← getIcalcomponentFromNode cfg node with
  | none => throw .assertFailed
  | some component => do
    let (res, _) ← writeIcalFile cfg node (edit component)
    pure (intOfSize res)

/-- The setters that do not look whether the node has a component, and hand NULL on to
    `write_ical_file`. -/
def editNodeUnchecked (node : NodeId) (edit : Icalcomponent → Icalcomponent) :
    FsM Text Int := do
  match ← getIcalcomponentFromNode cfg node with
  | none => do
    let res ← writeNullIcalFile cfg node
    pure (intOfSize res)
  | some component => do
    let (res, _) ← writeIcalFile cfg node (edit component)
    pure (intOfSize res)

/-- `set_dtstart`. -/
def setDtstart (dtstart : CStr) (node : NodeId) : FsM Text Int := do
  match cfg.ical.timeFromString dtstart with
  | none => pure (-EINVAL)
  | some time => editNodeUnchecked cfg node (·.setDtstart time)

/-- `get_dtstart`. libical finds the null time in a NULL component. -/
def getDtstart (n : NodeId) : FsM Text (Option CStr) := do
  let comp ← getIcalcomponentFromNode cfg n
  pure ((comp.bind (·.getText .dtstart)).bind cfg.ical.timeFromString)

/-- `clear_dtstart`. The property is looked for in the calendar itself. -/
def clearDtstart (node : NodeId) : FsM Text Int :=
  editNodeUnchecked cfg node (·.removeFirst (·.kind = .dtstart))

/-- The texts of the categories, with commas in between. -/
def joinCategories (properties : List Icalproperty) : CStr :=
  [(44 : UInt8)].intercalate ((properties.filter (·.kind = .categories)).map (·.value))

/-- `get_node_categories`. libical finds no property in a NULL component. -/
def getNodeCategories (node : NodeId) : FsM Text (Option CStr) := do
  match ← getIcalcomponentFromNode cfg node with
  | none => pure none
  | some component => pure (some (joinCategories (component.getInner.elim [] (·.properties))))

/-- The edit of `set_node_categories`: the categories are replaced. -/
def withCategories (newCategories : List UInt8) (s : Nat) (component : Icalcomponent) :
    Icalcomponent :=
  component.modifyInner fun inner =>
    let inner := { inner with properties := inner.properties.filter (·.kind ≠ .categories) }
    if s = 0 then inner
    else inner.addProperty { kind := .categories, value := cString (newCategories.take s) }

/-- `set_node_categories`. -/
def setNodeCategories (node : NodeId) (newCategories : List UInt8) (s : Nat) : FsM Text Int :=
  editNode cfg node (withCategories newCategories s)

/-- `get_node_class`. -/
def getNodeClass (node : NodeId) : FsM Text (Option CStr) := do
  match ← getIcalcomponentFromNode cfg node with
  | none => pure none
  | some component =>
    let classp := component.getInner.bind (·.getFirstProperty .classification)
    pure (classp.bind fun classp => formatIcalClass (icalpropertyGetClass classp))

/-- `get_node_status`. -/
def getNodeStatus (node : NodeId) : FsM Text (Option CStr) := do
  match ← getIcalcomponentFromNode cfg node with
  | none => pure none
  | some component =>
    let statusp := component.getInner.bind (·.getFirstProperty .status)
    pure (statusp.bind fun statusp => formatIcalStatus (icalpropertyGetStatus statusp))

/-- `delete_node_class`. -/
def deleteNodeClass (node : NodeId) : FsM Text Int :=
  editNode cfg node (·.modifyInner (·.removeFirst (·.kind = .classification)))

/-- `set_node_class`. libical sets nothing on a NULL property. -/
def setNodeClass (node : NodeId) (newClass : IcalClass) : FsM Text Int :=
  editNode cfg node (·.modifyInner (setExistingProperty .classification newClass.text))

/-- `set_node_status`. -/
def setNodeStatus (node : NodeId) (newStatus : IcalStatus) : FsM Text Int :=
  editNode cfg node (·.setStatus newStatus.text)

/-! ## Status of a node -/

/-- `calculate_node_size`. The recursion is bounded by the number of allocated nodes. -/
def calculateNodeSize : Nat → NodeId → Option Icalcomponent → FsM Text Nat
  | 0, _, _ => throw .endless
  | fuel + 1, node, nodeComponent => do
    if ← nodeIsDirectory cfg node nodeComponent then do
      let children := (← onStore (deref node)).children
      let sizes ← children.mapM fun child => do
        let cic ← getIcalcomponentFromNode cfg child
        calculateNodeSize fuel child cic
      pure (sizes.sum % 2 ^ 64)
    else pure (icalcomponentGetDescriptionSize nodeComponent)

/-- `struct stat`, as far as the program sets its fields. -/
structure Stat where
  stMode : Nat
  stNlink : Nat
  stSize : Int
deriving DecidableEq

/-- `get_node_stat`. `stat` fails, and with it an assertion, when the file is gone. -/
def getNodeStat (node : NodeId) (nodeComponent : Option Icalcomponent) : FsM Text Stat := do
  if ← onStore (isRootNode node) then pure ⟨0, 0, 0⟩
  else
    let vdirPath ← onStore (getVdirFilepath cfg.vdir node)
    if ((← get).files vdirPath).isNone then throw .assertFailed
    else if ← nodeIsDirectory cfg node nodeComponent then do
      let fuel := (← get).store.nextId + 1
      let stSize ← calculateNodeSize cfg fuel node nodeComponent
      -- `S_IFDIR | 0444`, and `S_IFREG | 0774` below; `off_t` is signed.
      pure ⟨0o040444, 2, Int.bmod stSize (2 ^ 64)⟩
    else pure ⟨0o100774, 1, Int.bmod (icalcomponentGetDescriptionSize nodeComponent) (2 ^ 64)⟩

/-! ## Create, move and delete -/

/-- `insert_fuse_node_to_path`. -/
def insertFuseNodeToPath (fusePath : CStr) (childNode : NodeId) (childIcs : Icalcomponent) :
    FsM Text Int := do
  let parentPath ← onStore (nonNull (getParentPath fusePath))
  match ← onStore (getNodeByPath parentPath) with
  | none => pure (-ENOENT)
  | some parentNode => do
    let parentIcs ← getIcalcomponentFromNode cfg parentNode
    if ← nodeIsDirectory cfg parentNode parentIcs then do
      let status ← match parentIcs with
        | some parentIcs => writeParentChildComponents cfg parentIcs childNode childIcs
        -- Below the root the status of the write is not looked at.
        | none => do
          let _ ← writeIcalFile cfg childNode childIcs
          pure 0
      -- The child is attached whatever the status is.
      let _ ← onStore (addChild parentNode childNode)
      pure status
    else pure (-ENOTDIR)

/-- `enum ENTRY_TYPE`. -/
inductive EntryType
  | directory | file
deriving DecidableEq

/-- The component of a new entry. -/
def newComponent (etype : EntryType) (id dtstamp filename : CStr) : Icalcomponent :=
  match etype with
  | .directory => createVjournalDirectory id dtstamp filename
  | .file => createVjournalEntry id dtstamp filename

/-- `create_entry_from_fuse`. -/
def createEntryFromFuse (fusePath : CStr) (etype : EntryType) : FsM Text Int := do
  if !startsWithStr fusePath [slash] then pure (-EINVAL)
  else
    let newFilename := getFilename fusePath
    let id := createNewUniqueIcsUid (← get).env.uuid
    let dtstamp ← getIcalNow
    let newComponent := newComponent etype id dtstamp newFilename
    let newFilenameVdir := id ++ bytes ".ics"
    -- The node is in the index before its parent is looked for.
    let newNode ← onStore (createFuseNode ⟨newFilename, newFilenameVdir⟩)
    insertFuseNodeToPath cfg fusePath newNode newComponent

/-- `update_or_create_fuse_entry_from_vdir`. The new parent may be a NULL pointer. -/
def updateOrCreateFuseEntryFromVdir (filepathVdir : CStr) : FsM Text Int := do
  let filenameVdir := getFilename filepathVdir
  match ← loadAgendaEntryFromIcsFile cfg filenameVdir with
  | none => pure (- EIO)
  | some updatedEntry => do
    let node ← onStore (upsertFuseNode updatedEntry)
    let entryIcs ← getIcalcomponentFromNode cfg node
    match entryIcs.bind (getParentUid cfg.ical) with
    | some newParentUid => do
      let newParent ← onStore (getNodeByUuid newParentUid)
      -- There is no test for NULL here, and none before the parent is read below.
      let _ ← onStore (moveFuseNode newParent node)
      let newParent ← onStore (nonNull newParent)
      let pic ← getIcalcomponentFromNode cfg newParent
      markParent cfg newParent pic
      pure 0
    | none => do
      let root := (← get).store.fuseRoot
      let _ ← onStore (moveFuseNode (some root) node)
      pure 0

/-- `do_agenda_rename`. -/
def doAgendaRename (old new : CStr) : FsM Text Int := do
  let newFilename := getFilename new
  let newParentPath ← onStore (nonNull (getParentPath new))
  match ← onStore (getNodeByPath newParentPath) with
  | none => pure (-EINVAL)
  | some newParentNode => do
    match ← onStore (getNodeByPath old) with
    | none => throw .assertFailed
    | some childNode => do
      match ← getIcalcomponentFromNode cfg childNode with
      | none => throw .assertFailed
      | some childIcs => do
        let newParentIcs ← getIcalcomponentFromNode cfg newParentNode
        -- The test of `old_parent_node` in the source comes after its first use here.
        let oldParentNode ← onStore (do nonNull (← deref childNode).parent)
        let oldParentIcs ← getIcalcomponentFromNode cfg oldParentNode
        onStore (setNodeFilename childNode newFilename)
        let childIcs ← updateSummary cfg childIcs childNode
        let childIcs ← updateNodeFileExtension cfg childIcs childNode
        let childIcs ← match oldParentIcs with
          | some oldParentIcs =>
            match removeParentChildRelationshipFromComponent oldParentIcs childIcs with
            | .ok childIcs => pure childIcs
            | .error e => throw e
          | none => pure childIcs
        -- Only the branch with a component writes the file after this edit.
        match newParentIcs with
        | some newParentIcs => do
          let _ ← onStore (moveNode newParentNode childNode)
          let _ ← writeParentChildComponents cfg newParentIcs childNode childIcs
          pure 0
        | none => do
          let root := (← get).store.fuseRoot
          let _ ← onStore (moveNode root childNode)
          pure 0

/-- `delete_vdir_entry`. -/
def deleteVdirEntry (node : NodeId) : FsM Text Int := do
  let filepathOriginal ← onStore (getVdirFilepath cfg.vdir node)
  let res ← removeFile filepathOriginal
  if res = -1 then pure (- EIO)
  else do
    onStore (deleteFuseNode node)
    pure res

/-- `delete_from_vdir_path`. The path is looked up as if it were a UID. -/
def deleteFromVdirPath (filepath : CStr) : FsM Text Int := do
  match ← onStore (getNodeByUuid filepath) with
  | none => pure (-ENOENT)
  | some node => do
    -- `assert(node->child_count > 0)`
    if ← onStore (nodeHasChildren node) then do
      onStore (deleteFuseNode node)
      pure 0
    else throw .assertFailed

end

end Agendafs
