import Agendafs.Native.FuseNode

/-!
# main.c

The FUSE operations, the handler of inotify events, and `exec`, which runs any one
of the calls that change something. The lock `entries_lock` is held over each of
them, so the program's runs are sequences of whole calls.
-/

namespace Agendafs

section

variable {Text : Type} (cfg : Config Text)

/-! ## FUSE operations -/

/-- The common body of `fuse_create` and `fuse_mkdir`. -/
def createNew (filepath : CStr) (etype : EntryType) : FsM Text Int := do
  if pathIsHidden filepath then pure (-EPERM)
  else
    match ← onStore (getNodeByPath filepath) with
    | some _ => pure (-EEXIST)
    | none => createEntryFromFuse cfg filepath etype

/-- `fuse_create`. -/
def fuseCreate (filepath : CStr) : FsM Text Int := createNew cfg filepath .file

/-- `fuse_mkdir`. -/
def fuseMkdir (filepath : CStr) : FsM Text Int := createNew cfg filepath .directory

/-- `fuse_write`. `write_ical_file` returns a `size_t`, so its result passes the
    test `>= 0` also when it holds `- EIO`. -/
def fuseWrite (path : CStr) (buf : List UInt8) (size offset : Nat) : FsM Text Int := do
  if pathIsHidden path then pure (-EPERM)
  else
    match ← onStore (getNodeByPath path) with
    | none => pure (-ENONET)
    | some node => do
      match ← getIcalcomponentFromNode cfg node with
      | none => throw .assertFailed
      | some ic => do
        let (res, _) ← writeIcalFile cfg node (icalcomponentInsertDescription ic buf size offset)
        pure (if 0 ≤ res then intOfSize size else 0)

/-- `fuse_read`: the status and the bytes put into the buffer. -/
def fuseRead (path : CStr) (size offset : Nat) : FsM Text (Int × List UInt8) := do
  match ← onStore (getNodeByPath path) with
  | none => pure (-ENOENT, [])
  | some n => do
    match ← getIcalcomponentFromNode cfg n with
    | none => pure (- EIO, [])
    | some ic =>
      match ic.getDescription with
      | none => pure (0, [])
      | some description =>
        let contentLen := description.length
        if contentLen ≤ offset then pure (0, [])
        else
          let bytesToRead := min (contentLen - offset) size
          -- The status is an `int`.
          pure (intOfSize bytesToRead, (description.drop offset).take bytesToRead)

/-- What `filler` is called with. -/
structure FillerCall where
  name : CStr
  stbuf : Option Stat
deriving DecidableEq

/-- The loop of `fuse_readdir`; `full` says whether the last of these calls of `filler` fails. -/
def fillChildren (full : List FillerCall → Bool) (node : NodeId) :
    List NodeId → List FillerCall → FsM Text (Int × List FillerCall)
  | [], handed => pure (0, handed)
  | child :: children, handed => do
    match ← getIcalcomponentFromNode cfg child with
    | none => throw .assertFailed
    | some ic => do
      -- The status is that of the directory, not of the child.
      let st ← getNodeStat cfg node (some ic)
      let name ← onStore (getNodeFilename child)
      let handed := handed ++ [⟨name, some st⟩]
      if full handed then pure (-ENOMEM, handed) else fillChildren full node children handed

/-- `fuse_readdir`: the status and the calls of `filler`, in their order. -/
def fuseReaddir (full : List FillerCall → Bool) (path : CStr) :
    FsM Text (Int × List FillerCall) := do
  let handed := [⟨bytes ".", none⟩, ⟨bytes "..", none⟩]
  match ← onStore (getNodeByPath path) with
  | none => pure (-ENOENT, handed)
  | some node => do
    let children := (← onStore (deref node)).children
    fillChildren cfg full node children handed

/-- `fuse_getattr`: the status and the `struct stat` it leaves. -/
def fuseGetattr (path : CStr) : FsM Text (Int × Stat) := do
  if path = [slash] then pure (0, ⟨0o040444, 2, 0⟩)
  else
    match ← onStore (getNodeByPath path) with
    | none => pure (-ENOENT, ⟨0, 0, 0⟩)
    | some node => do
      let ic ← getIcalcomponentFromNode cfg node
      let st ← getNodeStat cfg node ic
      pure (0, st)

/-- `fuse_open`. -/
def fuseOpen (path : CStr) : FsM Text Int := do
  match ← onStore (getNodeByPath path) with
  | none => pure (-ENOENT)
  | some _ => pure 0

/-- `fuse_readlink`. There are no links. -/
def fuseReadlink (_path : CStr) : FsM Text Int := pure (-ENOENT)

/-- `fuse_utimens`. The times are not kept. -/
def fuseUtimens (_path : CStr) : FsM Text Int := pure 0

/-- `fuse_unlink`. -/
def fuseUnlink (file : CStr) : FsM Text Int := do
  match ← onStore (getNodeByPath file) with
  | none => pure (-ENOENT)
  | some node => do
    let nodeIcs ← getIcalcomponentFromNode cfg node
    if ← nodeIsDirectory cfg node nodeIcs then pure (-EISDIR)
    else deleteVdirEntry cfg node

/-- `fuse_rmdir`. -/
def fuseRmdir (filepath : CStr) : FsM Text Int := do
  match ← onStore (getNodeByPath filepath) with
  | none => pure (-ENOENT)
  | some node => do
    let nodeIcs ← getIcalcomponentFromNode cfg node
    if ← nodeIsDirectory cfg node nodeIcs then
      if ← onStore (nodeHasChildren node) then pure (-ENOTEMPTY)
      else deleteVdirEntry cfg node
    else pure (-ENOTDIR)

/-- `fuse_rename`. The flags are not looked at. -/
def fuseRename (old new : CStr) (_flags : Nat) : FsM Text Int := do
  match ← onStore (getNodeByPath new) with
  | none => doAgendaRename cfg old new
  | some existingNode => do
    if ← onStore (nodeHasChildren existingNode) then pure (-ENOTEMPTY)
    -- The note in the way is gone before the one that replaces it is looked up.
    else if (← deleteVdirEntry cfg existingNode) ≠ 0 then pure (- EIO)
    else doAgendaRename cfg old new

/-- `fuse_removexattr`. -/
def fuseRemovexattr (path attrib : CStr) : FsM Text Int := do
  match ← onStore (getNodeByPath path) with
  | none => pure (-ENONET)
  | some node =>
    if attrib = bytes "user.categories" then setNodeCategories cfg node [] 0
    else if attrib = bytes "user.class" then deleteNodeClass cfg node
    else if attrib = bytes "user.status" then pure (-EPERM)
    else if attrib = bytes "user.dtstart" then clearDtstart cfg node
    else if startsWithStr attrib (bytes "user.") then
      editNodeAsserted cfg node (icalcomponentRemoveCustomProp · (attrib.drop 5))
    else pure (-EINVAL)

/-- `fuse_setxattr`. `value` is the memory from the pointer on, `s` the size it
    is passed with. -/
def fuseSetxattr (path attrib : CStr) (value : List UInt8) (s : Nat) (_flags : Nat) :
    FsM Text Int := do
  if 256 ≤ attrib.length then pure (-EMSGSIZE)
  else if 64 * 1024 ≤ (cString value).length then pure (-EMSGSIZE)
  else
    match ← onStore (getNodeByPath path) with
    | none => pure (-ENONET)
    | some node =>
      if attrib = bytes "user.uid" then pure (-EPERM)
      else if attrib = bytes "user.sibling" then pure (-EPERM)
      else if attrib = bytes "user.dtstart" then
        if cString value = [] then clearDtstart cfg node
        else setDtstart cfg (cString value) node
      else if attrib = bytes "user.categories" then setNodeCategories cfg node value s
      else if attrib = bytes "user.class" then
        let iclass := parseIcalClass (cString value)
        if iclass = .none then pure (-EINVAL) else setNodeClass cfg node iclass
      else if attrib = bytes "user.status" then
        -- The test never succeeds, since `parse_ical_status` has no such result.
        let istatus := parseIcalStatus (cString value)
        if istatus = .none then pure (-EINVAL) else setNodeStatus cfg node istatus
      else if startsWithStr attrib (bytes "user.") then
        editNodeAsserted cfg node
          (icalcomponentSetCustomXValue · (attrib.drop 5) (cString value))
      else pure (-EINVAL)

/-- What `fuse_listxattr` does with the caller's memory. -/
structure ListedXattrs where
  status : Int
  /-- The memory from `list` on, afterwards. -/
  list : List UInt8
  /-- The length given to `memcpy`, 0 when it is not called. -/
  copied : Nat
deriving DecidableEq

/-- The names that `fuse_listxattr` prints for one built-in attribute. -/
def printName (name : CStr) (present : Bool) : List UInt8 := if present then name ++ [0] else []

/-- `fuse_listxattr`. `list` is the memory from the pointer on, `behind` the memory that
    follows the bytes on the stream. -/
def fuseListxattr (path : CStr) (list : List UInt8) (size : Nat) (behind : List UInt8) :
    FsM Text ListedXattrs := do
  match ← onStore (getNodeByPath path) with
  | none => pure ⟨-ENONET, list, 0⟩
  | some node => do
    if ← onStore (isRootNode node) then pure ⟨-EPERM, list, 0⟩
    else
      match ← getIcalcomponentFromNode cfg node with
      | none => throw .assertFailed
      | some comp => do
        let cats ← getNodeCategories cfg node
        let dtstart ← getDtstart cfg node
        let iclass ← getNodeClass cfg node
        let istatus ← getNodeStatus cfg node
        let stream :=
          printName (bytes "user.categories") (cats.any (· ≠ [])) ++
          printName (bytes "user.dtstart") dtstart.isSome ++
          printName (bytes "user.uid") true ++
          printName (bytes "user.class") (iclass.any (· ≠ [])) ++
          printName (bytes "user.status") (istatus.any (· ≠ [])) ++
          icalcomponentPrintXProps comp
        -- The longer of the two lengths is copied.
        let copied := if size = 0 then 0 else if size < stream.length then stream.length else size
        pure ⟨intOfSize stream.length, memcpy list (stream ++ behind) copied, copied⟩

/-- How each branch of `fuse_getxattr` hands its value over: nothing is written for the
    size 0, which asks for the length. -/
def handValue (value : CStr) (buf : List UInt8) (s : Nat) : Int × List UInt8 :=
  let stringLen := intOfSize value.length
  (stringLen, if 0 < s then snprintf buf s value else buf)

/-- `fuse_getxattr`: the status, and the memory from `buf` on, afterwards. -/
def fuseGetxattr (path attrib : CStr) (buf : List UInt8) (s : Nat) :
    FsM Text (Int × List UInt8) := do
  match ← onStore (getNodeByPath path) with
  | none => pure (-ENONET, buf)
  | some node =>
    if attrib = bytes "user.categories" then do
      match ← getNodeCategories cfg node with
      | none => pure (-ENODATA, buf)
      | some cats => pure (if cats = [] then (-ENODATA, buf) else handValue cats buf s)
    else if attrib = bytes "user.uid" then do
      let ic ← getIcalcomponentFromNode cfg node
      match ic.bind (·.getUid) with
      | none => throw .assertFailed
      | some uid => pure (handValue uid buf s)
    else if attrib = bytes "user.class" then do
      match ← getNodeClass cfg node with
      | none => pure (-ENODATA, buf)
      | some c => pure (if c = [] then (-ENODATA, buf) else handValue c buf s)
    else if attrib = bytes "user.status" then do
      match ← getNodeStatus cfg node with
      | none => pure (-ENODATA, buf)
      | some c => pure (if c = [] then (-ENODATA, buf) else handValue c buf s)
    else if attrib = bytes "user.dtstart" then do
      match ← getDtstart cfg node with
      | none => pure (-ENODATA, buf)
      | some res => pure (handValue res buf s)
    else if startsWithStr attrib (bytes "user.") then do
      let ic ← getIcalcomponentFromNode cfg node
      match ic.bind (icalcomponentGetCustomXValue cfg.ical · (attrib.drop 5)) with
      | none => pure (-ENODATA, buf)
      | some value => pure (handValue value buf s)
    else pure (-ENODATA, buf)

/-! ## inotify events -/

/-- The bit of a written file. -/
def IN_MODIFY : UInt32 := 0x2

/-- The bit of a created file. -/
def IN_CREATE : UInt32 := 0x100

/-- The bit of a deleted file. -/
def IN_DELETE : UInt32 := 0x200

/-- `struct inotify_event`. Its `len` is zero when there is no name. -/
structure InotifyEvent where
  mask : UInt32
  name : CStr

/-- `handle_vdir_event`. -/
def handleVdirEvent (event : InotifyEvent) : FsM Text Unit := do
  if event.name = [] || !strstr (bytes ".ics") event.name then pure ()
  else
    let fullPath := appendPath cfg.vdir event.name
    if event.mask &&& IN_DELETE ≠ 0 then do
      let _ ← deleteFromVdirPath fullPath
    -- Several bits may be set; the first test that succeeds decides.
    else if event.mask &&& IN_MODIFY ≠ 0 then do
      let _ ← updateOrCreateFuseEntryFromVdir cfg fullPath
    else if event.mask &&& IN_CREATE ≠ 0 then do
      let _ ← updateOrCreateFuseEntryFromVdir cfg fullPath
    else pure ()

/-! ## One call -/

/-- A call that changes the file system. -/
inductive Op
  | create (filepath : CStr)
  | mkdir (filepath : CStr)
  | write (path : CStr) (buf : List UInt8) (size offset : Nat)
  | unlink (file : CStr)
  | rmdir (filepath : CStr)
  | rename (old new : CStr) (flags : Nat)
  | setxattr (path attrib : CStr) (value : List UInt8) (s flags : Nat)
  | removexattr (path attrib : CStr)
  | event (event : InotifyEvent)

/-- Run one call; the status of the event handler is 0. -/
def exec : Op → FsM Text Int
  | .create filepath => fuseCreate cfg filepath
  | .mkdir filepath => fuseMkdir cfg filepath
  | .write path buf size offset => fuseWrite cfg path buf size offset
  | .unlink file => fuseUnlink cfg file
  | .rmdir filepath => fuseRmdir cfg filepath
  | .rename old new flags => fuseRename cfg old new flags
  | .setxattr path attrib value s flags => fuseSetxattr cfg path attrib value s flags
  | .removexattr path attrib => fuseRemovexattr cfg path attrib
  | .event event => do
    handleVdirEvent cfg event
    pure 0

end

end Agendafs
