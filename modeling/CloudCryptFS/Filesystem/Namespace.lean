import CloudCryptFS.Filesystem.Inode

/-! The operations of the file system on names: the lookup of a path through the cache
and the directories, the checks of access, and the calls that make, link, remove and
rename files. A failed assertion ends the run. -/

namespace CloudCryptFS.Filesystem
open Util Script Script.Lexer Script.Json

variable [Floats]

section Lookup

def getParentPath (path : Path) : Path := path.tail

def getChildPath (path : Path) : Name := path.headD []

/-- The paths whose files show statistics and metadata. -/
def specialPath (path : Path) : Bool := path = [lit "._stats"] ∨ path = [lit "._meta"]

/-- `inodeToFile`; the name is missing where the source passes no path. -/
def inodeToFile (i : BucketIndex) (filename : Option Path) (pPerm : List BucketIndex) : FsM FilePtr := do
  let s ← state
  if (s.inodeFileCache i).isSome then pure (some i)
  else do
    Run.assert (i ≠ 0)
    match s.slots i with
    | .node _ => do
      update (fun s => s.setFile i (some ⟨pPerm, (filename.map specialPath).getD false, 0⟩))
      pure (some i)
    | _ => pure none

/-- `permission::node`. -/
def permissionNode (i : BucketIndex) : FsM FilePtr := inodeToFile i none []

/-- `file::readDirectoryContent`: `none` for a failure. The text of a special file is
no JSON; a file that is no directory counts as an empty one. -/
def readDirectory (i : BucketIndex) : FsM (Option (JSON Floats.F)) := do
  if ← valid (some i) then
    let n ← INode (some i)
    if n.type = .DIR then
      if ← isSpecial (some i) then pure none
      else readDirectoryContent (fileOps none) n.data
    else pure (some .empty)
  else pure none

/-- `get<I>(name)`; a value that is no number throws. -/
def getIndex (directory : JSON Floats.F) (name : Name) : FsM BucketIndex :=
  match toInts (directory.value name) with
  | .ok values => pure (toUInt64 (values.headD 0))
  | .error _ => Run.abort

/-- `hasNode` without a context. -/
def hasNode (i : BucketIndex) (name : Name) : FsM (Except EE BucketIndex) := do
  if ← valid (some i) then
    match ← readDirectory i with
    | none => pure (.error .permission_denied)
    | some directory =>
      if directory.hasProperty name then
        let index ← getIndex directory name
        pure (.ok index)
      else pure (.error .entity_not_found)
  else pure (.error .entity_not_found)

/-- The cached index of a path, which is dropped when it leads to no file. -/
def getCached (path : Path) : FsM FilePtr := do
  let s ← state
  match s.pathInodeCache path with
  | none => pure none
  | some i =>
    match ← inodeToFile i (some path) [] with
    | some F => pure (some F)
    | none => do
      update (fun s => (s.setPath path none).setPath [] (some rootIndex))
      pure none

/-- `fs::get` without a handle. -/
def get : Path → FsM FilePtr
  | [] => do
    match ← getCached [] with
    | some F => pure (some F)
    | none => pure (some rootIndex)
  | childname :: parentname => do
    match ← getCached (childname :: parentname) with
    | some F => pure (some F)
    | none =>
      if childname.length > 255 then pure none
      else
        match ← get parentname with
        | none => pure none
        | some parentFile => do
          let n ← INode (some parentFile)
          if n.type ≠ .DIR then pure none
          else
            match ← hasNode parentFile childname with
            | .error _ => pure none
            | .ok i => do
              Run.assert (i ≠ 0)
              update (fun s => s.setPath (childname :: parentname) (some i))
              let pPerm ← getPathPermissions parentFile
              inodeToFile i (some (childname :: parentname)) (pPerm ++ [parentFile])

/-- The cached index of a path, with the error code that is left behind. -/
def getCachedErrcode (path : Path) (errcode : EE) : FsM (FilePtr × EE) := do
  let s ← state
  match s.pathInodeCache path with
  | none => pure (none, errcode)
  | some i =>
    match ← inodeToFile i (some path) [] with
    | some F => pure (some F, errcode)
    | none => do
      update (fun s => (s.setPath path none).setPath [] (some rootIndex))
      pure (none, .entity_not_found)

/-- `fs::get` for a caller that asks for the error code: it stays set when a cached index
has been dropped on the way, also where the file is found after that. -/
def getErrcode : Path → EE → FsM (FilePtr × EE)
  | [], errcode => do
    match ← getCachedErrcode [] errcode with
    | (some F, errcode) => pure (some F, errcode)
    | (none, errcode) => pure (some rootIndex, errcode)
  | childname :: parentname, errcode => do
    match ← getCachedErrcode (childname :: parentname) errcode with
    | (some F, errcode) => pure (some F, errcode)
    | (none, errcode) =>
      if childname.length > 255 then pure (none, .name_too_long)
      else
        match ← getErrcode parentname errcode with
        | (none, _) => pure (none, .entity_not_found)
        | (some parentFile, errcode) => do
          let n ← INode (some parentFile)
          if n.type ≠ .DIR then pure (none, .entity_not_found)
          else
            match ← hasNode parentFile childname with
            | .error nodeError => pure (none, nodeError)
            | .ok i => do
              Run.assert (i ≠ 0)
              update (fun s => s.setPath (childname :: parentname) (some i))
              let pPerm ← getPathPermissions parentFile
              match ← inodeToFile i (some (childname :: parentname)) (pPerm ++ [parentFile]) with
              | some F => pure (some F, errcode)
              | none => pure (none, .entity_not_found)

end Lookup

section Access

/-- The loop over the directories of the path: whether the sticky bit is set on one, and
whether that one is owned; `none` when one may not be searched. -/
def accessLoop (ctx : Context) (checkStickyOwner : Bool) :
    List BucketIndex → (stickySet owndir : Bool) → FsM (Option (Bool × Bool))
  | [], stickySet, owndir => pure (some (stickySet, owndir))
  | p :: pathPermissions, stickySet, owndir => do
    let node ← INode (← permissionNode p)
    let sticky := checkStickyOwner && !stickySet && node.mode &&& Mode.FLAG_SVTX ≠ 0
    let owndir := if sticky && node.uid = ctx.uid then true else owndir
    if node.permits ctx Access.X then accessLoop ctx checkStickyOwner pathPermissions (stickySet || sticky) owndir
    else pure none

/-- The access that the folder of the file must give. -/
def checkFolder (pathPermissions : List BucketIndex) (ctx : Context) (dda : Mode) : FsM Bool :=
  match pathPermissions.getLast? with
  | some last =>
    if dda ≠ Access.NONE then do
      let node ← INode (← permissionNode last)
      pure (node.permits ctx dda)
    else pure true
  | none => pure true

/-- `validate_access` with the given list of directories. -/
def validateWith (pathPermissions : List BucketIndex) (F : FilePtr) (ctx : Context) (da dda : Mode)
    (checkStickyOwner : Bool) : FsM Bool := do
  match ← accessLoop ctx checkStickyOwner pathPermissions false false with
  | none => pure false
  | some (stickySet, owndir) =>
    if !(← checkFolder pathPermissions ctx dda) then pure false
    else do
      let n ← INode F
      if checkStickyOwner && stickySet && n.uid ≠ ctx.uid && !owndir then pure false
      else pure (n.permits ctx da)

/-- `file::validate_access`. -/
def validate_access (F : FilePtr) (ctx : Context) (da : Mode) (dda : Mode := Access.NONE)
    (checkStickyOwner : Bool := false) : FsM Bool := do
  if ← valid F then
    if ctx.uid = 0 then pure true
    else do
      let pathPermissions ← getPathPermissions (bucketIdx F)
      validateWith pathPermissions F ctx da dda checkStickyOwner
  else pure false

end Access

section Directories

/-- The chain of the inode grows by `n` records. -/
def createCtds (i : BucketIndex) : (n : Nat) → FsM Unit
  | 0 => pure ()
  | n + 1 => do
    let ctd ← fetchIndex
    update (fun s => s.setSlot ctd .ctd)
    modifyINode i (fun n => { n with nextIDs := n.nextIDs ++ [ctd] })
    createCtds i n

/-- `file::rest`: the hashes of the file get their places in the inode and its chain. -/
def rest (i : BucketIndex) : FsM Unit := do
  if ← valid (some i) then
    if ← isSpecial (some i) then pure ()
    else do
      let n ← INode (some i)
      createCtds i (Inode.ctdsFor n.data.hashList.length - n.nextIDs.length)
  else pure ()

/-- `file::writeDirectoryContent`; `swapContent` refuses a special file. -/
def writeDirectory (i : BucketIndex) (directory : JSON Floats.F) (je : Option Wrapper) : FsM Unit := do
  Run.assert (¬(← isSpecial (some i)))
  let n ← INode (some i)
  let data ← writeDirectoryContent (fileOps je) n.data directory
  modifyINode i (fun n => { n with data := data })
  rest i

def addNode (F : FilePtr) (name : Name) (node : BucketIndex) (ctx : Context) (je : Option Wrapper) : FsM EE := do
  match F with
  | none => pure .entity_not_found
  | some i =>
    if ← valid F then
      if ← validate_access F ctx Access.WX then
        match ← readDirectory i with
        | none => pure .permission_denied
        | some directory =>
          if directory.hasProperty name then pure .exists
          else do
            Run.assert (node ≠ 0)
            writeDirectory i (directory.setValue name (.int [toInt64 node])) je
            pure .ok
      else pure .access_denied
    else pure .entity_not_found

def removeNode (F : FilePtr) (name : Name) (ctx : Context) (je : Option Wrapper) : FsM EE := do
  match F with
  | none => pure .entity_not_found
  | some i =>
    if ← valid F then
      if ← validate_access F ctx Access.WX then
        match ← readDirectory i with
        | none => pure .permission_denied
        | some directory =>
          if directory.hasProperty name then do
            writeDirectory i (directory.clearProperty name) je
            pure .ok
          else pure .entity_not_found
      else pure .access_denied
    else pure .entity_not_found

def isFullDir (F : FilePtr) : FsM Bool := do
  match F with
  | none => pure false
  | some i =>
    if ← valid F then
      let n ← INode F
      if n.type ≠ .DIR then pure false
      else
        match ← readDirectory i with
        | none => pure true
        | some directory => pure (directory.values.any (fun v => v.1 ≠ [] ∧ v.1.head? ≠ some 47))
    else pure false

end Directories

section Files

/-- `file::writeInner`; many writes put the file to rest. -/
def fileWriteInner (i : BucketIndex) (buf : Str) (offset : Nat) (je : Option Wrapper) : FsM Nat := do
  let n ← INode (some i)
  let (data, replaced) ← writeData (fileOps je) n.data buf offset
  modifyINode i (fun n => { n with data := data })
  let s ← state
  match s.inodeFileCache i with
  | none => pure buf.length
  | some file => do
    let numHashWrites := file.numHashWrites + replaced
    if numHashWrites > chunksInBucket * 5 then do
      update (fun s => s.setFile i (some { file with numHashWrites := 0 }))
      rest i
    else update (fun s => s.setFile i (some { file with numHashWrites := numHashWrites }))
    pure buf.length

def write (F : FilePtr) (buf : Str) (offset : Nat) : FsM Nat := do
  match F with
  | none => pure 0
  | some i =>
    if (← valid F) ∧ ¬(← isSpecial F) then
      withEntry (.write i offset buf) (fileWriteInner i buf offset)
    else pure 0

def fileTruncateInner (i : BucketIndex) (newSize : Nat) (je : Option Wrapper) : FsM EE := do
  let n ← INode (some i)
  let data ← truncateData (fileOps je) n.data newSize
  addChange je
  modifyINode i (fun n => { n with data := data })
  rest i
  pure .ok

def maxFileSize : Nat := 2 ^ 44

def truncate (F : FilePtr) (newSize : Nat) : FsM EE := do
  match F with
  | none => pure .entity_not_found
  | some i =>
    if (← valid F) ∧ ¬(← isSpecial F) then
      if newSize > maxFileSize then pure .too_big
      else withEntry (.truncate i newSize) (fileTruncateInner i newSize)
    else pure .entity_not_found

def chmodInner (i : BucketIndex) (mod : Mode) (je : Option Wrapper) : FsM EE := do
  let n ← INode (some i)
  Run.assert (mod &&& Mode.TYPE = n.mode &&& Mode.TYPE)
  modifyINode i (fun n => { n with mode := mod })
  addChange je
  pure .ok

def validate_ownership (n : Inode) (ctx : Context) (newMode : Mode) : Bool :=
  ctx.uid = 0 ∨ ctx.uid = n.uid ∨ ctx.gid = n.gid ∨ n.mode &&& 0o777 = newMode &&& 0o777

/-- Whether `chmod` lets the context change the mode. -/
def mayChmod (F : FilePtr) (n : Inode) (ctx : Context) (mod : Mode) : FsM Bool := do
  if ctx.uid = n.uid then pure true
  else do
    let access ← validate_access F ctx Access.W
    pure (access && validate_ownership n ctx mod)

def chmod (F : FilePtr) (mod : Mode) (ctx : Context) : FsM EE := do
  match F with
  | none => pure .entity_not_found
  | some i =>
    if ← valid F then
      let n ← INode F
      if ← mayChmod F n ctx mod then
        let mod := if ctx.gid ≠ n.gid ∧ ctx.uid ≠ 0 then mod &&& ~~~Mode.FLAG_SGID else mod
        withEntry (.chmod i mod) (chmodInner i mod)
      else pure .permission_denied
    else pure .entity_not_found

def maxId : UInt32 := 0xFFFFFFFF

def chownInner (i : BucketIndex) (uid gid : UInt32) (je : Option Wrapper) : FsM EE := do
  modifyINode i (fun n => { n with
    uid := if uid ≠ maxId then uid else n.uid
    gid := if gid ≠ maxId then gid else n.gid })
  addChange je
  pure .ok

/-- Which changes of the owner `chown` allows. -/
def mayChown (n : Inode) (ctx : Context) (uid gid : UInt32) : Bool :=
  ctx.uid = 0 ∨ ((uid = n.uid ∨ uid = maxId) ∧ n.uid = ctx.uid ∧
    (gid ∈ ctx.gids ∨ ctx.gid = gid ∨ gid = maxId))

def chown (F : FilePtr) (uid gid : UInt32) (ctx : Context) : FsM EE := do
  match F with
  | none => pure .entity_not_found
  | some i =>
    if ← valid F then
      if ← validate_access F ctx Access.NONE then
        let n ← INode F
        if mayChown n ctx uid gid then do
          if uid ≠ maxId ∨ gid ≠ maxId then
            modifyINode i (fun n => { n with mode := n.mode &&& ~~~(Mode.FLAG_SGID ||| Mode.FLAG_SUID) })
          withEntry (.chown i uid gid) (chownInner i uid gid)
        else pure .permission_denied
      else pure .access_denied
    else pure .entity_not_found

end Files

section Create

/-- The branch of `fs::replayEntry` for `mkobject`. -/
def mkobjectInner (parentNode newNode : BucketIndex) (mod : Mode) (name : Name) (ctx : Context)
    (je : Option Wrapper) : FsM EE := do
  let parent ← inodeToFile parentNode none []
  Run.assert (← valid parent)
  Run.assert (newNode ≠ 0)
  let status ← addNode parent name newNode ctx je
  if status = .ok then update (fun s => s.setSlot newNode (.node (.fresh mod ctx)))
  pure status

def mkobject (filename : Path) (ctx : Context) (type mod : Mode) : FsM EE := do
  Run.assert (type &&& Mode.TYPE ≠ 0)
  match filename with
  | [] => pure .exists
  | childname :: parentname =>
    match ← get parentname with
    | none => pure .entity_not_found
    | some parent => do
      let ino ← fetchIndex
      withEntry (.mkobject parent ino (mod ||| type) childname) (fun je => do
        let errorcode ← mkobjectInner parent ino (mod ||| type) childname ctx je
        if errorcode ≠ .ok then postIndex ino
        pure errorcode)

/-- `_mkdir`. -/
def mkdir (name : Path) (mode : Mode) (ctx : Context) : FsM EE := mkobject name ctx Mode.TYPE_DIR mode

def mknod (filename : Path) (m : Mode) (ctx : Context) : FsM EE := do
  let m := if m &&& Mode.TYPE = 0 then m ||| Mode.TYPE_REG else m
  let e ← mkobject filename ctx (m &&& Mode.TYPE) m
  if e ≠ .ok then pure e
  else do
    let _ ← get filename
    pure .ok

def softlink (linktarget : Str) (linkname : Path) (ctx : Context) : FsM EE := do
  let e ← mkobject linkname ctx Mode.TYPE_LNK 0o777
  if e ≠ .ok then pure e
  else do
    let (fil, e) ← getErrcode linkname .ok
    if e ≠ .ok then pure e
    else do
      let ret ← write fil linktarget 0
      let _ ← truncate fil linktarget.length
      if ret ≠ linktarget.length then pure .entity_not_found
      else do
        fil.forM rest
        pure .ok

def hardlink (linktarget linkname : Path) (ctx : Context) : FsM EE := do
  match ← get linktarget with
  | none => pure .entity_not_found
  | some target =>
    match ← get (getParentPath linkname) with
    | none => pure .entity_not_found
    | some parent => do
      let e ← addNode (some parent) (getChildPath linkname) target ctx none
      if e ≠ .ok then pure e
      else do
        modifyINode target (fun n => { n with nlinks := n.nlinks + 1 })
        pure .ok

end Create

section Remove

/-- An index that `unlinkinner` gives back. -/
def freeIndex (li : BucketIndex) : FsM Unit := do
  update (fun s => s.setSlot li .none)
  postIndex li

/-- `setDeletedAndReturnAllUsedInodes`, and what `unlinkinner` does with the result. -/
def deleteFile (i : BucketIndex) : FsM Unit := do
  let n ← INode (some i)
  update (fun s => s.setFile i none)
  (i :: (n.nextIDs ++ n.metaIDs)).forM freeIndex

/-- The assertions of `unlinkinner` on its entry. -/
def checkUnlink (je : Option Wrapper) (parent f : FilePtr) (n : Inode) : FsM Unit :=
  match je with
  | some ⟨_, .unlink parentNode newNode offset _⟩ =>
    Run.assert (newNode = bucketIdx f ∧ parentNode = bucketIdx parent ∧ offset = n.nlinks)
  | _ => pure ()

/-- The link that goes, and the file to delete with it. -/
def dropLink (f : FilePtr) (n : Inode) : FsM (Except EE FilePtr) := do
  match f, n.type with
  | some _, .DIR => do
    if ← isFullDir f then pure (.error .not_empty) else pure (.ok f)
  | none, _ | _, .INVALID => pure (.ok none)
  | some i, _ => do
    modifyINode i (fun n => { n with nlinks := n.nlinks - 1 })
    pure (.ok (if n.nlinks - 1 ≤ 0 then some i else none))

def unlinkinner (filename : Path) (ctx : Context) (je : Option Wrapper) : FsM EE := do
  let parent ← get (getParentPath filename)
  let f ← get filename
  let n ← INode f
  checkUnlink je parent f n
  match ← dropLink f n with
  | .error e => pure e
  | .ok fileToDelete => do
    let ret ← removeNode parent (getChildPath filename) ctx je
    if ret = .ok then do
      match fileToDelete with
      | some i => deleteFile i
      | none => pure ()
      update (fun s => s.setPath filename none)
    pure ret

def unlink (filename : Path) (ctx : Context) : FsM EE := do
  let parent ← get (getParentPath filename)
  match ← get filename with
  | none => pure .entity_not_found
  | some f =>
    if ← validate_access (some f) ctx Access.NONE Access.W true then
      if (← isSpecial (some f)) ∨ f = rootIndex then pure .access_denied
      else do
        let n ← INode (some f)
        withEntry (.unlink (bucketIdx parent) f n.nlinks filename) (unlinkinner filename ctx)
    else pure .access_denied

end Remove

section Rename

def checkRename (je : Option Wrapper) (srcparent srcfile dstparent : FilePtr) : FsM Unit :=
  match je with
  | some ⟨_, .renamemove parentNode newNode newParentNode _ _⟩ =>
    Run.assert (parentNode = bucketIdx srcparent ∧ newNode = bucketIdx srcfile ∧ newParentNode = bucketIdx dstparent)
  | _ => pure ()

/-- The first half of `renamemoveinner`: the file at its new place. -/
def moveIn (dstparent : FilePtr) (dest : Path) (node : BucketIndex) (ctx : Context) (je : Option Wrapper) : FsM EE := do
  let error ← addNode dstparent (getChildPath dest) node ctx je
  if error = .exists then do
    let _ ← unlink dest ctx
    addNode dstparent (getChildPath dest) node ctx je
  else pure error

def renamemoveinner (source dest : Path) (ctx : Context) (je : Option Wrapper) : FsM EE := do
  let srcparent ← get (getParentPath source)
  let dstparent ← get (getParentPath dest)
  let srcfile ← get source
  let _ ← get dest
  checkRename je srcparent srcfile dstparent
  let error ← moveIn dstparent dest (bucketIdx srcfile) ctx je
  if error ≠ .ok then pure error
  else do
    let error ← removeNode srcparent (getChildPath source) ctx je
    if error ≠ .ok then pure error
    else do
      update (fun s => (s.setPath source none).setPath dest none)
      pure .ok

/-- What stands in the way of replacing a file. -/
def checkReplaced (dstfile : FilePtr) (ctx : Context) : FsM (Option EE) := do
  match dstfile with
  | none => pure none
  | some _ =>
    if ¬(← validate_access dstfile ctx Access.NONE Access.WX true) then pure (some EE.access_denied)
    else if ← isFullDir dstfile then pure (some EE.not_empty)
    else pure none

def renamemove (source dest : Path) (ctx : Context) : FsM EE := do
  let srcparent ← get (getParentPath source)
  let dstparent ← get (getParentPath dest)
  let srcfile ← get source
  let dstfile ← get dest
  if srcparent = none ∨ srcfile = none ∨ dstparent = none then pure .entity_not_found
  else if ¬(← validate_access srcfile ctx Access.NONE Access.WX true) then pure .access_denied
  else do
    match ← checkReplaced dstfile ctx with
    | some e => pure e
    | none =>
      withEntry (.renamemove (bucketIdx srcparent) (bucketIdx srcfile) (bucketIdx dstparent) source dest)
        (renamemoveinner source dest ctx)

end Rename

section Runs

/-- The calls that change the name space, and the lookup. -/
inductive Op where
  | mknod (filename : Path) (m : Mode) (ctx : Context)
  | mkdir (name : Path) (mode : Mode) (ctx : Context)
  | softlink (linktarget : Str) (linkname : Path) (ctx : Context)
  | hardlink (linktarget linkname : Path) (ctx : Context)
  | unlink (filename : Path) (ctx : Context)
  | renamemove (source dest : Path) (ctx : Context)
  | get (path : Path)

/-- What a call answers is of no interest to what comes after it. -/
def Op.run : Op → FsM Unit
  | .mknod filename m ctx => do let _ ← Filesystem.mknod filename m ctx
  | .mkdir name mode ctx => do let _ ← Filesystem.mkdir name mode ctx
  | .softlink linktarget linkname ctx => do let _ ← Filesystem.softlink linktarget linkname ctx
  | .hardlink linktarget linkname ctx => do let _ ← Filesystem.hardlink linktarget linkname ctx
  | .unlink filename ctx => do let _ ← Filesystem.unlink filename ctx
  | .renamemove source dest ctx => do let _ ← Filesystem.renamemove source dest ctx
  | .get path => do let _ ← Filesystem.get path

end Runs

end CloudCryptFS.Filesystem
