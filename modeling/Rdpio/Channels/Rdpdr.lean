import Rdpio.Hyper.Messages

/-!
# Drive redirection

`crates/rdp-channels/src/rdpdr.rs`: a server works on the files of a shared folder with Device I/O Requests.
-/

namespace Rdpio.Channels.Rdpdr

open Channels.Cliprdr (decodeUnicode)
open Hyper.Messages (leAt)

abbrev Name := List Char

inductive Base where
  | share (device_id : UInt32)
  | outside (drive : Name)
deriving DecidableEq

structure Path where
  base : Base
  names : List Name
deriving DecidableEq

structure Platform where
  hasPrefix : Name → Bool

def windows : Platform where
  hasPrefix
    | c :: ':' :: _ => c.isAlpha
    | _ => false

def unix : Platform where
  hasPrefix _ := false

/-- `PathBuf::push`, of a component without separators. -/
def Platform.push (platform : Platform) (p : Path) (name : Name) : Path :=
  if name = ['.'] then p
  else if platform.hasPrefix name then ⟨.outside name, []⟩
  else ⟨p.base, p.names ++ [name]⟩

/-- `wire.replace('\\', "/").split('/')`. -/
def components : List Char → List Name
  | [] => [[]]
  | c :: cs =>
    if c = '\\' ∨ c = '/' then [] :: components cs
    else
      match components cs with
      | [] => [[c]]
      | name :: names => (c :: name) :: names

/-- One component of a wire path, pushed. -/
def resolveStep (platform : Platform) (p : Path) (name : Name) : Option Path :=
  if name = [] ∨ name = ['.'] then some p
  else if name = ['.', '.'] then none
  else some (platform.push p name)

def resolvePath (platform : Platform) (device_id : UInt32) (wire : List Char) : Option Path :=
  (components wire).foldlM (resolveStep platform) ⟨.share device_id, []⟩

/-- `OpenOptions`, to read and write. -/
structure OpenOptions where
  create : Bool := false
  create_new : Bool := false
  truncate : Bool := false
deriving DecidableEq

structure Fs (σ H M : Type) where
  exist : σ → Path → Bool
  isDir : σ → Path → Bool
  createDir : σ → Path → Option σ
  openWith : σ → Path → OpenOptions → Option (H × σ)
  openRead : σ → Path → Option H
  read : σ → H → UInt64 → ℕ → Option (List UInt8)
  write : σ → H → UInt64 → List UInt8 → Option σ
  setLen : σ → H → UInt64 → Option σ
  metadata : σ → Path → Option M
  readDir : σ → Path → Option (List Name)
  removeDirAll : σ → Path → σ
  removeFile : σ → Path → σ
  rename : σ → Path → Path → Option σ

/-- What is done to a path. -/
inductive Op where
  | stat
  | createDir
  | openFile
  | list
  | remove
  | renameFrom
  | renameTo
deriving DecidableEq

structure Touch where
  op : Op
  path : Path
deriving DecidableEq

/-! ## Requests -/

def fileSupersede : UInt32 := 0
def fileOpen : UInt32 := 1
def fileCreate : UInt32 := 2
def fileOpenIf : UInt32 := 3
def fileOverwrite : UInt32 := 4
def fileOverwriteIf : UInt32 := 5
def fileDirectoryFile : UInt32 := 0x0000_0001

def fileOpened : UInt8 := 1
def fileCreated : UInt8 := 2
def fileOverwritten : UInt8 := 3

def statusSuccess : UInt32 := 0x0000_0000
def statusNoMoreFiles : UInt32 := 0x8000_0006
def statusUnsuccessful : UInt32 := 0xC000_0001
def statusNoSuchFile : UInt32 := 0xC000_000F
def statusAccessDenied : UInt32 := 0xC000_0022
def statusObjectNameNotFound : UInt32 := 0xC000_0034
def statusObjectNameCollision : UInt32 := 0xC000_0035
def statusNotSupported : UInt32 := 0xC000_00BB

def fileBasicInformation : UInt32 := 4
def fileStandardInformation : UInt32 := 5
def fileAttributeTagInformation : UInt32 := 35
def fileEndOfFileInformation : UInt32 := 20
def fileDispositionInformation : UInt32 := 13
def fileRenameInformation : UInt32 := 10
def fileAllocationInformation : UInt32 := 19
def fileBothDirectoryInformation : UInt32 := 3
def volumeClasses : List UInt32 := [1, 3, 7, 5, 4]

def irpMjCreate : UInt32 := 0x00
def irpMjClose : UInt32 := 0x02
def irpMjRead : UInt32 := 0x03
def irpMjWrite : UInt32 := 0x04
def irpMjQueryInformation : UInt32 := 0x05
def irpMjSetInformation : UInt32 := 0x06
def irpMjQueryVolumeInformation : UInt32 := 0x0A
def irpMjDirectoryControl : UInt32 := 0x0C
def irpMjDeviceControl : UInt32 := 0x0E
def irpMnQueryDirectory : UInt32 := 0x01

def u32le (b : List UInt8) (o : ℕ) : Option UInt32 := (leAt 4 b o).map UInt32.ofNat

def u64le (b : List UInt8) (o : ℕ) : Option UInt64 := (leAt 8 b o).map UInt64.ofNat

def bytesAt (b : List UInt8) (o n : ℕ) : List UInt8 := if o + n ≤ b.length then (b.drop o).take n else []

inductive Payload (M : Type) where
  | bytes (b : List UInt8)
  | information (cls : UInt32) (md : M)
  | volume (cls : UInt32)
  | entry (cls : UInt32) (name : Name) (md : Option M)

def zeros {M : Type} (n : ℕ) : Payload M := .bytes (List.replicate n 0)

structure OpenFile (H : Type) where
  path : Path
  is_dir : Bool
  file : Option H := none
  /-- The names of an enumeration in progress, and how far it is. -/
  dir_entries : Option (List Name) := none
  dir_pos : ℕ := 0
  delete_on_close : Bool := false

structure DriveDevice (H : Type) where
  device_id : UInt32
  files : UInt32 → Option (OpenFile H)
  next_file_id : UInt32

/-- A drive, and the file system. -/
structure State (σ H : Type) where
  drive : DriveDevice H
  tree : σ

structure Reply (σ H M : Type) where
  state : State σ H
  touched : List Touch := []
  status : UInt32
  payload : Payload M

variable {σ H M : Type} (platform : Platform) (fs : Fs σ H M)

namespace State

variable (s : State σ H)

def root : Path := ⟨.share s.drive.device_id, []⟩

def resolve (wire : List Char) : Option Path := resolvePath platform s.drive.device_id wire

/-- A new handle. -/
def insert (f : OpenFile H) (tree : σ) : State σ H where
  drive := { s.drive with
    files := Function.update s.drive.files s.drive.next_file_id (some f)
    next_file_id := s.drive.next_file_id + 1 }
  tree

def set (file_id : UInt32) (f : OpenFile H) (tree : σ) : State σ H where
  drive := { s.drive with files := Function.update s.drive.files file_id (some f) }
  tree

def opened (f : OpenFile H) (tree : σ) (touched : List Touch) (information : UInt8) : Reply σ H M where
  state := s.insert f tree
  touched
  status := statusSuccess
  payload := .bytes (Lib.leBytes 4 s.drive.next_file_id.toNat ++ [information])

def refuse (status : UInt32) (n : ℕ) (touched : List Touch) : Reply σ H M := ⟨s, touched, status, zeros n⟩

def fileDisposition (disposition : UInt32) (there : Bool) : Except UInt32 (OpenOptions × UInt8) :=
  if disposition = fileOpen then
    if !there then .error statusNoSuchFile else .ok ({}, fileOpened)
  else if disposition = fileCreate then
    if there then .error statusObjectNameCollision else .ok ({ create_new := true }, fileCreated)
  else if disposition = fileOpenIf then
    .ok ({ create := true }, if there then fileOpened else fileCreated)
  else if disposition = fileOverwrite then
    if !there then .error statusNoSuchFile else .ok ({ truncate := true }, fileOverwritten)
  else if disposition = fileOverwriteIf ∨ disposition = fileSupersede then
    .ok ({ create := true, truncate := true }, if there then fileOverwritten else fileCreated)
  else .ok ({ create := true }, fileOpened)

def createFolder (path : Path) (disposition : UInt32) (there : Bool) (touched : List Touch) : Reply σ H M :=
  if disposition = fileCreate ∨ disposition = fileOpenIf ∨ disposition = fileOverwriteIf ∨
      disposition = fileSupersede then
    if !there then
      match fs.createDir s.tree path with
      | none => s.refuse statusUnsuccessful 5 (touched ++ [⟨.createDir, path⟩])
      | some tree => s.opened { path, is_dir := true } tree (touched ++ [⟨.createDir, path⟩]) fileCreated
    else s.opened { path, is_dir := true } s.tree touched fileOpened
  else if !there then s.refuse statusNoSuchFile 5 touched
  else s.opened { path, is_dir := true } s.tree touched fileOpened

def createFile (path : Path) (disposition : UInt32) (there : Bool) (touched : List Touch) : Reply σ H M :=
  match fileDisposition disposition there with
  | .error status => s.refuse status 5 touched
  | .ok (opts, information) =>
    match fs.openWith s.tree path opts with
    | some (f, tree) =>
      s.opened { path, is_dir := false, file := some f } tree (touched ++ [⟨.openFile, path⟩]) information
    | none =>
      match fs.openRead s.tree path with
      | some f => s.opened { path, is_dir := false, file := some f } s.tree
          (touched ++ [⟨.openFile, path⟩]) information
      | none => s.refuse statusObjectNameNotFound 5 (touched ++ [⟨.openFile, path⟩])

def create (p : List UInt8) : Reply σ H M :=
  let disposition := (u32le p 20).getD fileOpen
  let options := (u32le p 24).getD 0
  let path_len := ((u32le p 28).getD 0).toNat
  match s.resolve platform (decodeUnicode (bytesAt p 32 path_len)) with
  | none => s.refuse statusAccessDenied 5 []
  | some path =>
    let want_dir := options &&& fileDirectoryFile != 0
    let there := fs.exist s.tree path
    let touched := [⟨.stat, path⟩]
    if fs.isDir s.tree path || (want_dir && !there) then s.createFolder fs path disposition there touched
    else s.createFile fs path disposition there touched

def close (file_id : UInt32) : Reply σ H M :=
  let drive := { s.drive with files := Function.update s.drive.files file_id none }
  match s.drive.files file_id with
  | none => ⟨s, [], statusSuccess, zeros 5⟩
  | some f =>
    if f.delete_on_close then
      ⟨⟨drive, if f.is_dir then fs.removeDirAll s.tree f.path else fs.removeFile s.tree f.path⟩,
        [⟨.remove, f.path⟩], statusSuccess, zeros 5⟩
    else ⟨⟨drive, s.tree⟩, [], statusSuccess, zeros 5⟩

def read (file_id : UInt32) (p : List UInt8) : Reply σ H M :=
  let length := ((u32le p 0).getD 0).toNat
  let offset := (u64le p 4).getD 0
  match s.drive.files file_id with
  | none => s.refuse statusUnsuccessful 4 []
  | some f =>
    match f.file with
    | none => s.refuse statusAccessDenied 4 []
    | some file =>
      match fs.read s.tree file offset length with
      | none => s.refuse statusUnsuccessful 4 []
      | some buf => ⟨s, [], statusSuccess, .bytes (Lib.leBytes 4 buf.length ++ buf)⟩

def write (file_id : UInt32) (p : List UInt8) : Reply σ H M :=
  let length := ((u32le p 0).getD 0).toNat
  let offset := (u64le p 4).getD 0
  let data := bytesAt p 32 length
  match s.drive.files file_id with
  | none => s.refuse statusUnsuccessful 5 []
  | some f =>
    match f.file with
    | none => s.refuse statusAccessDenied 5 []
    | some file =>
      match fs.write s.tree file offset data with
      | none => s.refuse statusAccessDenied 5 []
      | some tree => ⟨⟨s.drive, tree⟩, [], statusSuccess, .bytes (Lib.leBytes 4 data.length ++ [0])⟩

def queryInfo (file_id : UInt32) (p : List UInt8) : Reply σ H M :=
  let cls := (u32le p 0).getD 0
  match s.drive.files file_id with
  | none => s.refuse statusUnsuccessful 4 []
  | some f =>
    match fs.metadata s.tree f.path with
    | none => s.refuse statusObjectNameNotFound 4 [⟨.stat, f.path⟩]
    | some md =>
      if cls = fileBasicInformation ∨ cls = fileStandardInformation ∨ cls = fileAttributeTagInformation then
        ⟨s, [⟨.stat, f.path⟩], statusSuccess, .information cls md⟩
      else s.refuse statusNotSupported 4 [⟨.stat, f.path⟩]

def renameName (buf : List UInt8) : List Char := decodeUnicode (bytesAt buf 10 ((u32le buf 6).getD 0).toNat)

def setInfo (file_id : UInt32) (p : List UInt8) : Reply σ H M :=
  let cls := (u32le p 0).getD 0
  let set_len := (u32le p 4).getD 0
  let buf := bytesAt p 32 set_len.toNat
  let answer (s : State σ H) (touched : List Touch) (status : UInt32) : Reply σ H M :=
    ⟨s, touched, status, .bytes (Lib.leBytes 4 set_len.toNat)⟩
  match s.drive.files file_id with
  | none => s.refuse statusUnsuccessful 4 []
  | some f =>
    if cls = fileEndOfFileInformation ∨ cls = fileAllocationInformation then
      match f.file.bind fun file => fs.setLen s.tree file ((u64le buf 0).getD 0) with
      | some tree => answer ⟨s.drive, tree⟩ [] statusSuccess
      | none => answer s [] statusAccessDenied
    else if cls = fileDispositionInformation then
      answer (s.set file_id { f with delete_on_close := true } s.tree) [] statusSuccess
    else if cls = fileRenameInformation then
      match s.resolve platform (renameName buf) with
      | none => answer s [] statusAccessDenied
      | some dest =>
        let touched := [⟨.renameFrom, f.path⟩, ⟨.renameTo, dest⟩]
        match fs.rename s.tree f.path dest with
        | some tree => answer (s.set file_id { f with path := dest } tree) touched statusSuccess
        | none => answer s touched statusAccessDenied
    else if cls = fileBasicInformation then answer s [] statusSuccess
    else answer s [] statusNotSupported

def queryVolume (p : List UInt8) : Reply σ H M :=
  let cls := (u32le p 0).getD 0
  if cls ∈ volumeClasses then ⟨s, [], statusSuccess, .volume cls⟩ else s.refuse statusNotSupported 4 []

def entries (f : OpenFile H) (initial : Bool) : List Name × ℕ × List Touch :=
  match f.dir_entries with
  | some names =>
    if initial then (['.'] :: ['.', '.'] :: (fs.readDir s.tree f.path).getD [], 0, [⟨.list, f.path⟩])
    else (names, f.dir_pos, [])
  | none => (['.'] :: ['.', '.'] :: (fs.readDir s.tree f.path).getD [], 0, [⟨.list, f.path⟩])

def queryDirectory (file_id : UInt32) (p : List UInt8) : Reply σ H M :=
  let cls := (u32le p 0).getD fileBothDirectoryInformation
  let initial := p[4]?.any (· ≠ 0)
  match s.drive.files file_id with
  | none => s.refuse statusUnsuccessful 4 []
  | some f =>
    if !f.is_dir then s.refuse statusUnsuccessful 4 []
    else
      let (names, pos, touched) := s.entries fs f initial
      match names[pos]? with
      | none =>
        ⟨s.set file_id { f with dir_entries := some names, dir_pos := pos } s.tree, touched, statusNoMoreFiles, zeros 4⟩
      | some name =>
        let path := platform.push f.path name
        ⟨s.set file_id { f with dir_entries := some names, dir_pos := pos + 1 } s.tree,
          touched ++ [⟨.stat, path⟩], statusSuccess, .entry cls name (fs.metadata s.tree path)⟩

/-- One Device I/O Request, behind the header. -/
def io (body : List UInt8) : Reply σ H M :=
  let file_id := (u32le body 4).getD 0
  let major := (u32le body 12).getD 0
  let minor := (u32le body 16).getD 0
  let params := body.drop 20
  if major = irpMjCreate then s.create platform fs params
  else if major = irpMjClose then s.close fs file_id
  else if major = irpMjRead then s.read fs file_id params
  else if major = irpMjWrite then s.write fs file_id params
  else if major = irpMjQueryInformation then s.queryInfo fs file_id params
  else if major = irpMjSetInformation then s.setInfo platform fs file_id params
  else if major = irpMjQueryVolumeInformation then s.queryVolume params
  else if major = irpMjDirectoryControl then
    if minor = irpMnQueryDirectory then s.queryDirectory platform fs file_id params
    else ⟨s, [], statusSuccess, zeros 4⟩
  else if major = irpMjDeviceControl then s.refuse statusNotSupported 4 []
  else s.refuse statusNotSupported 0 []

end State

def rdpdrCtypCore : UInt16 := 0x4472

def pakidCoreDeviceIorequest : UInt16 := 0x4952

def u16le (b : List UInt8) (o : ℕ) : Option UInt16 := (leAt 2 b o).map UInt16.ofNat

/-- The shared drives, and the file system. -/
structure RdpdrChannel (σ H : Type) where
  drives : List (DriveDevice H)
  tree : σ

namespace RdpdrChannel

variable (ch : RdpdrChannel σ H)

def target (msg : List UInt8) : Option (ℕ × DriveDevice H) :=
  if u16le msg 0 = some rdpdrCtypCore ∧ u16le msg 2 = some pakidCoreDeviceIorequest then
    (ch.drives.findIdx? fun d => d.device_id == (u32le msg 4).getD 0).bind fun i => ch.drives[i]?.map fun d => (i, d)
  else none

def reply (msg : List UInt8) : Option (ℕ × DriveDevice H × Reply σ H M) :=
  (ch.target msg).map fun t => (t.1, t.2, State.io platform fs ⟨t.2, ch.tree⟩ (msg.drop 4))

def process (msg : List UInt8) : RdpdrChannel σ H :=
  match ch.reply platform fs msg with
  | none => ch
  | some (i, _, r) => ⟨ch.drives.set i r.state.drive, r.state.tree⟩

def addDrive : RdpdrChannel σ H :=
  { ch with drives := ch.drives ++ [⟨UInt32.ofNat (ch.drives.length + 1), fun _ => none, 1⟩] }

end RdpdrChannel

end Rdpio.Channels.Rdpdr
