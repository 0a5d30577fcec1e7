import Rdpio.Channels.Rdpdr
import Rdpio.Lib.Run

/-!
# A drive as a file tree

What a server sees of a redirected drive, where the file system is a tree of folders and files (`treeFs`).
-/

namespace Rdpio.Channels.Rdpdr

open Lib
open Channels.Cliprdr (decodeUnicode)

inductive Node where
  | folder
  | file (number : ℕ)
deriving DecidableEq

/-- Folders and files by their names from the root on. -/
structure Tree where
  nodes : List (List Name × Node)
  data : ℕ → List UInt8
  read_only : ℕ → Bool
  /-- The number of the next new file. -/
  next : ℕ

/-- An open file. -/
structure Handle where
  number : ℕ
  writable : Bool
deriving DecidableEq

namespace Tree

variable (t : Tree) (device_id : UInt32) (p : Path)

def find : Option Node := if p.base = .share device_id then t.nodes.lookup p.names else none

def vacant : Bool :=
  p.base == .share device_id && p.names != [] && (t.nodes.lookup p.names).isNone &&
    t.nodes.lookup p.names.dropLast == some .folder

def put (old : List UInt8) (offset : ℕ) (new : List UInt8) : List UInt8 :=
  if new = [] then old
  else old.take offset ++ List.replicate (offset - old.length) 0 ++ new ++ old.drop (offset + new.length)

def setData (number : ℕ) (d : List UInt8) : Tree := { t with data := Function.update t.data number d }

def newFile : Handle × Tree :=
  (⟨t.next, true⟩,
    { nodes := (p.names, .file t.next) :: t.nodes
      data := Function.update t.data t.next []
      read_only := Function.update t.read_only t.next false
      next := t.next + 1 })

def openWith (opts : OpenOptions) : Option (Handle × Tree) :=
  match t.find device_id p with
  | some .folder => none
  | some (.file number) =>
    if opts.create_new || t.read_only number then none
    else some (⟨number, true⟩, if opts.truncate then t.setData number [] else t)
  | none => if (opts.create || opts.create_new) && t.vacant device_id p then some (t.newFile p) else none

def moved (src dest : List Name) (q : List Name) : List Name :=
  if src.isPrefixOf q then dest ++ q.drop src.length else q

def replaces (node : Node) (dest : Path) : Bool :=
  match t.find device_id dest with
  | none => t.vacant device_id dest
  | some (.file _) => node != Node.folder
  | some .folder => node == Node.folder &&
      t.nodes.all fun q => q.1 == dest.names || !dest.names.isPrefixOf q.1

def rename (src dest : Path) : Option Tree :=
  match t.find device_id src with
  | none => none
  | some node =>
    if src = dest then some t
    else if src.names.isPrefixOf dest.names then none
    else if t.replaces device_id node dest then
      some { t with
        nodes := (t.nodes.filter fun q => q.1 != dest.names).map fun q => (moved src.names dest.names q.1, q.2) }
    else none

end Tree

def fileLimit : ℕ := 2^63

def treeFs (device_id : UInt32) : Fs Tree Handle Node where
  exist t p := (t.find device_id p).isSome
  isDir t p := t.find device_id p == some .folder
  createDir t p := if t.vacant device_id p then some { t with nodes := (p.names, .folder) :: t.nodes } else none
  openWith t p opts := t.openWith device_id p opts
  openRead t p :=
    match t.find device_id p with
    | some (.file number) => some ⟨number, false⟩
    | _ => none
  read t h offset length :=
    if offset.toNat < fileLimit then some (((t.data h.number).drop offset.toNat).take length) else none
  write t h offset new :=
    if h.writable && decide (offset.toNat + new.length < fileLimit) then
      some (t.setData h.number (Tree.put (t.data h.number) offset.toNat new))
    else none
  setLen t h length :=
    if h.writable && decide (length.toNat < fileLimit) then
      some (t.setData h.number ((t.data h.number).take length.toNat ++
        List.replicate (length.toNat - (t.data h.number).length) 0))
    else none
  metadata t p := t.find device_id p
  readDir t p :=
    if t.find device_id p = some .folder then
      some (t.nodes.filterMap fun q => if q.1 ≠ [] ∧ q.1.dropLast = p.names then q.1.getLast? else none)
    else none
  removeDirAll t p :=
    if t.find device_id p = some .folder then
      { t with nodes := t.nodes.filter fun q => !p.names.isPrefixOf q.1 }
    else t
  removeFile t p :=
    match t.find device_id p with
    | some (.file _) => { t with nodes := t.nodes.filter fun q => q.1 != p.names }
    | _ => t
  rename t src dest := t.rename device_id src dest

structure Session where
  state : State Tree Handle
  asked : UInt32 → Bool

/-- A request, as its fields are laid out. -/
structure Ask where
  file_id : UInt32
  major : UInt32
  params : List UInt8

def Ask.ofBody (body : List UInt8) : Ask := ⟨(u32le body 4).getD 0, (u32le body 12).getD 0, body.drop 20⟩

def Ask.disposition (a : Ask) : UInt32 := (u32le a.params 20).getD fileOpen

def Ask.name (a : Ask) : List Char := decodeUnicode (bytesAt a.params 32 ((u32le a.params 28).getD 0).toNat)

def Ask.cls (a : Ask) : UInt32 := (u32le a.params 0).getD 0

def Ask.buffer (a : Ask) : List UInt8 := bytesAt a.params 32 ((u32le a.params 4).getD 0).toNat

def Ask.deletePending (a : Ask) : Bool := a.buffer[0]?.any (· ≠ 0)

def Ask.replaceIfExists (a : Ask) : Bool := a.buffer[0]?.any (· ≠ 0)

def Ask.fileName (a : Ask) : List Char := decodeUnicode (bytesAt a.buffer 6 ((u32le a.buffer 2).getD 0).toNat)

def Ask.sets (a : Ask) (cls : UInt32) : Prop := a.major = irpMjSetInformation ∧ a.cls = cls

instance (a : Ask) (cls : UInt32) : Decidable (a.sets cls) := inferInstanceAs (Decidable (_ ∧ _))

def Reply.information (r : Reply Tree Handle Node) : Option UInt8 :=
  match r.payload with
  | .bytes b => b[4]?
  | _ => none

variable (platform : Platform)

namespace Session

def fs (s : Session) : Fs Tree Handle Node := treeFs s.state.drive.device_id

def find (s : Session) (p : Path) : Option Node := s.state.tree.find s.state.drive.device_id p

def reply (s : Session) (body : List UInt8) : Reply Tree Handle Node := s.state.io platform s.fs body

def step (s : Session) (body : List UInt8) : Session where
  state := (s.reply platform body).state
  asked :=
    let a := Ask.ofBody body
    if a.major = irpMjCreate then Function.update s.asked s.state.drive.next_file_id false
    else if a.sets fileDispositionInformation then Function.update s.asked a.file_id a.deletePending
    else s.asked

def start (device_id : UInt32) (tree : Tree) : Session := ⟨⟨⟨device_id, fun _ => none, 1⟩, tree⟩, fun _ => false⟩

def renamedTo (s : Session) (f : OpenFile Handle) (wire : List Char) : Option (Path × Tree) :=
  (s.state.resolve platform wire).bind fun dest => (s.fs.rename s.state.tree f.path dest).map fun tree => (dest, tree)

def renameAsked (s : Session) (f : OpenFile Handle) (a : Ask) : Option (Path × Tree) :=
  (s.renamedTo platform f a.fileName).filter fun r => a.replaceIfExists || (s.find r.1).isNone || r.1 == f.path

/-- The reply and the tree are what a request asks for. -/
structure Faithful (s : Session) (body : List UInt8) : Prop where
  /-- An error leaves the tree as it was. -/
  unchanged : (s.reply platform body).status ≠ statusSuccess → (s.reply platform body).state.tree = s.state.tree
  /-- The id of a new handle is not that of an open one. -/
  fresh : (Ask.ofBody body).major = irpMjCreate → (s.reply platform body).status = statusSuccess →
    s.state.drive.files s.state.drive.next_file_id = none
  /-- `FILE_CREATE` does not open what was there. -/
  create_new : (Ask.ofBody body).major = irpMjCreate → (Ask.ofBody body).disposition = fileCreate →
    (s.reply platform body).status = statusSuccess →
      ∀ path, s.state.resolve platform (Ask.ofBody body).name = some path → s.find path = none
  /-- What is reported as created was, and what is reported as overwritten is empty. -/
  created : (Ask.ofBody body).major = irpMjCreate → (s.reply platform body).status = statusSuccess →
    (s.reply platform body).information = some fileCreated →
      ∀ path, s.state.resolve platform (Ask.ofBody body).name = some path →
        s.find path = none ∧ (s.step platform body).find path ≠ none
  overwritten : (Ask.ofBody body).major = irpMjCreate → (s.reply platform body).status = statusSuccess →
    (s.reply platform body).information = some fileOverwritten →
      ∀ path, s.state.resolve platform (Ask.ofBody body).name = some path →
        ∃ n, s.find path = some (.file n) ∧ (s.step platform body).find path = some (.file n) ∧
          (s.step platform body).state.tree.data n = []
  /-- A read gives the bytes of the range. -/
  read : (Ask.ofBody body).major = irpMjRead → (s.reply platform body).status = statusSuccess →
    ∃ f h, s.state.drive.files (Ask.ofBody body).file_id = some f ∧ f.file = some h ∧
      let bytes := ((s.state.tree.data h.number).drop ((u64le (Ask.ofBody body).params 4).getD 0).toNat).take
        ((u32le (Ask.ofBody body).params 0).getD 0).toNat
      (s.reply platform body).payload = .bytes (leBytes 4 bytes.length ++ bytes)
  /-- A write puts its data at the offset, and changes nothing else. -/
  written : (Ask.ofBody body).major = irpMjWrite → (s.reply platform body).status = statusSuccess →
    ∃ f h, s.state.drive.files (Ask.ofBody body).file_id = some f ∧ f.file = some h ∧
      (s.reply platform body).state.tree = s.state.tree.setData h.number
        (Tree.put (s.state.tree.data h.number) ((u64le (Ask.ofBody body).params 4).getD 0).toNat
          (bytesAt (Ask.ofBody body).params 32 ((u32le (Ask.ofBody body).params 0).getD 0).toNat))
  /-- A close removes something only if the last disposition asked for it. -/
  removed : (Ask.ofBody body).major = irpMjClose → (s.reply platform body).state.tree ≠ s.state.tree →
    s.asked (Ask.ofBody body).file_id = true
  /-- A rename that can be carried out is, and one that cannot is refused. -/
  renamed : (Ask.ofBody body).sets fileRenameInformation → ∀ f, s.state.drive.files (Ask.ofBody body).file_id = some f →
      ∀ dest tree, s.renameAsked platform f (Ask.ofBody body) = some (dest, tree) →
        (s.reply platform body).status = statusSuccess ∧ (s.reply platform body).state.tree = tree ∧
          (s.reply platform body).state.drive.files (Ask.ofBody body).file_id = some { f with path := dest }
  refused : (Ask.ofBody body).sets fileRenameInformation → ∀ f, s.state.drive.files (Ask.ofBody body).file_id = some f →
      s.renameAsked platform f (Ask.ofBody body) = none → (s.reply platform body).status ≠ statusSuccess

/-- The requests that are served as they ask. -/
structure Sound (s : Session) (body : List UInt8) : Prop where
  next : (Ask.ofBody body).major = irpMjCreate → s.state.drive.files s.state.drive.next_file_id = none
  /-- No folder that is there is to be created. -/
  folder : (Ask.ofBody body).major = irpMjCreate → (Ask.ofBody body).disposition = fileCreate →
    ∀ path, s.state.resolve platform (Ask.ofBody body).name = some path → s.find path ≠ some .folder
  /-- No file that is read-only is to be overwritten, unless it is empty. -/
  read_only : (Ask.ofBody body).major = irpMjCreate →
    (Ask.ofBody body).disposition ∈ [fileOverwrite, fileOverwriteIf, fileSupersede] →
      ∀ path n, s.state.resolve platform (Ask.ofBody body).name = some path → s.find path = some (.file n) →
        s.state.tree.read_only n = true → s.state.tree.data n = []
  /-- A handle that is closed with a mark of deletion was not asked to be kept after it. -/
  marked : (Ask.ofBody body).major = irpMjClose → ∀ f, s.state.drive.files (Ask.ofBody body).file_id = some f →
    f.delete_on_close = true → s.asked (Ask.ofBody body).file_id = true
  /-- The name at the source's offset renames as `FileName` does, or neither can be carried out. -/
  name : (Ask.ofBody body).sets fileRenameInformation → ∀ f, s.state.drive.files (Ask.ofBody body).file_id = some f →
      s.renamedTo platform f (State.renameName (Ask.ofBody body).buffer) = s.renameAsked platform f (Ask.ofBody body)

end Session

/-! ## What one request does -/

section Request

variable {platform}

/-- A request is carried out, or the tree is as it was. -/
def Reply.Settled {σ H M : Type} (s : State σ H) (r : Reply σ H M) : Prop :=
  r.status = statusSuccess ∨ r.state.tree = s.tree

namespace State

variable {σ H M : Type} {fs : Fs σ H M} {s : State σ H}

theorem createFolder_settled (path : Path) (disposition : UInt32) (there : Bool) (touched : List Touch) :
    (s.createFolder fs path disposition there touched).Settled s := by
  unfold createFolder
  split_ifs
  · rcases fs.createDir s.tree path with _ | tree
    · exact .inr rfl
    · exact .inl rfl
  · exact .inl rfl
  · exact .inr rfl
  · exact .inl rfl

theorem createFile_settled (path : Path) (disposition : UInt32) (there : Bool) (touched : List Touch) :
    (s.createFile fs path disposition there touched).Settled s := by
  unfold createFile
  rcases fileDisposition disposition there with status | ⟨opts, information⟩
  · exact .inr rfl
  dsimp only
  rcases fs.openWith s.tree path opts with _ | ⟨f, tree⟩
  · dsimp only
    rcases fs.openRead s.tree path with _ | f
    · exact .inr rfl
    · exact .inl rfl
  · exact .inl rfl

theorem create_settled (p : List UInt8) : (s.create platform fs p).Settled s := by
  unfold create
  dsimp only
  rcases s.resolve platform _ with _ | path
  · exact .inr rfl
  dsimp only
  split_ifs
  · exact createFolder_settled _ _ _ _
  · exact createFile_settled _ _ _ _

theorem close_settled (file_id : UInt32) : (s.close fs file_id : Reply σ H M).Settled s := by
  unfold close
  dsimp only
  rcases s.drive.files file_id with _ | f
  · exact .inl rfl
  · dsimp only
    by_cases hdelete : f.delete_on_close = true
    · rw [if_pos hdelete]
      exact .inl rfl
    · rw [if_neg hdelete]
      exact .inl rfl

theorem read_settled (file_id : UInt32) (p : List UInt8) : (s.read fs file_id p : Reply σ H M).Settled s := by
  unfold read
  dsimp only
  rcases s.drive.files file_id with _ | f
  · exact .inr rfl
  dsimp only
  rcases f.file with _ | file
  · exact .inr rfl
  dsimp only
  rcases fs.read s.tree file _ _ with _ | buf
  · exact .inr rfl
  · exact .inl rfl

theorem write_settled (file_id : UInt32) (p : List UInt8) : (s.write fs file_id p : Reply σ H M).Settled s := by
  unfold write
  dsimp only
  rcases s.drive.files file_id with _ | f
  · exact .inr rfl
  dsimp only
  rcases f.file with _ | file
  · exact .inr rfl
  dsimp only
  rcases fs.write s.tree file _ _ with _ | tree
  · exact .inr rfl
  · exact .inl rfl

theorem queryInfo_settled (file_id : UInt32) (p : List UInt8) : (s.queryInfo fs file_id p : Reply σ H M).Settled s := by
  unfold queryInfo
  dsimp only
  rcases s.drive.files file_id with _ | f
  · exact .inr rfl
  dsimp only
  rcases fs.metadata s.tree f.path with _ | md
  · exact .inr rfl
  · dsimp only
    split_ifs
    · exact .inr rfl
    · exact .inr rfl

theorem setInfo_settled (file_id : UInt32) (p : List UInt8) : (s.setInfo platform fs file_id p).Settled s := by
  unfold setInfo
  dsimp only
  rcases s.drive.files file_id with _ | f
  · exact .inr rfl
  dsimp only
  split_ifs
  · rcases f.file.bind _ with _ | tree
    · exact .inr rfl
    · exact .inl rfl
  · exact .inr rfl
  · rcases s.resolve platform _ with _ | dest
    · exact .inr rfl
    dsimp only
    rcases fs.rename s.tree f.path dest with _ | tree
    · exact .inr rfl
    · exact .inl rfl
  · exact .inr rfl
  · exact .inr rfl

theorem queryVolume_settled (p : List UInt8) : (s.queryVolume p : Reply σ H M).Settled s := by
  unfold queryVolume
  dsimp only
  split_ifs
  · exact .inr rfl
  · exact .inr rfl

theorem queryDirectory_settled (file_id : UInt32) (p : List UInt8) :
    (s.queryDirectory platform fs file_id p).Settled s := by
  unfold queryDirectory
  dsimp only
  rcases s.drive.files file_id with _ | f
  · exact .inr rfl
  dsimp only
  split_ifs
  · exact .inr rfl
  · rcases (s.entries fs f _).1[(s.entries fs f _).2.1]? with _ | name
    · exact .inr rfl
    · exact .inr rfl

theorem io_settled (body : List UInt8) : (s.io platform fs body).Settled s := by
  unfold io
  dsimp only
  split_ifs
  · exact create_settled _
  · exact close_settled _
  · exact read_settled _ _
  · exact write_settled _ _
  · exact queryInfo_settled _ _
  · exact setInfo_settled _ _
  · exact queryVolume_settled _
  · exact queryDirectory_settled _ _
  · exact .inr rfl
  · exact .inr rfl
  · exact .inr rfl

end State

namespace Session

variable {s : Session} {body : List UInt8}

theorem reply_create (h : (Ask.ofBody body).major = irpMjCreate) :
    s.reply platform body = s.state.create platform s.fs (Ask.ofBody body).params := if_pos h

theorem reply_close (h : (Ask.ofBody body).major = irpMjClose) :
    s.reply platform body = s.state.close s.fs (Ask.ofBody body).file_id := by
  have hne : (Ask.ofBody body).major ≠ irpMjCreate := by
    rw [h]
    decide
  exact (if_neg hne).trans (if_pos h)

theorem reply_read (h : (Ask.ofBody body).major = irpMjRead) :
    s.reply platform body = s.state.read s.fs (Ask.ofBody body).file_id (Ask.ofBody body).params := by
  have hne : (Ask.ofBody body).major ≠ irpMjCreate ∧ (Ask.ofBody body).major ≠ irpMjClose := by
    rw [h]
    decide
  exact (if_neg hne.1).trans ((if_neg hne.2).trans (if_pos h))

theorem reply_write (h : (Ask.ofBody body).major = irpMjWrite) :
    s.reply platform body = s.state.write s.fs (Ask.ofBody body).file_id (Ask.ofBody body).params := by
  have hne : (Ask.ofBody body).major ≠ irpMjCreate ∧ (Ask.ofBody body).major ≠ irpMjClose ∧
      (Ask.ofBody body).major ≠ irpMjRead := by
    rw [h]
    decide
  exact (if_neg hne.1).trans ((if_neg hne.2.1).trans ((if_neg hne.2.2).trans (if_pos h)))

theorem reply_setInfo (h : (Ask.ofBody body).major = irpMjSetInformation) : s.reply platform body =
      s.state.setInfo platform s.fs (Ask.ofBody body).file_id (Ask.ofBody body).params := by
  have hne : (Ask.ofBody body).major ≠ irpMjCreate ∧ (Ask.ofBody body).major ≠ irpMjClose ∧
      (Ask.ofBody body).major ≠ irpMjRead ∧ (Ask.ofBody body).major ≠ irpMjWrite ∧
        (Ask.ofBody body).major ≠ irpMjQueryInformation := by
    rw [h]
    decide
  exact (if_neg hne.1).trans ((if_neg hne.2.1).trans ((if_neg hne.2.2.1).trans
    ((if_neg hne.2.2.2.1).trans ((if_neg hne.2.2.2.2).trans (if_pos h)))))

/-! ### Create -/

inductive Opened (s : Session) (disposition : UInt32) (path : Path) : Tree → UInt8 → Prop
  | folder : s.find path = some .folder → Opened s disposition path s.state.tree fileOpened
  | newFolder : s.state.tree.vacant s.state.drive.device_id path = true →
      Opened s disposition path { s.state.tree with nodes := (path.names, .folder) :: s.state.tree.nodes } fileCreated
  | file (n : ℕ) : s.find path = some (.file n) → disposition ≠ fileCreate →
      Opened s disposition path s.state.tree fileOpened
  | emptied (n : ℕ) : s.find path = some (.file n) → disposition ≠ fileCreate →
      Opened s disposition path (s.state.tree.setData n []) fileOverwritten
  | kept (n : ℕ) : s.find path = some (.file n) → s.state.tree.read_only n = true →
      disposition ∈ [fileOverwrite, fileOverwriteIf, fileSupersede] →
        Opened s disposition path s.state.tree fileOverwritten
  | newFile (information : UInt8) : s.state.tree.vacant s.state.drive.device_id path = true →
      information ∈ [fileCreated, fileOpened] → Opened s disposition path (s.state.tree.newFile path).2 information

structure OpenedBy (s : Session) (disposition : UInt32) (path : Path) (r : Reply Tree Handle Node) : Prop where
  device : r.state.drive.device_id = s.state.drive.device_id
  opened : ∃ tree information, r.state.tree = tree ∧ r.information = some information ∧
    Opened s disposition path tree information

theorem find_of_vacant {path : Path} (h : s.state.tree.vacant s.state.drive.device_id path = true) :
    path.base = .share s.state.drive.device_id ∧ s.find path = none := by
  unfold Tree.vacant at h
  rw [Bool.and_eq_true, Bool.and_eq_true, Bool.and_eq_true, beq_iff_eq, Option.isNone_iff_eq_none] at h
  refine ⟨h.1.1.1, ?_⟩
  rw [find, Tree.find, if_pos h.1.1.1]
  exact h.1.2

theorem openedBy_of_opened {disposition : UInt32} {path : Path} {f : OpenFile Handle} {tree : Tree}
    {touched : List Touch} {information : UInt8} (h : Opened s disposition path tree information) :
    OpenedBy s disposition path (s.state.opened f tree touched information) :=
  ⟨rfl, tree, information, rfl, rfl, h⟩

theorem createFolder_opened {disposition : UInt32} {path : Path} {touched : List Touch}
    (hdir : s.find path = some .folder ∨ s.find path = none)
    (h : (s.state.createFolder s.fs path disposition (s.fs.exist s.state.tree path) touched).status = statusSuccess) :
    OpenedBy s disposition path
      (s.state.createFolder s.fs path disposition (s.fs.exist s.state.tree path) touched) := by
  have hexist : s.fs.exist s.state.tree path = (s.find path).isSome := rfl
  rcases hdir with hdir | hdir
  · have hopened : OpenedBy s disposition path (s.state.opened { path, is_dir := true } s.state.tree
        touched fileOpened) := openedBy_of_opened (.folder hdir)
    rw [hexist, hdir]
    unfold State.createFolder
    split_ifs
    · exact absurd ‹_› Bool.false_ne_true
    · exact hopened
    · exact absurd ‹_› Bool.false_ne_true
    · exact hopened
  · rw [hexist, hdir] at h ⊢
    unfold State.createFolder at h ⊢
    split_ifs at h ⊢
    · rcases hmade : s.fs.createDir s.state.tree path with _ | tree
      · rw [hmade] at h
        exact absurd (show statusUnsuccessful = statusSuccess from h) (by decide)
      · dsimp only
        refine openedBy_of_opened ?_
        have hvacant : s.state.tree.vacant s.state.drive.device_id path = true ∧
            { s.state.tree with nodes := (path.names, .folder) :: s.state.tree.nodes } = tree := by
          have hmade' : (if s.state.tree.vacant s.state.drive.device_id path then
            some { s.state.tree with nodes := (path.names, .folder) :: s.state.tree.nodes } else none) =
              some tree := hmade
          split_ifs at hmade' with hv
          exact ⟨hv, Option.some.inj hmade'⟩
        rw [← hvacant.2]
        exact .newFolder hvacant.1
    · exact absurd rfl ‹¬ _›
    · exact absurd (show statusNoSuchFile = statusSuccess from h) (by decide)
    · exact absurd rfl ‹¬ _›

theorem fileDisposition_there {disposition : UInt32} {opts : OpenOptions} {information : UInt8}
    (h : State.fileDisposition disposition true = .ok (opts, information)) :
    disposition ≠ fileCreate ∧ opts.create_new = false ∧ (opts.truncate = false ∧ information = fileOpened ∨
        opts.truncate = true ∧ information = fileOverwritten ∧
          disposition ∈ [fileOverwrite, fileOverwriteIf, fileSupersede]) := by
  unfold State.fileDisposition at h
  simp only [Bool.not_true, Bool.false_eq_true, if_false, if_true] at h
  split_ifs at h with hopen hcreate hopenIf hover hover'
  · cases h
    exact ⟨fun hcreate => absurd (hopen.symm.trans hcreate) (by decide), rfl, .inl ⟨rfl, rfl⟩⟩
  · cases h
    exact ⟨hcreate, rfl, .inl ⟨rfl, rfl⟩⟩
  · cases h
    exact ⟨hcreate, rfl, .inr ⟨rfl, rfl, by simp [hover]⟩⟩
  · cases h
    refine ⟨hcreate, rfl, .inr ⟨rfl, rfl, ?_⟩⟩
    rcases hover' with hover' | hover'
    · simp [hover']
    · simp [hover']
  · cases h
    exact ⟨hcreate, rfl, .inl ⟨rfl, rfl⟩⟩

theorem fileDisposition_error {disposition status : UInt32} {there : Bool} (h : status = statusSuccess) :
    State.fileDisposition disposition there ≠ .error status := by
  subst h
  unfold State.fileDisposition
  split_ifs <;> exact fun h => absurd h (by simp <;> decide)

theorem fileDisposition_absent {disposition : UInt32} {opts : OpenOptions} {information : UInt8}
    (h : State.fileDisposition disposition false = .ok (opts, information)) :
    information ∈ [fileCreated, fileOpened] := by
  unfold State.fileDisposition at h
  simp only [Bool.not_false, Bool.false_eq_true, if_false, if_true] at h
  split_ifs at h
  · cases h
    decide
  · cases h
    decide
  · cases h
    decide
  · cases h
    decide

theorem createFile_opened {disposition : UInt32} {path : Path} {touched : List Touch}
    (hdir : s.find path ≠ some .folder)
    (h : (s.state.createFile s.fs path disposition (s.fs.exist s.state.tree path) touched).status = statusSuccess) :
    OpenedBy s disposition path
      (s.state.createFile s.fs path disposition (s.fs.exist s.state.tree path) touched) := by
  have hexist : s.fs.exist s.state.tree path = (s.find path).isSome := rfl
  have hopenWith : ∀ opts, s.fs.openWith s.state.tree path opts =
      s.state.tree.openWith s.state.drive.device_id path opts := fun _ => rfl
  rw [hexist] at h ⊢
  unfold State.createFile at h ⊢
  rcases hasked : State.fileDisposition disposition (s.find path).isSome with status | ⟨opts, information⟩
  · rw [hasked] at h
    -- No refusal is a success.
    exact absurd hasked (fileDisposition_error h)
  rw [hasked] at h
  dsimp only at h ⊢
  rw [hopenWith] at h ⊢
  unfold Tree.openWith at h ⊢
  rcases hfind : s.find path with _ | node | n
  · -- Nothing is there.
    rw [hfind] at hasked
    have hinformation := fileDisposition_absent hasked
    have hfind' : s.state.tree.find s.state.drive.device_id path = none := hfind
    have hread : s.fs.openRead s.state.tree path = none := by
      unfold fs treeFs
      dsimp only
      rw [hfind']
    rw [hfind', hread] at h ⊢
    dsimp only at h ⊢
    split_ifs at h ⊢ with hmade
    · rw [Bool.and_eq_true] at hmade
      exact openedBy_of_opened (.newFile information hmade.2 hinformation)
    · exact absurd (show statusObjectNameNotFound = statusSuccess from h) (by decide)
  · exact absurd hfind hdir
  · rw [hfind] at hasked
    obtain ⟨hcreate, hnew, hinformation⟩ := fileDisposition_there hasked
    have hfind' : s.state.tree.find s.state.drive.device_id path = some (.file n) := hfind
    have hread : s.fs.openRead s.state.tree path = some ⟨n, false⟩ := by
      unfold fs treeFs
      dsimp only
      rw [hfind']
    rw [hfind', hread]
    dsimp only
    rw [hnew, Bool.false_or]
    by_cases hreadOnly : s.state.tree.read_only n = true
    · rw [if_pos hreadOnly]
      refine openedBy_of_opened ?_
      rcases hinformation with ⟨-, hinformation⟩ | ⟨-, hinformation, hover⟩
      · rw [hinformation]
        exact .file n hfind hcreate
      · rw [hinformation]
        exact .kept n hfind hreadOnly hover
    · rw [if_neg hreadOnly]
      refine openedBy_of_opened ?_
      rcases hinformation with ⟨htruncate, hinformation⟩ | ⟨htruncate, hinformation, -⟩
      · rw [hinformation, htruncate]
        exact .file n hfind hcreate
      · rw [hinformation, htruncate]
        exact .emptied n hfind hcreate

theorem reply_opened (hmajor : (Ask.ofBody body).major = irpMjCreate)
    (h : (s.reply platform body).status = statusSuccess) :
    ∃ path, s.state.resolve platform (Ask.ofBody body).name = some path ∧
      OpenedBy s (Ask.ofBody body).disposition path (s.reply platform body) := by
  have hname : decodeUnicode (bytesAt (Ask.ofBody body).params 32
      ((u32le (Ask.ofBody body).params 28).getD 0).toNat) = (Ask.ofBody body).name := rfl
  have hdisposition : (u32le (Ask.ofBody body).params 20).getD fileOpen = (Ask.ofBody body).disposition := rfl
  rw [reply_create hmajor] at h ⊢
  unfold State.create at h ⊢
  dsimp only at h ⊢
  rw [hname, hdisposition] at h ⊢
  rcases hpath : s.state.resolve platform (Ask.ofBody body).name with _ | path
  · rw [hpath] at h
    exact absurd (show statusAccessDenied = statusSuccess from h) (by decide)
  rw [hpath] at h
  dsimp only at h ⊢
  refine ⟨path, rfl, ?_⟩
  have hisDir : s.fs.isDir s.state.tree path = (s.find path == some .folder) := rfl
  have hexist : s.fs.exist s.state.tree path = (s.find path).isSome := rfl
  split_ifs at h ⊢ with hdir
  · refine createFolder_opened ?_ h
    rw [hisDir, hexist, Bool.or_eq_true, Bool.and_eq_true, beq_iff_eq, Bool.not_eq_true',
      Option.isSome_eq_false_iff, Option.isNone_iff_eq_none] at hdir
    exact hdir.imp_right And.right
  · refine createFile_opened (fun hfolder => hdir ?_) h
    rw [hisDir, hfolder]
    rfl

theorem reply_rename {f : OpenFile Handle} (h : (Ask.ofBody body).sets fileRenameInformation)
    (hf : s.state.drive.files (Ask.ofBody body).file_id = some f) :
    (s.renamedTo platform f (State.renameName (Ask.ofBody body).buffer) = none →
      (s.reply platform body).status = statusAccessDenied) ∧
    ∀ dest tree, s.renamedTo platform f (State.renameName (Ask.ofBody body).buffer) = some (dest, tree) →
      (s.reply platform body).status = statusSuccess ∧
        (s.reply platform body).state = s.state.set (Ask.ofBody body).file_id { f with path := dest } tree := by
  have hcls : (u32le (Ask.ofBody body).params 0).getD 0 = fileRenameInformation := h.2
  have hbuffer : bytesAt (Ask.ofBody body).params 32 ((u32le (Ask.ofBody body).params 4).getD 0).toNat =
      (Ask.ofBody body).buffer := rfl
  rw [reply_setInfo h.1]
  unfold State.setInfo renamedTo
  dsimp only
  rw [hf, hcls, hbuffer]
  dsimp only
  rw [if_neg (by decide), if_neg (by decide), if_pos rfl]
  rcases s.state.resolve platform (State.renameName (Ask.ofBody body).buffer) with _ | dest
  · exact ⟨fun _ => rfl, fun _ _ h => absurd h (Option.some_ne_none _).symm⟩
  rw [Option.bind_some]
  dsimp only
  rcases s.fs.rename s.state.tree f.path dest with _ | tree
  · exact ⟨fun _ => rfl, fun _ _ h => absurd h (Option.some_ne_none _).symm⟩
  · refine ⟨fun h => absurd h (Option.some_ne_none _), fun dest' tree' h => ?_⟩
    cases h
    exact ⟨rfl, rfl⟩

theorem reply_read_of_success (hmajor : (Ask.ofBody body).major = irpMjRead)
    (h : (s.reply platform body).status = statusSuccess) :
    ∃ f h, s.state.drive.files (Ask.ofBody body).file_id = some f ∧ f.file = some h ∧
      let bytes := ((s.state.tree.data h.number).drop ((u64le (Ask.ofBody body).params 4).getD 0).toNat).take
        ((u32le (Ask.ofBody body).params 0).getD 0).toNat
      (s.reply platform body).payload = .bytes (leBytes 4 bytes.length ++ bytes) := by
  rw [reply_read hmajor] at h ⊢
  unfold State.read at h ⊢
  dsimp only at h ⊢
  rcases hf : s.state.drive.files (Ask.ofBody body).file_id with _ | f
  · rw [hf] at h
    exact absurd (show statusUnsuccessful = statusSuccess from h) (by decide)
  rw [hf] at h
  dsimp only at h ⊢
  rcases hfile : f.file with _ | file
  · rw [hfile] at h
    exact absurd (show statusAccessDenied = statusSuccess from h) (by decide)
  rw [hfile] at h
  dsimp only at h ⊢
  have hread : ∀ offset length, s.fs.read s.state.tree file offset length =
      if offset.toNat < fileLimit then
        some (((s.state.tree.data file.number).drop offset.toNat).take length) else none :=
    fun _ _ => rfl
  rw [hread] at h ⊢
  by_cases hlimit : ((u64le (Ask.ofBody body).params 4).getD 0).toNat < fileLimit
  · rw [if_pos hlimit]
    exact ⟨f, file, rfl, hfile, rfl⟩
  · rw [if_neg hlimit] at h
    exact absurd (show statusUnsuccessful = statusSuccess from h) (by decide)

theorem reply_write_of_success (hmajor : (Ask.ofBody body).major = irpMjWrite)
    (h : (s.reply platform body).status = statusSuccess) :
    ∃ f h, s.state.drive.files (Ask.ofBody body).file_id = some f ∧ f.file = some h ∧
      (s.reply platform body).state.tree = s.state.tree.setData h.number
        (Tree.put (s.state.tree.data h.number) ((u64le (Ask.ofBody body).params 4).getD 0).toNat
          (bytesAt (Ask.ofBody body).params 32 ((u32le (Ask.ofBody body).params 0).getD 0).toNat)) := by
  rw [reply_write hmajor] at h ⊢
  unfold State.write at h ⊢
  dsimp only at h ⊢
  rcases hf : s.state.drive.files (Ask.ofBody body).file_id with _ | f
  · rw [hf] at h
    exact absurd (show statusUnsuccessful = statusSuccess from h) (by decide)
  rw [hf] at h
  dsimp only at h ⊢
  rcases hfile : f.file with _ | file
  · rw [hfile] at h
    exact absurd (show statusAccessDenied = statusSuccess from h) (by decide)
  rw [hfile] at h
  dsimp only at h ⊢
  have hwrite : ∀ offset new, s.fs.write s.state.tree file offset new =
      if file.writable && decide (offset.toNat + new.length < fileLimit) then
        some (s.state.tree.setData file.number (Tree.put (s.state.tree.data file.number) offset.toNat new))
      else none := fun _ _ => rfl
  rw [hwrite] at h ⊢
  split_ifs at h ⊢ with hlimit
  · exact ⟨f, file, rfl, hfile, rfl⟩
  · exact absurd (show statusAccessDenied = statusSuccess from h) (by decide)

theorem marked_of_close (hmajor : (Ask.ofBody body).major = irpMjClose)
    (h : (s.reply platform body).state.tree ≠ s.state.tree) :
    ∃ f, s.state.drive.files (Ask.ofBody body).file_id = some f ∧ f.delete_on_close = true := by
  rw [reply_close hmajor] at h
  unfold State.close at h
  dsimp only at h
  rcases hf : s.state.drive.files (Ask.ofBody body).file_id with _ | f
  · rw [hf] at h
    exact absurd rfl h
  rw [hf] at h
  dsimp only at h
  by_cases hdelete : f.delete_on_close = true
  · exact ⟨f, rfl, hdelete⟩
  · rw [if_neg hdelete] at h
    exact absurd rfl h

theorem find_cons {path : Path} {t : Tree} {device_id : UInt32} {node : Node}
    (hbase : path.base = .share device_id) :
    Tree.find { t with nodes := (path.names, node) :: t.nodes } device_id path = some node := by
  rw [Tree.find, if_pos hbase]
  exact List.lookup_cons_self

theorem opened_at {path : Path} (hmajor : (Ask.ofBody body).major = irpMjCreate)
    (hstatus : (s.reply platform body).status = statusSuccess)
    (hpath : s.state.resolve platform (Ask.ofBody body).name = some path) :
    ∃ tree information, (s.reply platform body).state.tree = tree ∧
      (s.reply platform body).information = some information ∧
      Opened s (Ask.ofBody body).disposition path tree information ∧
      (s.step platform body).find path = tree.find s.state.drive.device_id path := by
  obtain ⟨path', hpath', hby⟩ := reply_opened hmajor hstatus
  rw [hpath] at hpath'
  cases hpath'
  obtain ⟨tree, information, htree, hinformation, hopened⟩ := hby.opened
  refine ⟨tree, information, htree, hinformation, hopened, ?_⟩
  rw [← htree, ← hby.device]
  rfl

theorem Sound.faithful (h : Sound platform s body) : Faithful platform s body where
  unchanged hstatus := (State.io_settled body).resolve_left hstatus
  fresh hmajor _ := h.next hmajor
  create_new hmajor hnew hstatus path hpath := by
    obtain ⟨tree, information, -, -, hopened, -⟩ := opened_at hmajor hstatus hpath
    cases hopened with
    | folder hfind => exact absurd hfind (h.folder hmajor hnew path hpath)
    | newFolder hvacant => exact (find_of_vacant hvacant).2
    | file n _ hne => exact absurd hnew hne
    | emptied n _ hne => exact absurd hnew hne
    | kept n _ _ hover =>
      rw [hnew] at hover
      exact absurd hover (by decide)
    | newFile _ hvacant _ => exact (find_of_vacant hvacant).2
  created hmajor hstatus hcreated path hpath := by
    obtain ⟨tree, information, -, hinformation, hopened, hfind⟩ := opened_at hmajor hstatus hpath
    rw [hinformation] at hcreated
    rw [hfind]
    cases hopened with
    | folder _ => exact absurd (Option.some.inj hcreated) (by decide)
    | newFolder hvacant =>
      obtain ⟨hbase, hnone⟩ := find_of_vacant hvacant
      exact ⟨hnone, by rw [find_cons hbase]; exact Option.some_ne_none _⟩
    | file n _ _ => exact absurd (Option.some.inj hcreated) (by decide)
    | emptied n _ _ => exact absurd (Option.some.inj hcreated) (by decide)
    | kept n _ _ _ => exact absurd (Option.some.inj hcreated) (by decide)
    | newFile _ hvacant _ =>
      obtain ⟨hbase, hnone⟩ := find_of_vacant hvacant
      refine ⟨hnone, ?_⟩
      rw [Tree.find, if_pos hbase]
      have hfound : List.lookup path.names ((path.names, Node.file s.state.tree.next) :: s.state.tree.nodes) =
          some (.file s.state.tree.next) := List.lookup_cons_self
      exact fun hlookup => Option.some_ne_none _ (hfound.symm.trans hlookup)
  overwritten hmajor hstatus hover path hpath := by
    obtain ⟨tree, information, htree, hinformation, hopened, hfind⟩ := opened_at hmajor hstatus hpath
    rw [hinformation] at hover
    have hdata : (s.step platform body).state.tree.data = tree.data := by
      rw [← htree]
      rfl
    rw [hfind, hdata]
    cases hopened with
    | folder _ => exact absurd (Option.some.inj hover) (by decide)
    | newFolder _ => exact absurd (Option.some.inj hover) (by decide)
    | file n _ _ => exact absurd (Option.some.inj hover) (by decide)
    | emptied n hfile _ => exact ⟨n, hfile, hfile, Function.update_self _ _ _⟩
    | kept n hfile hreadOnly hasked => exact ⟨n, hfile, hfile, h.read_only hmajor hasked path n hpath hfile hreadOnly⟩
    | newFile _ hvacant hnew =>
      rw [Option.some.inj hover] at hnew
      exact absurd hnew (by decide)
  read := reply_read_of_success
  written := reply_write_of_success
  removed hmajor hne := by
    obtain ⟨f, hf, hdelete⟩ := marked_of_close hmajor hne
    exact h.marked hmajor f hf hdelete
  renamed hsets f hf dest tree hasked := by
    rw [← h.name hsets f hf] at hasked
    obtain ⟨hstatus, hstate⟩ := (reply_rename hsets hf).2 dest tree hasked
    rw [hstate]
    exact ⟨hstatus, rfl, Function.update_self _ _ _⟩
  refused hsets f hf hasked := by
    rw [← h.name hsets f hf] at hasked
    rw [(reply_rename hsets hf).1 hasked]
    decide

end Session

end Request

/-- A request of the drive 1. -/
def asking (file_id major : UInt32) (params : List UInt8) : List UInt8 :=
  leBytes 4 1 ++ leBytes 4 file_id.toNat ++ leBytes 4 0 ++ leBytes 4 major.toNat ++ leBytes 4 0 ++ params

def creating (disposition : UInt32) (name : List UInt8) : List UInt8 :=
  asking 0 irpMjCreate (List.replicate 20 0 ++ leBytes 4 disposition.toNat ++ leBytes 4 0 ++
    leBytes 4 name.length ++ name)

/-- To set information about the handle 1. -/
def setting (cls : UInt32) (buffer : List UInt8) : List UInt8 :=
  asking 1 irpMjSetInformation (leBytes 4 cls.toNat ++ leBytes 4 buffer.length ++ List.replicate 24 0 ++ buffer)

/-- A folder `a`, and a file `b` that is read-only. -/
def sample : Tree where
  nodes := [([], .folder), ([['a']], .folder), ([['b']], .file 0)]
  data := Function.update (fun _ => []) 0 [1, 2, 3]
  read_only := Function.update (fun _ => false) 0 true
  next := 1

end Rdpio.Channels.Rdpdr
