import Rdpio.Lib.Bytes

/-!
# Clipboard redirection

`crates/rdp-channels/src/cliprdr.rs`.
-/

namespace Rdpio.Channels.Cliprdr

open Lib

def isHighSurrogate (u : UInt16) : Bool := 0xD800 ≤ u && u < 0xDC00

def isLowSurrogate (u : UInt16) : Bool := 0xDC00 ≤ u && u < 0xE000

def loneUnit (u : UInt16) : Char := Char.ofNat (if isHighSurrogate u || isLowSurrogate u then 0xFFFD else u.toNat)

def fromUtf16Lossy : List UInt16 → List Char
  | [] => []
  | [u] => [loneUnit u]
  | u :: v :: rest =>
    if isHighSurrogate u && isLowSurrogate v then
      Char.ofNat (0x10000 + (u.toNat - 0xD800) * 0x400 + (v.toNat - 0xDC00)) :: fromUtf16Lossy rest
    else loneUnit u :: fromUtf16Lossy (v :: rest)

def encodeUtf16 (c : Char) : List UInt16 :=
  if c.toNat < 0x10000 then [UInt16.ofNat c.toNat]
  else
    let n := c.toNat - 0x10000
    [UInt16.ofNat (0xD800 + n / 0x400), UInt16.ofNat (0xDC00 + n % 0x400)]

def toUtf16 (s : List Char) : List UInt16 := s.flatMap encodeUtf16

def leUnits (units : List UInt16) : List UInt8 := units.flatMap fun u => leBytes 2 u.toNat

def unitsLe : List UInt8 → List UInt16
  | lo :: hi :: rest => UInt16.ofNat (ofLe [lo, hi]) :: unitsLe rest
  | _ => []

/-! ## Messages -/

structure ClipFile where
  name : List Char
  size : UInt64
  is_dir : Bool
deriving DecidableEq

def cbMonitorReady : UInt16 := 0x0001

def cbFormatList : UInt16 := 0x0002

def cbFormatListResponse : UInt16 := 0x0003

def cbFormatDataRequest : UInt16 := 0x0004

def cbFormatDataResponse : UInt16 := 0x0005

def cbClipCaps : UInt16 := 0x0007

def cbFilecontentsRequest : UInt16 := 0x0008

def cbFilecontentsResponse : UInt16 := 0x0009

def cbResponseOk : UInt16 := 0x0001

def cbResponseFail : UInt16 := 0x0002

def filecontentsSize : UInt32 := 0x0001

def filecontentsRange : UInt32 := 0x0002

def cfFilegroupdescriptorw : UInt32 := 0xC0C0

def cbStreamFileclipEnabled : UInt32 := 0x0004

def fdAttributes : UInt32 := 0x0004

def fdFilesize : UInt32 := 0x0040

def fileAttributeArchive : UInt32 := 0x0020

def fileAttributeDirectory : UInt32 := 0x0010

def cbCapstypeGeneral : UInt16 := 0x0001

def cbCapsVersion2 : UInt32 := 0x0002

def cbUseLongFormatNames : UInt32 := 0x0002

def cfUnicodetext : UInt32 := 13

def cfDib : UInt32 := 8

def u16le (v : UInt16) : List UInt8 := leBytes 2 v.toNat

def u32le (v : UInt32) : List UInt8 := leBytes 4 v.toNat

def u64le (v : UInt64) : List UInt8 := leBytes 8 v.toNat

/-- A clipboard message: type, flags and data. -/
structure Message where
  msg_type : UInt16
  msg_flags : UInt16
  data : List UInt8
deriving DecidableEq

def Message.bytes (m : Message) : List UInt8 :=
  u16le m.msg_type ++ u16le m.msg_flags ++ u32le (UInt32.ofNat m.data.length) ++ m.data

def Message.read (msg : List UInt8) : Option Message :=
  if msg.length < 8 then none
  else
    let data_len := ofLe ((msg.drop 4).take 4)
    let body := msg.drop 8
    some
      { msg_type := UInt16.ofNat (ofLe (msg.take 2))
        msg_flags := UInt16.ofNat (ofLe ((msg.drop 2).take 2))
        data := if data_len ≤ body.length then body.take data_len else body }

def capabilities : Message :=
  ⟨cbClipCaps, 0, u16le 1 ++ u16le 0 ++ u16le cbCapstypeGeneral ++ u16le 12 ++ u32le cbCapsVersion2 ++
    u32le (cbUseLongFormatNames ||| cbStreamFileclipEnabled)⟩

def utf16z (s : List Char) : List UInt8 := leUnits (toUtf16 s) ++ [0, 0]

def fileGroupName : List Char := "FileGroupDescriptorW".toList

def formatList (has_text has_files has_image : Bool) : Message :=
  ⟨cbFormatList, 0, (if has_text then u32le cfUnicodetext ++ [0, 0] else []) ++
    (if has_image then u32le cfDib ++ [0, 0] else []) ++
    (if has_files then u32le cfFilegroupdescriptorw ++ utf16z fileGroupName else [])⟩

/-- One `FILEDESCRIPTORW`. -/
def fileDescriptor (f : ClipFile) : List UInt8 :=
  let name := (toUtf16 f.name).take 259
  u32le (fdAttributes ||| fdFilesize) ++ List.replicate 32 (0 : UInt8) ++
    u32le (if f.is_dir then fileAttributeDirectory else fileAttributeArchive) ++
    List.replicate 16 (0 : UInt8) ++ u64le 0 ++ u32le (f.size >>> 32).toUInt32 ++ u32le f.size.toUInt32 ++
    leUnits (name ++ List.replicate (260 - name.length) 0)

def fileGroupDescriptor (files : List ClipFile) : List UInt8 :=
  u32le (UInt32.ofNat files.length) ++ files.flatMap fileDescriptor

def unicodeResponse (text : List Char) : List UInt8 := utf16z text

def decodeUnicode (data : List UInt8) : List Char := fromUtf16Lossy ((unitsLe data).takeWhile (· ≠ 0))

def formatName : List UInt8 → List UInt16 × List UInt8
  | lo :: hi :: rest =>
    let u := UInt16.ofNat (ofLe [lo, hi])
    if u = 0 then ([], rest)
    else
      let (units, rest) := formatName rest
      (u :: units, rest)
  | rest => ([], rest)

theorem length_formatName_le (data : List UInt8) : (formatName data).2.length ≤ data.length := by
  fun_induction formatName data with
  | case1 lo hi rest =>
    simp only [List.length_cons]
    omega
  | case2 lo hi rest u hu units rest' h ih =>
    have ih' : rest'.length ≤ rest.length := by rwa [h] at ih
    simp only [List.length_cons]
    omega
  | case3 rest => exact Nat.le_refl _

def parseFormatList (data : List UInt8) : List (UInt32 × List Char) :=
  if data.length < 4 then []
  else
    let name := formatName (data.drop 4)
    (UInt32.ofNat (ofLe (data.take 4)), fromUtf16Lossy name.1) :: parseFormatList name.2
termination_by data.length
decreasing_by
  have := length_formatName_le (data.drop 4)
  rw [List.length_drop] at this
  omega

def rec : ℕ := 592

def readDescriptor (r : List UInt8) : ClipFile :=
  let number (i : ℕ) : ℕ := ofLe ((r.drop i).take 4)
  let attrs := UInt32.ofNat (number 36)
  let size : UInt64 := UInt64.ofNat (number 64) <<< 32 ||| UInt64.ofNat (number 68)
  let is_dir := attrs &&& fileAttributeDirectory != 0
  { name := fromUtf16Lossy ((unitsLe ((r.drop 72).take 520)).takeWhile (· ≠ 0))
    size := if is_dir then 0 else size
    is_dir }

def readDescriptors : ℕ → List UInt8 → List ClipFile
  | 0, _ => []
  | count + 1, data =>
    if data.length < rec then []
    else readDescriptor (data.take rec) :: readDescriptors count (data.drop rec)

def parseFileDescriptors (data : List UInt8) : List ClipFile :=
  if data.length < 4 then [] else readDescriptors (ofLe (data.take 4)) (data.drop 4)

def fileContentsRequest (stream_id index : UInt32) (offset : UInt64) (len : UInt32) : Message :=
  ⟨cbFilecontentsRequest, 0, u32le stream_id ++ u32le index ++ u32le filecontentsRange ++
    u32le offset.toUInt32 ++ u32le (offset >>> 32).toUInt32 ++ u32le len ++ u32le 0⟩

def fileChunk : UInt32 := 8 * 1024 * 1024

def formatDataRequest (id : UInt32) : Message := ⟨cbFormatDataRequest, 0, u32le id⟩

def respond (msg_type : UInt16) (head : List UInt8) : Option (List UInt8) → List Message
  | some d => [⟨msg_type, cbResponseOk, head ++ d⟩]
  | none => [⟨msg_type, cbResponseFail, head⟩]

theorem msg_type_respond {msg_type : UInt16} {head : List UInt8} {d : Option (List UInt8)} {m : Message}
    (h : m ∈ respond msg_type head d) : m.msg_type = msg_type := by
  cases d <;> cases List.mem_singleton.mp h <;> rfl

/-- What the provider would answer at one step. -/
structure Provider where
  get_text : Option (List Char)
  get_files : List ClipFile
  get_image : Option (List UInt8)
  read_file : UInt32 → UInt64 → UInt32 → Option (List UInt8)
  wants_remote_files : Bool

/-- A call that tells the provider something. -/
inductive Call where
  | setContents (text : Option (List Char)) (image : Option (List UInt8))
  | offerRemoteFiles (files : List ClipFile)
  | beginRemoteFile (name : List Char) (size : UInt64) (is_dir : Bool)
  | writeRemoteChunk (data : List UInt8)
  | endRemoteFile
  | finishRemoteFiles
  | abortRemoteFiles
deriving DecidableEq

/-! ## The channel -/

structure ClipboardChannel where
  ready : Bool
  /-- The entries the session offered. -/
  remote_files : List ClipFile
  /-- The entry being received, and how many of its bytes have arrived. -/
  fetch_index : ℕ
  fetch_received : UInt64
  /-- A contents transfer is in flight. -/
  fetching : Bool
  /-- The next data response is the file list. -/
  expecting_descriptors : Bool
  /-- Outstanding data requests, the one in flight in front. -/
  pending_formats : List UInt32
  /-- Formats fetched for the paste in progress. -/
  paste_text : Option (List Char)
  paste_image : Option (List UInt8)
  stream_id : UInt32
  /-- The entries as last sent to the session. -/
  local_files : List ClipFile

namespace ClipboardChannel

def new : ClipboardChannel := ⟨false, [], 0, 0, false, false, [], none, none, 0, []⟩

abbrev Outcome := ClipboardChannel × List Message × List Call

def pump (c : ClipboardChannel) : Outcome :=
  if h : c.fetch_index < c.remote_files.length then
    let entry := c.remote_files.get ⟨c.fetch_index, h⟩
    if entry.is_dir then
      let (c, out, calls) := pump { c with fetch_index := c.fetch_index + 1 }
      (c, out, .beginRemoteFile entry.name 0 true :: .endRemoteFile :: calls)
    else
      let begun : List Call :=
        if c.fetch_received = 0 then [.beginRemoteFile entry.name entry.size false] else []
      if entry.size ≤ c.fetch_received then
        let (c, out, calls) := pump { c with fetch_index := c.fetch_index + 1, fetch_received := 0 }
        (c, out, begun ++ .endRemoteFile :: calls)
      else
        let len := (min (entry.size - c.fetch_received) fileChunk.toUInt64).toUInt32
        let c := { c with stream_id := c.stream_id + 1 }
        (c, [fileContentsRequest c.stream_id (UInt32.ofNat c.fetch_index) c.fetch_received len], begun)
  else ({ c with remote_files := [], fetching := false }, [], [.finishRemoteFiles])
termination_by c.remote_files.length - c.fetch_index

def beginFileFetch (c : ClipboardChannel) : Outcome :=
  if c.fetching || c.remote_files.isEmpty then (c, [], [])
  else { c with fetching := true, fetch_index := 0, fetch_received := 0 }.pump

def nextFormatRequest (c : ClipboardChannel) : List Message :=
  match c.pending_formats.head? with
  | some id => [formatDataRequest id]
  | none => []

def onMonitorReady (c : ClipboardChannel) (p : Provider) : Outcome :=
  ({ c with ready := true }, [capabilities, formatList p.get_text.isSome (!p.get_files.isEmpty) p.get_image.isSome], [])

def fileFormat (data : List UInt8) : Option UInt32 :=
  ((parseFormatList data).find? fun f => f.2 == fileGroupName).map (·.1)

/-- The contents formats asked for, in order. -/
def wantedFormats (data : List UInt8) : List UInt32 :=
  let formats := parseFormatList data
  let has_text := (formats.any fun f => f.1 == cfUnicodetext) || (formats.isEmpty && !data.isEmpty)
  let has_image := formats.any fun f => f.1 == cfDib
  (if has_text then [cfUnicodetext] else []) ++ (if has_image then [cfDib] else [])

def onFormatList (c : ClipboardChannel) (p : Provider) (data : List UInt8) : Outcome :=
  let ack : Message := ⟨cbFormatListResponse, cbResponseOk, []⟩
  match if p.wants_remote_files then fileFormat data else none with
  | some id =>
    ({ c with
        expecting_descriptors := true
        fetching := false
        remote_files := []
        fetch_index := 0
        fetch_received := 0 },
      [ack, formatDataRequest id], if c.fetching then [.abortRemoteFiles] else [])
  | none =>
    let c := { c with pending_formats := wantedFormats data }
    (c, ack :: c.nextFormatRequest, [])

def onFormatDataRequest (c : ClipboardChannel) (p : Provider) (data : List UInt8) : Outcome :=
  let format_id := UInt32.ofNat (ofLe (data.take 4))
  let answer := respond cbFormatDataResponse []
  if format_id = cfFilegroupdescriptorw then
    ({ c with local_files := p.get_files },
      answer (if p.get_files.isEmpty then none else some (fileGroupDescriptor p.get_files)), [])
  else if format_id = cfDib then (c, answer p.get_image, [])
  else (c, answer (p.get_text.map unicodeResponse), [])

def onFormatDataResponse (c : ClipboardChannel) (ok : Bool) (data : List UInt8) : Outcome :=
  if !ok then
    let c := { c with expecting_descriptors := false, pending_formats := c.pending_formats.tail }
    (c, c.nextFormatRequest, [])
  else if c.expecting_descriptors then
    let files := parseFileDescriptors data
    ({ c with
        expecting_descriptors := false
        remote_files := files
        fetch_index := 0
        fetch_received := 0 }, [], [.offerRemoteFiles files])
  else
    let c := match c.pending_formats.head? with
      | some id =>
        if id = cfDib then { c with paste_image := some data }
        else { c with paste_text := some (decodeUnicode data) }
      | none => { c with paste_text := some (decodeUnicode data) }
    let c := { c with pending_formats := c.pending_formats.tail }
    if c.pending_formats.isEmpty then
      ({ c with paste_text := none, paste_image := none }, c.nextFormatRequest,
        [.setContents c.paste_text c.paste_image])
    else (c, c.nextFormatRequest, [])

def onFileContentsResponse (c : ClipboardChannel) (ok : Bool) (data : List UInt8) : Outcome :=
  if !c.fetching then (c, [], [])
  else if ok then
    let chunk := data.drop 4
    let received := c.fetch_received + UInt64.ofNat chunk.length
    let c := { c with
      fetch_received := received
      remote_files := if chunk.isEmpty then
          c.remote_files.modify c.fetch_index fun e => { e with size := received }
        else c.remote_files }
    let (c, out, calls) := c.pump
    (c, out, .writeRemoteChunk chunk :: calls)
  else ({ c with remote_files := [], fetching := false }, [], [.abortRemoteFiles])

def onFileContentsRequest (c : ClipboardChannel) (p : Provider) (data : List UInt8) : Outcome :=
  let rd (i : ℕ) : UInt32 := UInt32.ofNat (ofLe ((data.drop i).take 4))
  let stream_id := rd 0
  let index := rd 4
  let flags := rd 8
  let offset : UInt64 := (rd 16).toUInt64 <<< 32 ||| (rd 12).toUInt64
  let requested := rd 20
  let answer := respond cbFilecontentsResponse (u32le stream_id)
  if flags &&& filecontentsSize ≠ 0 then (c, answer (c.local_files[index.toNat]?.map fun e => u64le e.size), [])
  else if flags &&& filecontentsRange ≠ 0 then (c, answer (p.read_file index offset requested), [])
  else (c, answer none, [])

def handle (c : ClipboardChannel) (p : Provider) (m : Message) : Outcome :=
  let ok := m.msg_flags &&& cbResponseOk != 0
  if m.msg_type = cbMonitorReady then c.onMonitorReady p
  else if m.msg_type = cbFormatList then c.onFormatList p m.data
  else if m.msg_type = cbFormatDataRequest then c.onFormatDataRequest p m.data
  else if m.msg_type = cbFormatDataResponse then c.onFormatDataResponse ok m.data
  else if m.msg_type = cbFilecontentsResponse then c.onFileContentsResponse ok m.data
  else if m.msg_type = cbFilecontentsRequest then c.onFileContentsRequest p m.data
  else (c, [], [])

def process (c : ClipboardChannel) (p : Provider) (msg : List UInt8) : Outcome :=
  match Message.read msg with
  | none => (c, [], [])
  | some m => c.handle p m

def announceLocal (c : ClipboardChannel) (has_text has_files has_image : Bool) : Option Message :=
  if c.ready then some (formatList has_text has_files has_image) else none

end ClipboardChannel

end Rdpio.Channels.Cliprdr
