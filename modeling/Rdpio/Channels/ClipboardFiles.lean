import Rdpio.Channels.Cliprdr
import Rdpio.Lib.Run

/-!
# Files fetched from the session

The download of `crates/rdp-channels/src/cliprdr.rs`: `begin_file_fetch` and each answer `pump` the entries
along, with one request out at a time.
-/

namespace Rdpio.Channels.Cliprdr

open Lib

/-- What a File Contents Request asks for. -/
structure Request where
  stream_id : UInt32
  index : UInt32
  offset : UInt64
  len : UInt32
deriving DecidableEq

def Request.ofMessage (m : Message) : Option Request :=
  let rd (i : ℕ) : UInt32 := UInt32.ofNat (ofLe ((m.data.drop i).take 4))
  if m.msg_type = cbFilecontentsRequest then some ⟨rd 0, rd 4, UInt64.ofNat (ofLe ((m.data.drop 12).take 8)), rd 20⟩
  else none

inductive Answer where
  /-- The outstanding request, with bytes. -/
  | data (chunk : List UInt8)
  | fail
deriving DecidableEq

def Answer.Serves (content : ℕ → List UInt8) (r : Request) : Answer → Prop
  | .data chunk => chunk ≠ [] ∧ chunk <+: ((content r.index.toNat).drop r.offset.toNat).take r.len.toNat
  | .fail => False

instance (content : ℕ → List UInt8) (r : Request) : (a : Answer) → Decidable (a.Serves content r)
  | .data _ => inferInstanceAs (Decidable (_ ∧ _))
  | .fail => inferInstanceAs (Decidable False)

theorem Answer.Serves.exists_data {content : ℕ → List UInt8} {r : Request} {a : Answer}
    (h : a.Serves content r) : ∃ chunk, a = .data chunk ∧ chunk ≠ [] ∧
      chunk <+: ((content r.index.toNat).drop r.offset.toNat).take r.len.toNat := by
  cases a with
  | data chunk => exact ⟨chunk, rfl, h⟩
  | fail => exact h.elim

structure Download where
  chan : ClipboardChannel
  calls : List Call
  out : List Request

namespace Download

/-- The user pastes. -/
def start (c : ClipboardChannel) : Download :=
  let (chan, out, calls) := c.beginFileFetch
  ⟨chan, calls, out.filterMap Request.ofMessage⟩

def message (stream_id : UInt32) : Answer → Message
  | .data chunk => ⟨cbFilecontentsResponse, cbResponseOk, u32le stream_id ++ chunk⟩
  | .fail => ⟨cbFilecontentsResponse, cbResponseFail, u32le stream_id⟩

def step (p : Provider) (σ : Download) (a : Answer) : Download :=
  match σ.out with
  | [] => σ
  | r :: rest =>
    let (chan, out, calls) := σ.chan.process p (message r.stream_id a).bytes
    ⟨chan, σ.calls ++ calls, rest ++ out.filterMap Request.ofMessage⟩

theorem step_of_nil (p : Provider) {σ : Download} {a : Answer} (h : σ.out = []) : σ.step p a = σ := by
  unfold step
  rw [h]

def Honest (content : ℕ → List UInt8) (σ : Download) (a : Answer) : Prop := ∀ r ∈ σ.out.head?, a.Serves content r

instance (content : ℕ → List UInt8) (σ : Download) (a : Answer) : Decidable (Honest content σ a) :=
  inferInstanceAs (Decidable (∀ r ∈ σ.out.head?, _))

end Download

inductive Delivered (content : ℕ → List UInt8) (entries : List ClipFile) : ℕ → List Call → Prop
  | nil : Delivered content entries 0 []
  | folder {i : ℕ} {calls : List Call} {e : ClipFile} : Delivered content entries i calls →
      entries[i]? = some e → e.is_dir = true →
      Delivered content entries (i + 1) (calls ++ [.beginRemoteFile e.name 0 true, .endRemoteFile])
  | file {i : ℕ} {calls : List Call} {e : ClipFile} {chunks : List (List UInt8)} :
      Delivered content entries i calls → entries[i]? = some e → e.is_dir = false →
      chunks.flatten = content i →
      Delivered content entries (i + 1) (calls ++
        (.beginRemoteFile e.name e.size false :: chunks.map .writeRemoteChunk ++ [.endRemoteFile]))

theorem Message.read_bytes {m : Message} (h : m.data.length < 2^32) : Message.read m.bytes = some m := by
  have hlen : m.bytes.length = 8 + m.data.length := by
    simp [bytes, u16le, u32le]
    omega
  have htype : m.bytes.take 2 = leBytes 2 m.msg_type.toNat := by simp [bytes, u16le]
  have hflags : (m.bytes.drop 2).take 2 = leBytes 2 m.msg_flags.toNat := by simp [bytes, u16le]
  have hdata : (m.bytes.drop 4).take 4 = leBytes 4 (UInt32.ofNat m.data.length).toNat := by
    simp [bytes, u16le, u32le]
  have hbody : m.bytes.drop 8 = m.data := by simp [bytes, u16le, u32le]
  have hl : (UInt32.ofNat m.data.length).toNat = m.data.length := by
    rw [UInt32.toNat_ofNat']
    omega
  unfold read
  rw [if_neg (by omega)]
  dsimp only
  rw [htype, hflags, hdata, hbody, ofLe_leBytes_of_lt m.msg_type.toNat_lt,
    ofLe_leBytes_of_lt m.msg_flags.toNat_lt, ofLe_leBytes_of_lt (UInt32.toNat_lt _), hl,
    if_pos (Nat.le_refl _), List.take_length, UInt16.ofNat_toNat, UInt16.ofNat_toNat]

theorem Message.read_bytes_head (m : Message) : ∃ d, Message.read m.bytes = some ⟨m.msg_type, m.msg_flags, d⟩ := by
  have hlen : 8 ≤ m.bytes.length := by
    simp [bytes, u16le, u32le]
    omega
  have htype : m.bytes.take 2 = leBytes 2 m.msg_type.toNat := by simp [bytes, u16le]
  have hflags : (m.bytes.drop 2).take 2 = leBytes 2 m.msg_flags.toNat := by simp [bytes, u16le]
  unfold read
  rw [if_neg (by omega)]
  dsimp only
  rw [htype, hflags, ofLe_leBytes_of_lt m.msg_type.toNat_lt,
    ofLe_leBytes_of_lt m.msg_flags.toNat_lt, UInt16.ofNat_toNat, UInt16.ofNat_toNat]
  exact ⟨_, rfl⟩

theorem ofLe_offset (offset : UInt64) :
    ofLe (u32le offset.toUInt32 ++ u32le (offset >>> 32).toUInt32) = offset.toNat := by
  have hlt := offset.toNat_lt
  have hhigh : (offset >>> 32).toNat = offset.toNat / 2^32 := by
    rw [UInt64.toNat_shiftRight]
    exact Nat.shiftRight_eq_div_pow _ _
  rw [ofLe_append, u32le, u32le, length_leBytes, ofLe_leBytes_of_lt (UInt32.toNat_lt _),
    ofLe_leBytes_of_lt (UInt32.toNat_lt _), UInt64.toNat_toUInt32, UInt64.toNat_toUInt32, hhigh]
  omega

theorem Request.ofMessage_fileContentsRequest (stream_id index : UInt32) (offset : UInt64)
    (len : UInt32) : Request.ofMessage (fileContentsRequest stream_id index offset len) =
      some ⟨stream_id, index, offset, len⟩ := by
  have hnumber : ∀ v : UInt32, UInt32.ofNat (ofLe (leBytes 4 v.toNat)) = v := fun v => by
    rw [ofLe_leBytes_of_lt v.toNat_lt, UInt32.ofNat_toNat]
  have hoffset := ofLe_offset offset
  unfold u32le at hoffset
  have hboth : ∀ (a b : ℕ) (rest : List UInt8), (leBytes 4 a ++ (leBytes 4 b ++ rest)).take 8 =
      leBytes 4 a ++ leBytes 4 b := by
    intro a b rest
    rw [← List.append_assoc]
    exact List.take_left' (by simp)
  unfold fileContentsRequest
  generalize (offset >>> 32).toUInt32 = hi at hoffset
  generalize offset.toUInt32 = lo at hoffset
  simp [ofMessage, u32le, hnumber, hboth, hoffset]

/-! ## Where a download stands -/

section

variable (content : ℕ → List UInt8) (entries : List ClipFile)

/-- The calls so far, before the entry at `fetch_index` goes on: it is not begun, or some of it came. -/
inductive Ahead (c : ClipboardChannel) (calls : List Call) : Prop
  | fresh (hreceived : c.fetch_received = 0) (hdone : Delivered content entries c.fetch_index calls)
  | partway (e : ClipFile) (done : List Call) (chunks : List (List UInt8))
      (hentry : entries[c.fetch_index]? = some e) (hfile : e.is_dir = false)
      (hreceived : 0 < c.fetch_received) (hsize : c.fetch_received ≤ e.size)
      (hdone : Delivered content entries c.fetch_index done)
      (hchunks : chunks.flatten = (content c.fetch_index).take c.fetch_received.toNat)
      (hcalls : calls = done ++ (.beginRemoteFile e.name e.size false :: chunks.map .writeRemoteChunk))

/-- Where a download stands between two answers. -/
inductive Stage (σ : Download) : Prop
  /-- A range of a file is asked for; so much of it came. -/
  | asking (e : ClipFile) (done : List Call) (chunks : List (List UInt8)) (len : UInt32)
      (hfetching : σ.chan.fetching = true) (hfiles : σ.chan.remote_files = entries)
      (hentry : entries[σ.chan.fetch_index]? = some e) (hfile : e.is_dir = false)
      (hsize : σ.chan.fetch_received < e.size)
      (hdone : Delivered content entries σ.chan.fetch_index done)
      (hchunks : chunks.flatten = (content σ.chan.fetch_index).take σ.chan.fetch_received.toNat)
      (hcalls : σ.calls = done ++ (.beginRemoteFile e.name e.size false :: chunks.map .writeRemoteChunk))
      (hlen : 0 < len.toNat ∧ len.toNat ≤ 8388608 ∧ σ.chan.fetch_received.toNat + len.toNat ≤ e.size.toNat)
      (hout : σ.out = [⟨σ.chan.stream_id, UInt32.ofNat σ.chan.fetch_index, σ.chan.fetch_received, len⟩])
  /-- Everything came. -/
  | finished (done : List Call) (hfetching : σ.chan.fetching = false)
      (hdone : Delivered content entries entries.length done)
      (hcalls : σ.calls = done ++ [.finishRemoteFiles]) (hout : σ.out = [])

variable {content entries}

theorem requestLen {size received : UInt64} (h : received < size) :
    0 < (min (size - received) fileChunk.toUInt64).toUInt32.toNat ∧
      (min (size - received) fileChunk.toUInt64).toUInt32.toNat ≤ 8388608 ∧
      received.toNat + (min (size - received) fileChunk.toUInt64).toUInt32.toNat ≤ size.toNat := by
  have hlt := UInt64.lt_iff_toNat_lt.mp h
  have hs := size.toNat_lt
  have hsub : (size - received).toNat = size.toNat - received.toNat := by
    rw [UInt64.toNat_sub]
    omega
  have hchunk : fileChunk.toUInt64.toNat = 8388608 := rfl
  have hmin : (min (size - received) fileChunk.toUInt64).toNat = min (size.toNat - received.toNat) 8388608 := by
    rw [← hsub, ← hchunk]
    change (if size - received ≤ fileChunk.toUInt64 then size - received
      else fileChunk.toUInt64).toNat = _
    split_ifs with hle
    · have := UInt64.le_iff_toNat_le.mp hle
      omega
    · have := mt UInt64.le_iff_toNat_le.mpr hle
      omega
  rw [UInt64.toNat_toUInt32, hmin]
  omega

theorem Delivered.le {i : ℕ} {calls : List Call} (h : Delivered content entries i calls) : i ≤ entries.length := by
  cases h with
  | nil => exact Nat.zero_le _
  | folder _ he _ => exact (List.getElem?_eq_some_iff.mp he).1
  | file _ he _ _ => exact (List.getElem?_eq_some_iff.mp he).1

def Sized (content : ℕ → List UInt8) (entries : List ClipFile) : Prop :=
  ∀ i e, entries[i]? = some e → e.is_dir = false → (content i).length = e.size.toNat

theorem stage_pump (hcontent : Sized content entries) (c : ClipboardChannel) :
    ∀ calls, c.fetching = true → c.remote_files = entries → Ahead content entries c calls →
      Stage content entries ⟨c.pump.1, calls ++ c.pump.2.2, c.pump.2.1.filterMap Request.ofMessage⟩ := by
  fun_induction ClipboardChannel.pump c with
  | case1 c h entry hdir c' out calls' heq ih =>
    intro calls hfetching hfiles hahead
    have hentry : entries[c.fetch_index]? = some entry := by
      subst hfiles
      exact List.getElem?_eq_getElem h
    rw [heq] at ih
    cases hahead with
    | fresh hreceived hdone =>
      have hnext := ih _ hfetching hfiles (.fresh hreceived (.folder hdone hentry hdir))
      rwa [List.append_assoc] at hnext
    | partway e _ _ he hfile =>
      rw [hentry] at he
      cases he
      rw [hfile] at hdir
      cases hdir
  | case2 c h entry hdir begun hdone' c' out calls' heq ih =>
    intro calls hfetching hfiles hahead
    have hentry : entries[c.fetch_index]? = some entry := by
      subst hfiles
      exact List.getElem?_eq_getElem h
    have hfile : entry.is_dir = false := by simpa using hdir
    have hlen := hcontent _ _ hentry hfile
    have hle := UInt64.le_iff_toNat_le.mp hdone'
    rw [heq] at ih
    -- The entry is complete: it is ended, and the next one is fresh.
    have hend : ∀ done, Delivered content entries (c.fetch_index + 1) (done ++ [.endRemoteFile]) → Stage content entries
          ⟨c', done ++ (.endRemoteFile :: calls'), out.filterMap Request.ofMessage⟩ := by
      intro done hdelivered
      have hnext := ih _ hfetching hfiles (.fresh rfl hdelivered)
      rwa [List.append_assoc] at hnext
    cases hahead with
    | fresh hreceived hdone =>
      have hbegun : begun = [.beginRemoteFile entry.name entry.size false] := if_pos hreceived
      have hnil : content c.fetch_index = [] := by
        rw [hreceived] at hle
        exact List.eq_nil_of_length_eq_zero (by rw [hlen]; exact Nat.le_zero.mp hle)
      have hnext := hend (calls ++ [.beginRemoteFile entry.name entry.size false]) (by
        have hempty : ([] : List (List UInt8)).flatten = content c.fetch_index := hnil.symm
        have hd := Delivered.file hdone hentry hfile hempty
        rw [List.append_assoc]
        exact hd)
      rw [hbegun]
      rwa [List.append_assoc] at hnext
    | partway e done chunks he _ hreceived hsize hdone hchunks hcalls =>
      rw [hentry] at he
      cases he
      have hbegun : begun = [] := if_neg fun h0 => by rw [h0] at hreceived; cases hreceived
      have hwhole : chunks.flatten = content c.fetch_index := by
        rw [hchunks, List.take_of_length_le (by omega)]
      rw [hbegun, List.nil_append, hcalls]
      refine hend _ ?_
      rw [List.append_assoc]
      exact .file hdone hentry hfile hwhole
  | case3 c h entry hdir begun hmore len c' =>
    intro calls hfetching hfiles hahead
    have hentry : entries[c.fetch_index]? = some entry := by
      subst hfiles
      exact List.getElem?_eq_getElem h
    have hfile : entry.is_dir = false := by simpa using hdir
    have hlt : c.fetch_received < entry.size := UInt64.not_le.mp hmore
    have hreq := Request.ofMessage_fileContentsRequest c'.stream_id (UInt32.ofNat c'.fetch_index) c'.fetch_received len
    have hout : [fileContentsRequest c'.stream_id (UInt32.ofNat c'.fetch_index) c'.fetch_received
        len].filterMap Request.ofMessage = [⟨c'.stream_id, UInt32.ofNat c'.fetch_index, c'.fetch_received, len⟩] := by
      rw [List.filterMap_cons, hreq]
      rfl
    cases hahead with
    | fresh hreceived hdone =>
      have hbegun : begun = [.beginRemoteFile entry.name entry.size false] := if_pos hreceived
      have hnone : ([] : List (List UInt8)).flatten =
          (content c.fetch_index).take c.fetch_received.toNat := by rw [hreceived]; rfl
      exact .asking entry calls [] len hfetching hfiles hentry hfile hlt hdone hnone
        (by rw [hbegun]; rfl) (requestLen hlt) hout
    | partway e done chunks he _ hreceived hsize hdone hchunks hcalls =>
      rw [hentry] at he
      cases he
      have hbegun : begun = [] := if_neg fun h0 => by rw [h0] at hreceived; cases hreceived
      exact .asking entry done chunks len hfetching hfiles hentry hfile hlt hdone hchunks
        (by rw [hbegun, List.append_nil, hcalls]) (requestLen hlt) hout
  | case4 c h =>
    intro calls hfetching hfiles hahead
    cases hahead with
    | fresh hreceived hdone =>
      have hall : c.fetch_index = entries.length := by
        have := hdone.le
        rw [hfiles] at h
        omega
      rw [hall] at hdone
      exact .finished calls rfl hdone rfl rfl
    | partway e _ _ he =>
      rw [hfiles] at h
      exact absurd (List.getElem?_eq_some_iff.mp he).1 h

theorem process_response (c : ClipboardChannel) (p : Provider) {msg : List UInt8} {m : Message}
    (hread : Message.read msg = some m) (htype : m.msg_type = cbFilecontentsResponse) :
    c.process p msg = c.onFileContentsResponse (m.msg_flags &&& cbResponseOk != 0) m.data := by
  have hne : m.msg_type ≠ cbMonitorReady ∧ m.msg_type ≠ cbFormatList ∧
      m.msg_type ≠ cbFormatDataRequest ∧ m.msg_type ≠ cbFormatDataResponse := by
    rw [htype]
    decide
  simp only [ClipboardChannel.process, hread, ClipboardChannel.handle, if_neg hne.1, if_neg hne.2.1,
    if_neg hne.2.2.1, if_neg hne.2.2.2, if_pos htype]

theorem process_data {c : ClipboardChannel} (p : Provider) (stream_id : UInt32) {chunk : List UInt8}
    (hfetching : c.fetching = true) (hne : chunk ≠ []) (hlen : chunk.length ≤ 8388608) :
    c.process p (Download.message stream_id (.data chunk)).bytes =
      let o := ClipboardChannel.pump
        { c with fetch_received := c.fetch_received + UInt64.ofNat chunk.length }
      (o.1, o.2.1, .writeRemoteChunk chunk :: o.2.2) := by
  have hread := Message.read_bytes (m := Download.message stream_id (.data chunk)) (by
    simp only [Download.message, u32le, List.length_append, length_leBytes]
    omega)
  rw [process_response c p hread rfl]
  have hdrop : (u32le stream_id ++ chunk).drop 4 = chunk := by simp [u32le]
  have hfull : chunk.isEmpty = false := List.isEmpty_eq_false_iff.mpr hne
  simp only [ClipboardChannel.onFileContentsResponse, Download.message, hdrop, hfull, hfetching,
    Bool.not_true, Bool.false_eq_true, if_false]
  rfl

theorem process_fail {c : ClipboardChannel} (p : Provider) (stream_id : UInt32)
    (hfetching : c.fetching = true) : c.process p (Download.message stream_id .fail).bytes =
      ({ c with remote_files := [], fetching := false }, [], [.abortRemoteFiles]) := by
  have hread := Message.read_bytes (m := Download.message stream_id .fail) (by
    simp only [Download.message, u32le, length_leBytes]
    omega)
  rw [process_response c p hread rfl]
  have hok : ¬ ((cbResponseFail &&& cbResponseOk != 0) = true) := by decide
  unfold ClipboardChannel.onFileContentsResponse
  rw [hfetching, if_neg (by decide)]
  exact if_neg hok

theorem Stage.step (hcontent : Sized content entries) (hcount : entries.length < 2^32) (p : Provider)
    {σ : Download} (h : Stage content entries σ) {a : Answer} (ha : Download.Honest content σ a) :
    Stage content entries (σ.step p a) := by
  cases h with
  | finished done hfetching hdone hcalls hout =>
    rw [Download.step_of_nil p hout]
    exact .finished done hfetching hdone hcalls hout
  | asking e done chunks len hfetching hfiles hentry hfile hsize hdone hchunks hcalls hlen hout =>
    obtain ⟨chunk, rfl, hne, hpre⟩ := (ha _ (by rw [hout]; rfl)).exists_data
    have hindex : (UInt32.ofNat σ.chan.fetch_index).toNat = σ.chan.fetch_index := by
      have := (List.getElem?_eq_some_iff.mp hentry).1
      rw [UInt32.toNat_ofNat']
      omega
    dsimp only at hpre
    rw [hindex] at hpre
    -- The answer is no longer than asked for, so the count of received bytes does not wrap.
    have hshort : chunk.length ≤ len.toNat := by
      have := hpre.length_le
      rw [List.length_take] at this
      omega
    have hpos := List.length_pos_iff.mpr hne
    have hbytes := e.size.toNat_lt
    have hreceived : (σ.chan.fetch_received + UInt64.ofNat chunk.length).toNat =
        σ.chan.fetch_received.toNat + chunk.length := by
      rw [UInt64.toNat_add, UInt64.toNat_ofNat']
      omega
    have hstep : σ.step p (.data chunk) = ⟨(ClipboardChannel.pump { σ.chan with
          fetch_received := σ.chan.fetch_received + UInt64.ofNat chunk.length }).1,
        (σ.calls ++ [.writeRemoteChunk chunk]) ++ (ClipboardChannel.pump { σ.chan with
          fetch_received := σ.chan.fetch_received + UInt64.ofNat chunk.length }).2.2,
        (ClipboardChannel.pump { σ.chan with
          fetch_received := σ.chan.fetch_received + UInt64.ofNat chunk.length }).2.1.filterMap
            Request.ofMessage⟩ := by
      unfold Download.step
      rw [hout]
      dsimp only
      rw [process_data p _ hfetching hne (by omega), List.append_assoc]
      rfl
    rw [hstep]
    refine stage_pump hcontent _ _ hfetching hfiles (.partway e done (chunks ++ [chunk]) hentry hfile ?_ ?_ hdone ?_ ?_)
    · rw [UInt64.lt_iff_toNat_lt, hreceived]
      exact Nat.lt_of_lt_of_le hpos (Nat.le_add_left _ _)
    · rw [UInt64.le_iff_toNat_le, hreceived]
      omega
    · rw [List.flatten_append, hchunks, hreceived, List.take_add]
      congr 1
      rw [List.flatten_singleton]
      have htake := List.prefix_iff_eq_take.mp hpre
      rw [List.take_take, Nat.min_eq_left hshort] at htake
      exact htake
    · rw [hcalls, List.append_assoc, List.map_append]
      rfl

/-! ## Whole downloads -/

theorem stage_start (hcontent : Sized content entries) {c : ClipboardChannel}
    (hidle : c.fetching = false) (hfiles : c.remote_files = entries) (hne : entries ≠ []) :
    Stage content entries (Download.start c) := by
  have hbegin : c.beginFileFetch =
      ClipboardChannel.pump { c with fetching := true, fetch_index := 0, fetch_received := 0 } := by
    unfold ClipboardChannel.beginFileFetch
    rw [hidle, hfiles, List.isEmpty_eq_false_iff.mpr hne]
    rfl
  unfold Download.start
  rw [hbegin]
  exact stage_pump hcontent { c with fetching := true, fetch_index := 0, fetch_received := 0 } [] rfl
    hfiles (.fresh rfl .nil)

def wrote (calls : List Call) : ℕ :=
  (calls.map fun
    | .writeRemoteChunk chunk => chunk.length
    | _ => 0).sum

theorem wrote_append (a b : List Call) : wrote (a ++ b) = wrote a + wrote b := by
  rw [wrote, List.map_append, List.sum_append]
  rfl

theorem wrote_chunks (chunks : List (List UInt8)) : wrote (chunks.map .writeRemoteChunk) = chunks.flatten.length := by
  rw [wrote, List.map_map, List.length_flatten]
  rfl

def totalSize (entries : List ClipFile) : ℕ := (entries.map fun e => if e.is_dir then 0 else e.size.toNat).sum

theorem totalSize_take_succ {i : ℕ} {e : ClipFile} (h : entries[i]? = some e) : totalSize (entries.take (i + 1)) =
      totalSize (entries.take i) + if e.is_dir then 0 else e.size.toNat := by
  rw [List.take_add_one, h, totalSize, List.map_append, List.sum_append]
  simp [totalSize]

theorem totalSize_take_le (entries : List ClipFile) (i : ℕ) : totalSize (entries.take i) ≤ totalSize entries := by
  have hsplit := congrArg totalSize (List.take_append_drop i entries)
  rw [totalSize, List.map_append, List.sum_append] at hsplit
  rw [← hsplit]
  exact Nat.le_add_right _ _

theorem Delivered.wrote_eq (hcontent : Sized content entries) {i : ℕ} {calls : List Call}
    (h : Delivered content entries i calls) : wrote calls = totalSize (entries.take i) := by
  induction h with
  | nil => rfl
  | folder _ he hdir ih =>
    rw [wrote_append, ih, totalSize_take_succ he, if_pos hdir]
    rfl
  | file _ he hfile hchunks ih =>
    rw [wrote_append, wrote_append, ih, totalSize_take_succ he, hfile, if_neg Bool.false_ne_true,
      ← hcontent _ _ he hfile, ← hchunks, ← wrote_chunks]
    simp [wrote]

theorem Delivered.quiet {i : ℕ} {calls : List Call} (h : Delivered content entries i calls) :
    .finishRemoteFiles ∉ calls ∧ .abortRemoteFiles ∉ calls := by
  induction h with
  | nil => simp
  | folder _ _ _ ih => simp [ih.1, ih.2]
  | file _ _ _ _ ih => simp [ih.1, ih.2]

theorem Stage.wrote_lt (hcontent : Sized content entries) {σ : Download}
    (h : Stage content entries σ) (hout : σ.out ≠ []) : wrote σ.calls < totalSize entries := by
  cases h with
  | finished _ _ _ _ hnil => exact absurd hnil hout
  | asking e done chunks len hfetching hfiles hentry hfile hsize hdone hchunks hcalls hlen hreq =>
    have hsum := totalSize_take_succ hentry
    have hle := totalSize_take_le entries (σ.chan.fetch_index + 1)
    have hbytes := hcontent _ _ hentry hfile
    have hlt := UInt64.lt_iff_toNat_lt.mp hsize
    have hgot : wrote σ.calls = wrote done + chunks.flatten.length := by
      rw [hcalls, wrote_append, ← wrote_chunks]
      congr 1
      exact Nat.zero_add _
    rw [hdone.wrote_eq hcontent, hchunks, List.length_take] at hgot
    rw [hfile, if_neg Bool.false_ne_true] at hsum
    omega

theorem wrote_step (p : Provider) {σ : Download} (h : Stage content entries σ) {a : Answer}
    (ha : Download.Honest content σ a) (hout : σ.out ≠ []) :
    wrote σ.calls + 1 ≤ wrote (σ.step p a).calls := by
  cases h with
  | finished _ _ _ _ hnil => exact absurd hnil hout
  | asking e done chunks len hfetching hfiles hentry hfile hsize hdone hchunks hcalls hlen hreq =>
    obtain ⟨chunk, rfl, hne, hpre⟩ := (ha _ (by rw [hreq]; rfl)).exists_data
    have hshort : chunk.length ≤ len.toNat := by
      have := hpre.length_le
      rw [List.length_take] at this
      exact Nat.le_trans this (Nat.min_le_left _ _)
    have hpos := List.length_pos_iff.mpr hne
    unfold Download.step
    rw [hreq]
    dsimp only
    rw [process_data p _ hfetching hne (by omega), wrote_append]
    have hone : ∀ rest, wrote (.writeRemoteChunk chunk :: rest) = chunk.length + wrote rest := fun rest => rfl
    rw [hone]
    omega

theorem stage_run (hcontent : Sized content entries) (hcount : entries.length < 2^32) (p : Provider)
    {σ : Download} (h : Stage content entries σ) {as : List Answer}
    (hhonest : Along (Download.step p) (Download.Honest content) σ as) :
    Stage content entries (run (Download.step p) σ as) ∧ ((run (Download.step p) σ as).out ≠ [] →
        wrote σ.calls + as.length ≤ wrote (run (Download.step p) σ as).calls) := by
  induction as using List.reverseRecOn with
  | nil => exact ⟨h, fun _ => Nat.le_refl _⟩
  | append_singleton as a ih =>
    obtain ⟨hfirst, hlast, -⟩ := along_append.mp hhonest
    obtain ⟨hstage, hwrote⟩ := ih hfirst
    rw [run_concat]
    refine ⟨hstage.step hcontent hcount p hlast, fun hout => ?_⟩
    have hbefore : (run (Download.step p) σ as).out ≠ [] := by
      intro hnil
      apply hout
      rw [Download.step_of_nil p hnil]
      exact hnil
    have hmore := wrote_step p hstage hlast hbefore
    have hsofar := hwrote hbefore
    rw [List.length_append, List.length_singleton]
    omega

end

theorem length_parseFileDescriptors (data : List UInt8) : (parseFileDescriptors data).length < 2^32 := by
  have hread : ∀ count data, (readDescriptors count data).length ≤ count := by
    intro count
    induction count with
    | zero => exact fun data => Nat.le_refl _
    | succ count ih =>
      intro data
      rw [readDescriptors]
      split_ifs
      · exact Nat.zero_le _
      · exact Nat.succ_le_succ (ih _)
  unfold parseFileDescriptors
  split_ifs with h
  · exact Nat.two_pow_pos 32
  · have hlt := ofLe_lt (data.take 4)
    rw [List.length_take, Nat.min_eq_left (by omega)] at hlt
    exact Nat.lt_of_le_of_lt (hread _ _) hlt

theorem late_ignored_iff (c : ClipboardChannel) (p : Provider) (stream_id : UInt32) (a : Answer) :
    c.process p (Download.message stream_id a).bytes = (c, [], []) ↔ c.fetching = false := by
  obtain ⟨d, hread⟩ := Message.read_bytes_head (Download.message stream_id a)
  have htype : (Download.message stream_id a).msg_type = cbFilecontentsResponse := by cases a <;> rfl
  rw [process_response c p hread htype]
  unfold ClipboardChannel.onFileContentsResponse
  constructor
  · intro h
    by_contra hfetching
    rw [Bool.not_eq_false] at hfetching
    rw [hfetching, if_neg (by decide)] at h
    -- A copy that runs tells the provider.
    have hcalls := congrArg (fun o => o.2.2) h
    dsimp only at hcalls
    split_ifs at hcalls
  · intro hfetching
    rw [hfetching]
    rfl

/-- A paste of offered entries, while the session answers each request with bytes of its range. -/
theorem download_whole (content : ℕ → List UInt8) (p : Provider) (c : ClipboardChannel)
    (data : List UInt8) (hidle : c.fetching = false) (hoffer : c.remote_files = parseFileDescriptors data)
    (hsized : Sized content c.remote_files) (as : List Answer)
    (hhonest : Along (Download.step p) (Download.Honest content) (.start c) as) :
    let σ := run (Download.step p) (.start c) as
    σ.out.length ≤ 1 ∧
    (∀ r ∈ σ.out, ∃ e, c.remote_files[r.index.toNat]? = some e ∧ e.is_dir = false ∧
      0 < r.len.toNat ∧ r.offset.toNat + r.len.toNat ≤ e.size.toNat) ∧
    (σ.out = [] → σ.calls = [] ∧ c.remote_files = [] ∨
      ∃ done, Delivered content c.remote_files c.remote_files.length done ∧ σ.calls = done ++ [.finishRemoteFiles]) ∧
    (totalSize c.remote_files ≤ as.length → σ.out = []) ∧
    (σ.out ≠ [] → .finishRemoteFiles ∉ σ.calls ∧ .abortRemoteFiles ∉ σ.calls ∧
      (σ.step p .fail).calls = σ.calls ++ [.abortRemoteFiles] ∧ (σ.step p .fail).out = []) ∧
    (∀ stream_id a, (∀ r ∈ σ.out, r.stream_id ≠ stream_id) →
      (σ.chan.process p (Download.message stream_id a).bytes = (σ.chan, [], []) ↔ σ.out = [])) := by
  intro σ
  by_cases hempty : c.remote_files = []
  · -- Nothing is offered, nothing happens.
    have hstart : Download.start c = ⟨c, [], []⟩ := by
      unfold Download.start ClipboardChannel.beginFileFetch
      rw [hidle, hempty]
      rfl
    have hσ : σ = ⟨c, [], []⟩ := by
      have hrun : ∀ as : List Answer, run (Download.step p) ⟨c, [], []⟩ as = ⟨c, [], []⟩ := by
        intro as
        induction as with
        | nil => rfl
        | cons a as ih =>
          rw [run_cons, Download.step_of_nil p rfl]
          exact ih
      rw [← hrun as, ← hstart]
    rw [hσ]
    refine ⟨Nat.zero_le _, fun r hr => absurd hr List.not_mem_nil, fun _ => .inl ⟨rfl, hempty⟩,
      fun _ => rfl, fun h => absurd rfl h, fun stream_id a _ => ?_⟩
    rw [late_ignored_iff]
    exact ⟨fun _ => rfl, fun _ => hidle⟩
  · have hcount : c.remote_files.length < 2^32 := by
      rw [hoffer]
      exact length_parseFileDescriptors data
    obtain ⟨hstage, hwrote⟩ := stage_run hsized hcount p (stage_start hsized hidle rfl hempty) hhonest
    change Stage content c.remote_files σ at hstage
    have hmissing := hstage.wrote_lt hsized
    cases hstage with
    | finished done hfetching hdone hcalls hout =>
      refine ⟨by rw [hout]; exact Nat.zero_le _, by rw [hout]; exact fun r hr => absurd hr List.not_mem_nil,
        fun _ => .inr ⟨done, hdone, hcalls⟩, fun _ => hout, fun h => absurd hout h,
        fun stream_id a _ => ?_⟩
      rw [late_ignored_iff]
      exact ⟨fun _ => hout, fun _ => hfetching⟩
    | asking e done chunks len hfetching hfiles hentry hfile hsize hdone hchunks hcalls hlen hout =>
      have hne : σ.out ≠ [] := by
        rw [hout]
        exact List.cons_ne_nil _ _
      refine ⟨by rw [hout]; exact Nat.le_refl _, fun r hr => ?_, fun h => absurd h hne, fun h => ?_,
        fun _ => ⟨?_, ?_, ?_, ?_⟩, fun stream_id a _ => ?_⟩
      · rw [hout] at hr
        cases List.mem_singleton.mp hr
        have hindex : (UInt32.ofNat σ.chan.fetch_index).toNat = σ.chan.fetch_index := by
          have := (List.getElem?_eq_some_iff.mp hentry).1
          rw [UInt32.toNat_ofNat']
          omega
        exact ⟨e, by rw [hindex, hentry], hfile, hlen.1, hlen.2.2⟩
      · -- Every answer so far gave at least one byte.
        have henough : wrote (Download.start c).calls + as.length ≤ wrote σ.calls := hwrote hne
        exact absurd (hmissing hne) (by omega)
      · rw [hcalls]
        simp [hdone.quiet.1]
      · rw [hcalls]
        simp [hdone.quiet.2]
      · unfold Download.step
        rw [hout]
        dsimp only
        rw [process_fail p _ hfetching]
      · unfold Download.step
        rw [hout]
        dsimp only
        rw [process_fail p _ hfetching]
        rfl
      · rw [late_ignored_iff, hfetching]
        exact ⟨fun h => absurd h (by decide), fun h => absurd h hne⟩

def takesFiles : Provider := ⟨none, [], none, fun _ _ _ => none, true⟩

def offerOne : List Message :=
  [formatList false true false, ⟨cbFormatDataResponse, cbResponseOk, fileGroupDescriptor [⟨['a'], 4, false⟩]⟩]

def afterMessages (c : ClipboardChannel) (ms : List Message) : ClipboardChannel :=
  ms.foldl (fun c m => (c.process takesFiles m.bytes).1) c

/-- The file arrives byte by byte, and nothing more is asked for. -/
theorem download_whole_one : (run (Download.step takesFiles)
    (.start (afterMessages .new offerOne)) [.data [1], .data [2], .data [3], .data [4]]).out = [] := by
  have hfiles : (afterMessages .new offerOne).remote_files = [⟨['a'], 4, false⟩] := by decide +kernel
  have hsized : Sized (fun _ => [1, 2, 3, 4]) (afterMessages .new offerOne).remote_files := by
    rw [hfiles]
    intro i e he _
    cases List.mem_singleton.mp (List.mem_of_getElem? he)
    rfl
  have hruns := download_whole (fun _ => [1, 2, 3, 4]) takesFiles (afterMessages .new offerOne)
    (fileGroupDescriptor [⟨['a'], 4, false⟩]) (by decide +kernel) (by decide +kernel) hsized
    [.data [1], .data [2], .data [3], .data [4]] (by decide +kernel)
  exact hruns.2.2.2.1 (by rw [hfiles]; exact Nat.le_refl 4)

set_option maxRecDepth 4000 in
/-- A copy is abandoned for a newer one, and the answer to its request comes late: its bytes are written
into the new copy's file. -/
theorem late_answer_written :
    let old := Download.start (afterMessages .new offerOne)
    let σ := Download.start (afterMessages old.chan offerOne)
    old.out = [⟨1, 0, 0, 4⟩] ∧ σ.out = [⟨2, 0, 0, 4⟩] ∧
      (σ.chan.process takesFiles (Download.message 1 (.data [9, 9])).bytes).2.2 = [.writeRemoteChunk [9, 9]] := by
  decide +kernel

end Rdpio.Channels.Cliprdr
