import Rdpio.Channels.RdpdrTree
import Rdpio.Channels.Serial
import Rdpio.Lib.Checked

/-!
# The drive channel, whatever it is sent

The rest of `process` of `crates/rdp-channels/src/rdpdr.rs`, over the requests of `Rdpio.Channels.Rdpdr`: the
handshake, the printer, and the completion of a request.
-/

namespace Rdpio.Channels.Rdpdr

open Channels.Cliprdr (decodeUnicode)
open Hyper.Messages (leAt)

def pakidCoreServerAnnounce : UInt16 := 0x496E
def pakidCoreServerCapability : UInt16 := 0x5350
def pakidCoreServerUserLoggedon : UInt16 := 0x554C

def printerDeviceId : UInt32 := 100

def addU64 (a b : ℕ) : Option ℕ := if a + b < 2^64 then some (a + b) else none

def mulU64 (a b : ℕ) : Option ℕ := if a * b < 2^64 then some (a * b) else none

structure FileTimes (M : Type) where
  times : M → List (Option (ℕ × ℕ))
  fits : ∀ md, ∀ secs nanos, some (secs, nanos) ∈ times md → (secs + 11_644_473_600) * 10_000_000 + nanos / 100 < 2^64

/-- Ticks since 1601. -/
def filetime : Option (ℕ × ℕ) → Option ℕ
  | none => some 0
  | some (secs, nanos) => do
    let since ← addU64 secs 11_644_473_600
    let ticks ← mulU64 since 10_000_000
    addU64 ticks (nanos / 100)

variable {σ H M S : Type}

def Payload.layout (clock : FileTimes M) : Payload M → Option (List ℕ)
  | .bytes _ => some []
  | .information cls md => if cls = fileBasicInformation then (clock.times md).mapM filetime else some []
  | .volume _ => some []
  | .entry _ _ none => some []
  | .entry _ _ (some md) => (clock.times md).mapM filetime

structure PrinterSink (S : Type) where
  startJob : S → Bool × S
  write : S → List UInt8 → S
  endJob : S → S

structure PrinterDevice (S : Type) where
  sink : S
  job_open : Bool := false

structure Answer (M : Type) where
  completion_id : UInt32
  status : UInt32
  payload : Payload M

def PrinterDevice.io (backend : PrinterSink S) (p : PrinterDevice S) (body : List UInt8) :
    Option (PrinterDevice S × Answer M) :=
  let completion_id := (u32le body 8).getD 0
  let major := (u32le body 12).getD 0
  let params := body.drop 20
  if major = irpMjCreate then
    let (started, sink) := backend.startJob p.sink
    let status := if started then statusSuccess else statusNotSupported
    some (⟨sink, started⟩, ⟨completion_id, status, .bytes (Lib.leBytes 4 1 ++ [0])⟩)
  else if major = irpMjWrite then do
    let length := ((u32le params 0).getD 0).toNat
    let data := params.drop 32
    let take := min length data.length
    let spooled ← Lib.slice data 0 take
    let sink := if p.job_open then backend.write p.sink spooled else p.sink
    some ({ p with sink }, ⟨completion_id, statusSuccess, .bytes (Lib.leBytes 4 take ++ [0])⟩)
  else if major = irpMjClose then
    some (if p.job_open then ⟨backend.endJob p.sink, false⟩ else p, ⟨completion_id, statusSuccess, zeros 4⟩)
  else some (p, ⟨completion_id, statusNotSupported, zeros 4⟩)

variable (platform : Platform) (fs : Fs σ H M) (clock : FileTimes M) (backend : PrinterSink S)

def State.ioChecked (s : State σ H) (body : List UInt8) : Option (Reply σ H M) := do
  let r := s.io platform fs body
  let made := (u32le body 12).getD 0 = irpMjCreate ∧ r.status = statusSuccess
  let _times ← r.payload.layout clock
  if made ∧ ¬ s.drive.next_file_id.toNat + 1 < 2^32 then none else some r

structure Channel (σ H S : Type) where
  client_id : UInt32 := 0
  drives : List (DriveDevice H)
  tree : σ
  printer : Option (PrinterDevice S) := none

structure Completion (M : Type) where
  device_id : UInt32
  completion_id : UInt32
  status : UInt32
  payload : Payload M

inductive Response (M : Type) where
  | announceReply (client_id : UInt32)
  | clientName
  | capability
  | deviceList (count : ℕ)
  | completion (c : Completion M)

namespace Channel

variable (ch : Channel σ H S)

def devices : ℕ := ch.drives.length + if ch.printer.isSome then 1 else 0

def deviceList : Option (Response M) := if ch.devices < 2^32 then some (.deviceList ch.devices) else none

def drive (device_id : UInt32) : Option (ℕ × DriveDevice H) :=
  (ch.drives.findIdx? fun d => d.device_id == device_id).bind fun i => ch.drives[i]?.map fun d => (i, d)

/-- A request goes to the device that it names. -/
def deviceIo (msg : List UInt8) : Option (Channel σ H S × List (Response M)) := do
  let device_id := (u32le msg 4).getD 0
  let body ← Lib.slice msg 4 msg.length
  match ch.drive device_id with
  | some (i, d) =>
    let r ← State.ioChecked platform fs clock ⟨d, ch.tree⟩ body
    some ({ ch with drives := ch.drives.set i r.state.drive, tree := r.state.tree },
      [.completion ⟨device_id, (u32le body 8).getD 0, r.status, r.payload⟩])
  | none =>
    match ch.printer with
    | none => some (ch, [])
    | some p =>
      if device_id = printerDeviceId then do
        let (p, a) ← p.io backend body
        some ({ ch with printer := some p }, [.completion ⟨device_id, a.completion_id, a.status, a.payload⟩])
      else some (ch, [])

def process (msg : List UInt8) : Option (Channel σ H S × List (Response M)) :=
  match u16le msg 0, u16le msg 2 with
  | some component, some packet_id =>
    if component ≠ rdpdrCtypCore then some (ch, [])
    else if packet_id = pakidCoreServerAnnounce then do
      let client_id := (u32le msg 8).getD 0
      let list ← ch.deviceList
      some ({ ch with client_id }, [.announceReply client_id, .clientName, list])
    else if packet_id = pakidCoreServerCapability then do
      let list ← ch.deviceList
      some (ch, [.capability, list])
    else if packet_id = pakidCoreServerUserLoggedon then do
      let list ← ch.deviceList
      some (ch, [list])
    else if packet_id = pakidCoreDeviceIorequest then ch.deviceIo platform fs clock backend msg
    else some (ch, [])
  | _, _ => some (ch, [])

end Channel

/-- A folder or a file is opened: what a Create asks of is inside of the share, and the file system does it. -/
def State.Opens (s : State σ H) (p : List UInt8) : Prop :=
  ∃ path, s.resolve platform (decodeUnicode (bytesAt p 32 ((u32le p 28).getD 0).toNat)) = some path ∧
    if fs.isDir s.tree path || ((u32le p 24).getD 0 &&& fileDirectoryFile != 0 && !fs.exist s.tree path) then
      fs.exist s.tree path = true ∨
        (u32le p 20).getD fileOpen ∈ [fileCreate, fileOpenIf, fileOverwriteIf, fileSupersede] ∧
          (fs.createDir s.tree path).isSome
    else
      ∃ opts information, State.fileDisposition ((u32le p 20).getD fileOpen) (fs.exist s.tree path) =
          .ok (opts, information) ∧
        ((fs.openWith s.tree path opts).isSome ∨ (fs.openRead s.tree path).isSome)

variable {platform fs clock backend}

theorem createFolder_status_iff (s : State σ H) (path : Path) (disposition : UInt32) (there : Bool)
    (touched : List Touch) :
    (s.createFolder fs path disposition there touched).status = statusSuccess ↔
      there = true ∨ disposition ∈ [fileCreate, fileOpenIf, fileOverwriteIf, fileSupersede] ∧
        (fs.createDir s.tree path).isSome := by
  have hrefused : ¬ statusUnsuccessful = statusSuccess := by decide
  have hmissing : ¬ statusNoSuchFile = statusSuccess := by decide
  unfold State.createFolder
  by_cases hmakes : disposition = fileCreate ∨ disposition = fileOpenIf ∨ disposition = fileOverwriteIf ∨
      disposition = fileSupersede
  · have hmem : disposition ∈ [fileCreate, fileOpenIf, fileOverwriteIf, fileSupersede] := by simpa using hmakes
    rw [if_pos hmakes]
    cases there with
    | true => exact iff_of_true rfl (.inl rfl)
    | false =>
      cases hdir : fs.createDir s.tree path with
      | none => exact iff_of_false hrefused (by simp)
      | some tree => exact iff_of_true rfl (.inr ⟨hmem, rfl⟩)
  · have hmem : disposition ∉ [fileCreate, fileOpenIf, fileOverwriteIf, fileSupersede] := by simpa using hmakes
    rw [if_neg hmakes]
    cases there with
    | true => exact iff_of_true rfl (.inl rfl)
    | false => exact iff_of_false hmissing (by simp [hmem])

theorem createFile_status_iff (s : State σ H) (path : Path) (disposition : UInt32) (there : Bool)
    (touched : List Touch) :
    (s.createFile fs path disposition there touched).status = statusSuccess ↔
      ∃ opts information, State.fileDisposition disposition there = .ok (opts, information) ∧
        ((fs.openWith s.tree path opts).isSome ∨ (fs.openRead s.tree path).isSome) := by
  have hmissing : ¬ statusObjectNameNotFound = statusSuccess := by decide
  unfold State.createFile
  cases hasked : State.fileDisposition disposition there with
  | error status =>
    refine iff_of_false (fun h => Session.fileDisposition_error h hasked) ?_
    rintro ⟨opts, information, h, -⟩
    cases h
  | ok asked =>
    obtain ⟨opts, information⟩ := asked
    dsimp only
    cases hwrite : fs.openWith s.tree path opts with
    | some opened => exact iff_of_true rfl ⟨opts, information, rfl, .inl (by rw [hwrite]; rfl)⟩
    | none =>
      dsimp only
      cases hread : fs.openRead s.tree path with
      | some opened => exact iff_of_true rfl ⟨opts, information, rfl, .inr rfl⟩
      | none =>
        refine iff_of_false hmissing ?_
        rintro ⟨opts', information', h, h'⟩
        cases h
        rw [hwrite] at h'
        simp at h'

theorem create_status_iff (s : State σ H) (p : List UInt8) :
    (s.create platform fs p).status = statusSuccess ↔ s.Opens platform fs p := by
  have hdenied : ¬ statusAccessDenied = statusSuccess := by decide
  unfold State.create State.Opens
  simp only
  cases s.resolve platform (decodeUnicode (bytesAt p 32 ((u32le p 28).getD 0).toNat)) with
  | none =>
    refine iff_of_false hdenied ?_
    rintro ⟨path, h, -⟩
    cases h
  | some path =>
    simp only [Option.some.injEq, exists_eq_left']
    split_ifs
    · exact createFolder_status_iff s path _ _ _
    · exact createFile_status_iff s path _ _ _

/-! ## Nothing else overflows -/

theorem filetime_isSome (clock : FileTimes M) (md : M) : ∀ t ∈ clock.times md, ∃ ticks, filetime t = some ticks := by
  intro t ht
  cases t with
  | none => exact ⟨0, rfl⟩
  | some t =>
    obtain ⟨secs, nanos⟩ := t
    have hfits := clock.fits md secs nanos ht
    have hsince : addU64 secs 11_644_473_600 = some (secs + 11_644_473_600) := by
      rw [addU64, if_pos (by omega)]
    rw [filetime, hsince, Option.bind_eq_bind, Option.bind_some]
    generalize secs + 11_644_473_600 = since at hfits
    have hticks : mulU64 since 10_000_000 = some (since * 10_000_000) :=
      if_pos (Nat.lt_of_le_of_lt (Nat.le_add_right ..) hfits)
    refine ⟨since * 10_000_000 + nanos / 100, ?_⟩
    rw [hticks, Option.bind_some, addU64, if_pos hfits]

theorem Payload.layout_isSome (clock : FileTimes M) (payload : Payload M) :
    ∃ times, payload.layout clock = some times := by
  have hall : ∀ md, ∃ times, (clock.times md).mapM filetime = some times := by
    intro md
    obtain ⟨times, htimes, -⟩ := Lib.mapM_rule (filetime_isSome clock md)
    exact ⟨times, htimes⟩
  cases payload with
  | bytes b => exact ⟨[], rfl⟩
  | volume cls => exact ⟨[], rfl⟩
  | information cls md =>
    rw [layout]
    split_ifs
    · exact hall md
    · exact ⟨[], rfl⟩
  | entry cls name md =>
    cases md with
    | none => exact ⟨[], rfl⟩
    | some md => exact hall md

theorem PrinterDevice.io_isSome (p : PrinterDevice S) (body : List UInt8) :
    ∃ r : PrinterDevice S × Answer M, p.io backend body = some r := by
  unfold PrinterDevice.io
  simp only
  split
  · exact ⟨_, rfl⟩
  split
  · rw [Lib.slice, if_pos ⟨Nat.zero_le _, Nat.min_le_right ..⟩]
    exact ⟨_, rfl⟩
  split
  · exact ⟨_, rfl⟩
  · exact ⟨_, rfl⟩

theorem PrinterDevice.completion_id_of_io {p : PrinterDevice S} {body : List UInt8}
    {r : PrinterDevice S × Answer M} (h : p.io backend body = some r) :
    r.2.completion_id = (u32le body 8).getD 0 := by
  unfold PrinterDevice.io at h
  simp only at h
  split at h
  · rw [← Option.some.inj h]
  split at h
  · obtain ⟨spooled, -, h⟩ := Option.bind_eq_some_iff.mp h
    rw [← Option.some.inj h]
  split at h
  · rw [← Option.some.inj h]
  · rw [← Option.some.inj h]

def State.FindsNumber (platform : Platform) (fs : Fs σ H M) (s : State σ H) (body : List UInt8) : Prop :=
  (u32le body 12).getD 0 = irpMjCreate → s.Opens platform fs (body.drop 20) → s.drive.next_file_id.toNat + 1 < 2^32

theorem State.ioChecked_isSome_iff (s : State σ H) (body : List UInt8) :
    (s.ioChecked platform fs clock body).isSome ↔ s.FindsNumber platform fs body := by
  obtain ⟨times, htimes⟩ := Payload.layout_isSome clock (s.io platform fs body).payload
  unfold State.ioChecked State.FindsNumber
  simp only [htimes, Option.bind_eq_bind, Option.bind_some]
  by_cases hcreate : (u32le body 12).getD 0 = irpMjCreate
  · have hio : s.io platform fs body = s.create platform fs (body.drop 20) := by
      unfold State.io
      rw [if_pos hcreate]
    have hstatus : (s.create platform fs (body.drop 20)).status = statusSuccess ↔ _ := create_status_iff s (body.drop 20)
    rw [hio]
    simp only [hcreate, true_and, true_implies]
    split_ifs with h
    · exact iff_of_false (by simp) fun h' => h.2 (h' (hstatus.mp h.1))
    · exact iff_of_true rfl fun hopens => by_contra fun hbig => h ⟨hstatus.mpr hopens, hbig⟩
  · rw [if_neg fun h => hcreate h.1.1]
    exact iff_of_true rfl fun h => absurd h hcreate

namespace Channel

variable {ch : Channel σ H S}

def Lists (msg : List UInt8) : Prop :=
  u16le msg 0 = some rdpdrCtypCore ∧
    ∃ id ∈ [pakidCoreServerAnnounce, pakidCoreServerCapability, pakidCoreServerUserLoggedon], u16le msg 2 = some id

/-- A Device I/O Request. -/
def Requests (msg : List UInt8) : Prop := u16le msg 0 = some rdpdrCtypCore ∧ u16le msg 2 = some pakidCoreDeviceIorequest

/-- What a message has to keep to: that the devices can be counted, and a file that is opened numbered. -/
structure Fits (platform : Platform) (fs : Fs σ H M) (ch : Channel σ H S) (msg : List UInt8) : Prop where
  devices : Lists msg → ch.devices < 2^32
  handles : Requests msg → ∀ i d, ch.drive ((u32le msg 4).getD 0) = some (i, d) →
    State.FindsNumber platform fs ⟨d, ch.tree⟩ (msg.drop 4)

theorem deviceList_isSome_iff : (ch.deviceList : Option (Response M)).isSome ↔ ch.devices < 2^32 := by
  unfold deviceList
  split_ifs with h
  · exact iff_of_true rfl h
  · exact iff_of_false (by simp) h

theorem slice_body {msg : List UInt8} {packet_id : UInt16} (h : u16le msg 2 = some packet_id) :
    Lib.slice msg 4 msg.length = some (msg.drop 4) := by
  have hlen : 2 + 2 ≤ msg.length := leAt_isSome_iff.mp (by
    unfold u16le at h
    obtain ⟨n, hn, -⟩ := Option.map_eq_some_iff.mp h
    rw [hn]
    rfl)
  rw [Lib.slice, if_pos ⟨by omega, Nat.le_refl _⟩, List.take_of_length_le (by rw [List.length_drop])]

theorem deviceIo_isSome_iff {msg : List UInt8} {packet_id : UInt16} (h : u16le msg 2 = some packet_id) :
    (ch.deviceIo platform fs clock backend msg).isSome ↔
      ∀ i d, ch.drive ((u32le msg 4).getD 0) = some (i, d) → State.FindsNumber platform fs ⟨d, ch.tree⟩ (msg.drop 4) := by
  unfold deviceIo
  simp only [slice_body h, Option.bind_eq_bind, Option.bind_some]
  cases hdrive : ch.drive ((u32le msg 4).getD 0) with
  | some found =>
    obtain ⟨i, d⟩ := found
    have hio : (State.ioChecked platform fs clock ⟨d, ch.tree⟩ (msg.drop 4)).isSome ↔ _ :=
      State.ioChecked_isSome_iff ⟨d, ch.tree⟩ (msg.drop 4)
    simp only [Option.some.injEq, Prod.mk.injEq]
    constructor
    · rintro hsome i' d' ⟨-, rfl⟩
      rw [← hio]
      cases hr : State.ioChecked platform fs clock ⟨d, ch.tree⟩ (msg.drop 4) with
      | none =>
        rw [hr] at hsome
        exact hsome
      | some r => rfl
    · intro hall
      obtain ⟨r, hr⟩ := Option.isSome_iff_exists.mp (hio.mpr (hall i d ⟨rfl, rfl⟩))
      rw [hr]
      rfl
  | none =>
    refine iff_of_true ?_ fun i d h => by cases h
    cases ch.printer with
    | none => rfl
    | some p =>
      simp only
      split_ifs
      · obtain ⟨r, hr⟩ : ∃ r : PrinterDevice S × Answer M, p.io backend (msg.drop 4) = some r :=
          PrinterDevice.io_isSome p (msg.drop 4)
        rw [hr]
        rfl
      · rfl

theorem process_isSome_iff (msg : List UInt8) :
    (ch.process platform fs clock backend msg).isSome ↔ ch.Fits platform fs msg := by
  unfold process
  cases hcomponent : u16le msg 0 with
  | none =>
    refine iff_of_true rfl ⟨fun h => ?_, fun h => ?_⟩
    · rw [Lists, hcomponent] at h
      cases h.1
    · rw [Requests, hcomponent] at h
      cases h.1
  | some component =>
    cases hpacket : u16le msg 2 with
    | none =>
      refine iff_of_true rfl ⟨?_, fun h => ?_⟩
      · rintro ⟨-, id, -, h⟩
        rw [hpacket] at h
        cases h
      · rw [Requests, hpacket] at h
        cases h.2
    | some packet_id =>
      simp only
      by_cases hcore : component = rdpdrCtypCore
      swap
      · rw [if_pos hcore]
        refine iff_of_true rfl ⟨fun h => absurd ?_ hcore, fun h => absurd ?_ hcore⟩
        · exact Option.some.inj (hcomponent.symm.trans h.1)
        · exact Option.some.inj (hcomponent.symm.trans h.1)
      rw [if_neg (not_not.mpr hcore)]
      rw [hcore] at hcomponent
      have hlists : packet_id ∈ [pakidCoreServerAnnounce, pakidCoreServerCapability, pakidCoreServerUserLoggedon] →
          (ch.Fits platform fs msg ↔ ch.devices < 2^32) := by
        intro hmem
        have hnot : ¬ Requests msg := by
          intro h
          rw [Option.some.inj (hpacket.symm.trans h.2)] at hmem
          exact absurd hmem (by decide)
        exact ⟨fun h => h.devices ⟨hcomponent, packet_id, hmem, hpacket⟩, fun h => ⟨fun _ => h, fun h => absurd h hnot⟩⟩
      by_cases hannounce : packet_id = pakidCoreServerAnnounce
      · rw [if_pos hannounce, hlists (by simp [hannounce]), ← deviceList_isSome_iff (M := M)]
        cases (ch.deviceList : Option (Response M)) <;> exact Iff.rfl
      rw [if_neg hannounce]
      by_cases hcapability : packet_id = pakidCoreServerCapability
      · rw [if_pos hcapability, hlists (by simp [hcapability]), ← deviceList_isSome_iff (M := M)]
        cases (ch.deviceList : Option (Response M)) <;> exact Iff.rfl
      rw [if_neg hcapability]
      by_cases hlogged : packet_id = pakidCoreServerUserLoggedon
      · rw [if_pos hlogged, hlists (by simp [hlogged]), ← deviceList_isSome_iff (M := M)]
        cases (ch.deviceList : Option (Response M)) <;> exact Iff.rfl
      rw [if_neg hlogged]
      have hunlisted : ¬ Lists msg := by
        rintro ⟨-, id, hid, h⟩
        rw [← Option.some.inj (hpacket.symm.trans h)] at hid
        simp [hannounce, hcapability, hlogged] at hid
      by_cases hio : packet_id = pakidCoreDeviceIorequest
      · rw [if_pos hio, deviceIo_isSome_iff hpacket]
        exact ⟨fun h => ⟨fun h => absurd h hunlisted, fun _ => h⟩,
          fun h => h.handles ⟨hcomponent, hpacket.trans (congrArg some hio)⟩⟩
      · rw [if_neg hio]
        exact iff_of_true rfl ⟨fun h => absurd h hunlisted,
          fun h => absurd (Option.some.inj (hpacket.symm.trans h.2)) hio⟩

theorem u32le_drop (msg : List UInt8) (k o : ℕ) : u32le (msg.drop k) o = u32le msg (k + o) := by
  unfold u32le leAt
  rw [List.length_drop, List.drop_drop]
  by_cases h : k + o + 4 ≤ msg.length
  · rw [if_pos h, if_pos (by omega)]
  · rw [if_neg h, if_neg (by omega)]

/-- What a message asks of, and for what. -/
def Answers (msg : List UInt8) (c : Completion M) : Prop :=
  c.device_id = (u32le msg 4).getD 0 ∧ c.completion_id = (u32le msg 12).getD 0

theorem answers_of_deviceIo {msg : List UInt8} {packet_id : UInt16} (hpacket : u16le msg 2 = some packet_id)
    {r : Channel σ H S × List (Response M)} (h : ch.deviceIo platform fs clock backend msg = some r) :
    ∀ c, .completion c ∈ r.2 → Answers msg c := by
  intro c hc
  unfold deviceIo at h
  simp only [slice_body hpacket, Option.bind_eq_bind, Option.bind_some] at h
  cases hdrive : ch.drive ((u32le msg 4).getD 0) with
  | some found =>
    rw [hdrive] at h
    obtain ⟨reply, -, h⟩ := Option.bind_eq_some_iff.mp h
    rw [← Option.some.inj h, List.mem_singleton, Response.completion.injEq] at hc
    rw [hc]
    exact ⟨rfl, congrArg (·.getD 0) (u32le_drop msg 4 8)⟩
  | none =>
    rw [hdrive] at h
    cases hprinter : ch.printer with
    | none =>
      rw [hprinter] at h
      rw [← Option.some.inj h] at hc
      exact absurd hc List.not_mem_nil
    | some p =>
      rw [hprinter] at h
      simp only at h
      split_ifs at h
      · obtain ⟨io, hio, h⟩ := Option.bind_eq_some_iff.mp h
        rw [← Option.some.inj h, List.mem_singleton, Response.completion.injEq] at hc
        rw [hc]
        refine ⟨rfl, ?_⟩
        calc io.2.completion_id = (u32le (msg.drop 4) 8).getD 0 := PrinterDevice.completion_id_of_io hio
          _ = (u32le msg 12).getD 0 := by rw [u32le_drop]
      · rw [← Option.some.inj h] at hc
        exact absurd hc List.not_mem_nil

theorem answers_of_process {msg : List UInt8} {r : Channel σ H S × List (Response M)}
    (h : ch.process platform fs clock backend msg = some r) : ∀ c, .completion c ∈ r.2 → Answers msg c := by
  intro c hc
  unfold process at h
  split at h
  case h_2 =>
    rw [← Option.some.inj h] at hc
    exact absurd hc List.not_mem_nil
  case h_1 component packet_id hcomponent hpacket =>
    split at h
    · rw [← Option.some.inj h] at hc
      exact absurd hc List.not_mem_nil
    have hlist : ∀ list, ch.deviceList = some list → Response.completion c ≠ list := by
      intro list hlist hlist'
      unfold deviceList at hlist
      split_ifs at hlist
      rw [← Option.some.inj hlist] at hlist'
      cases hlist'
    -- The devices are listed for the three messages of the handshake.
    split at h
    · obtain ⟨list, hlisted, h⟩ := Option.bind_eq_some_iff.mp h
      rw [← Option.some.inj h] at hc
      simp [hlist list hlisted] at hc
    split at h
    · obtain ⟨list, hlisted, h⟩ := Option.bind_eq_some_iff.mp h
      rw [← Option.some.inj h] at hc
      simp [hlist list hlisted] at hc
    split at h
    · obtain ⟨list, hlisted, h⟩ := Option.bind_eq_some_iff.mp h
      rw [← Option.some.inj h] at hc
      simp [hlist list hlisted] at hc
    split at h
    · exact answers_of_deviceIo hpacket h c hc
    · rw [← Option.some.inj h] at hc
      exact absurd hc List.not_mem_nil

end Channel

end Rdpio.Channels.Rdpdr
