import Rdpio.Lib.Bytes
import Rdpio.Lib.Run
import Rdpio.Lib.Transducer

/-!
# Fast-path output

`crates/rdp-pdu/src/fastpath.rs`.
-/

namespace Rdpio.Pdu.Fastpath

open Lib

inductive Fragmentation where
  | single
  | last
  | first
  | next
deriving DecidableEq

/-- Bits 4 and 5 of the update header. -/
def Fragmentation.ofHeader (hdr : UInt8) : Fragmentation :=
  let bits := hdr >>> 4 &&& 0x03
  if bits = 0x0 then .single else if bits = 0x1 then .last else if bits = 0x2 then .first else .next

def compressionUsed : UInt8 := 0x2

def packetCompressed : UInt8 := 0x20

def fastpathOutputEncrypted : UInt8 := 0x2

def maxFragmentBytes : ℕ := 64 * 1024 * 1024

def isFastpathOutput (first_byte : UInt8) : Bool := first_byte &&& 0x03 == 0

/-- The length of the whole PDU, in one byte or two. -/
def outputPduLen (buf : List UInt8) : Option ℕ := do
  let b1 ← buf[1]?
  if b1 &&& 0x80 ≠ 0 then
    let b2 ← buf[2]?
    some ((b1 &&& 0x7f).toNat <<< 8 ||| b2.toNat)
  else some b1.toNat

structure FastPathUpdate where
  code : UInt8
  data : List UInt8
deriving DecidableEq

structure FragmentReassembler where
  buf : List UInt8
  code : Option UInt8

namespace FragmentReassembler

def new : FragmentReassembler := ⟨[], none⟩

def reset (_ : FragmentReassembler) : FragmentReassembler := ⟨[], none⟩

def start (_ : FragmentReassembler) (code : UInt8) (data : List UInt8) : FragmentReassembler := ⟨data, some code⟩

def push (frag : FragmentReassembler) (data : List UInt8) : FragmentReassembler :=
  if frag.code = none ∨ maxFragmentBytes < frag.buf.length + data.length then frag.reset
  else { frag with buf := frag.buf ++ data }

def finish (frag : FragmentReassembler) (code : UInt8) (data : List UInt8) :
    FragmentReassembler × Option FastPathUpdate :=
  if frag.code ≠ some code ∨ maxFragmentBytes < frag.buf.length + data.length then (frag.reset, none)
  else (⟨[], none⟩, some ⟨code, frag.buf ++ data⟩)

end FragmentReassembler

/-- One `TS_FP_UPDATE` record, read. -/
structure Record where
  code : UInt8
  fragmentation : Fragmentation
  compressed : Bool
  data : List UInt8
deriving DecidableEq

def Record.readData (code : UInt8) (fragmentation : Fragmentation) (compressed : Bool) :
    List UInt8 → Option (Record × List UInt8)
  | lo :: hi :: rest =>
    let size := ofLe [lo, hi]
    if rest.length < size then none
    else some (⟨code, fragmentation, compressed, rest.take size⟩, rest.drop size)
  | _ => none

def Record.read : List UInt8 → Option (Record × List UInt8)
  | [] => none
  | hdr :: rest =>
    let code := hdr &&& 0x0f
    if hdr >>> 6 &&& 0x03 &&& compressionUsed ≠ 0 then
      match rest with
      | [] => none
      | cf :: rest => readData code (.ofHeader hdr) (cf &&& packetCompressed ≠ 0) rest
    else readData code (.ofHeader hdr) false rest

def recordsFuel : ℕ → List UInt8 → List Record
  | 0, _ => []
  | fuel + 1, body =>
    match Record.read body with
    | none => []
    | some (r, rest) => r :: recordsFuel fuel rest

def records (body : List UInt8) : List Record := recordsFuel body.length body

def FragmentReassembler.record (frag : FragmentReassembler) (r : Record) :
    FragmentReassembler × Option FastPathUpdate :=
  if r.compressed then (frag.reset, none)
  else
    match r.fragmentation with
    | .single => (frag, some ⟨r.code, r.data⟩)
    | .first => (frag.start r.code r.data, none)
    | .next => (frag.push r.data, none)
    | .last => frag.finish r.code r.data

def parseUpdates (body : List UInt8) (frag : FragmentReassembler) : FragmentReassembler × List FastPathUpdate :=
  transduce FragmentReassembler.record frag (records body)

def outputBody (pdu : List UInt8) : Option (List UInt8) := do
  let b0 ← pdu[0]?
  if !isFastpathOutput b0 then none
  else if b0 >>> 6 &&& fastpathOutputEncrypted ≠ 0 then none
  else
    let total ← outputPduLen pdu
    if pdu.length < total ∨ total < 2 then none
    else
      let b1 ← pdu[1]?
      let header_len := if b1 &&& 0x80 ≠ 0 then 3 else 2
      if total < header_len then none else some ((pdu.take total).drop header_len)

def parseOutput (pdu : List UInt8) (frag : FragmentReassembler) : FragmentReassembler × Option (List FastPathUpdate) :=
  match outputBody pdu with
  | none => (frag, none)
  | some body =>
    let (frag, updates) := parseUpdates body frag
    (frag, some updates)

/-- PDU after PDU, and all updates that they give. -/
def receive (frag : FragmentReassembler) : List (List UInt8) → FragmentReassembler × List FastPathUpdate
  | [] => (frag, [])
  | pdu :: pdus =>
    let (frag, updates) := parseOutput pdu frag
    let (frag, more) := receive frag pdus
    (frag, updates.getD [] ++ more)

def recordsOf (pdu : List UInt8) : List Record := ((outputBody pdu).map records).getD []

theorem receive_eq (frag : FragmentReassembler) (pdus : List (List UInt8)) :
    receive frag pdus = transduce FragmentReassembler.record frag (pdus.flatMap recordsOf) := by
  induction pdus generalizing frag with
  | nil => rfl
  | cons pdu pdus ih =>
    rw [List.flatMap_cons, transduce_append, receive, recordsOf, parseOutput]
    rcases outputBody pdu with _ | body
    · simp [ih]
    · simp [ih, parseUpdates]

theorem length_read {body rest : List UInt8} {r : Record} (h : Record.read body = some (r, rest)) :
    rest.length < body.length := by
  have hdata : ∀ {code f c} {l : List UInt8}, Record.readData code f c l = some (r, rest) → rest.length ≤ l.length := by
    intro code f c l hl
    rcases l with _ | ⟨lo, _ | ⟨hi, l⟩⟩
    · cases hl
    · cases hl
    · rw [Record.readData] at hl
      split_ifs at hl
      cases hl
      rw [List.length_drop, List.length_cons, List.length_cons]
      omega
  rcases body with _ | ⟨hdr, body⟩
  · cases h
  rw [Record.read.eq_def] at h
  dsimp only at h
  rw [List.length_cons]
  split_ifs at h
  · rcases body with _ | ⟨cf, body⟩
    · cases h
    · have := hdata h
      rw [List.length_cons]
      omega
  · have := hdata h
    omega

theorem recordsFuel_congr {m n : ℕ} {body : List UInt8} (hm : body.length ≤ m) (hn : body.length ≤ n) :
    recordsFuel m body = recordsFuel n body := by
  induction m generalizing n body with
  | zero =>
    rw [List.length_eq_zero_iff.mp (Nat.le_zero.mp hm)]
    cases n <;> rfl
  | succ m ih =>
    cases n with
    | zero =>
      rw [List.length_eq_zero_iff.mp (Nat.le_zero.mp hn)]
      rfl
    | succ n =>
      unfold recordsFuel
      rcases hread : Record.read body with _ | ⟨r, rest⟩
      · rfl
      · have hrest := length_read hread
        dsimp only
        rw [ih (n := n) (by omega) (by omega)]

theorem records_of_read {body rest : List UInt8} {r : Record} (h : Record.read body = some (r, rest)) :
    records body = r :: records rest := by
  have hlen := length_read h
  unfold records
  rw [recordsFuel_congr (Nat.le_refl _) (Nat.le_succ body.length), recordsFuel, h]
  dsimp only
  rw [recordsFuel_congr hlen.le (Nat.le_refl _)]

/-! ## The sender -/

structure Piece where
  code : UInt8
  fragmentation : Fragmentation
  flags : Option UInt8
  data : List UInt8

def Fragmentation.bits : Fragmentation → UInt8
  | .single => 0x0
  | .last => 0x1
  | .first => 0x2
  | .next => 0x3

def Piece.header (p : Piece) : UInt8 :=
  p.code ||| p.fragmentation.bits <<< 4 ||| if p.flags.isSome then compressionUsed <<< 6 else 0

def Piece.bytes (p : Piece) : List UInt8 := p.header :: (p.flags.toList ++ (leBytes 2 p.data.length ++ p.data))

/-- A piece that the format can write, not compressed. -/
structure Piece.Ok (p : Piece) : Prop where
  code : p.code < 16
  data : p.data.length < 65536
  flags : ∀ cf ∈ p.flags, cf &&& packetCompressed = 0

def Piece.record (p : Piece) : Record := ⟨p.code, p.fragmentation, false, p.data⟩

theorem readData_append {data : List UInt8} (h : data.length < 65536) (code : UInt8) (f : Fragmentation)
    (compressed : Bool) (rest : List UInt8) :
    Record.readData code f compressed (leBytes 2 data.length ++ data ++ rest) =
      some (⟨code, f, compressed, data⟩, rest) := by
  have hbytes : leBytes 2 data.length = [UInt8.ofNat data.length, UInt8.ofNat (data.length / 256)] := rfl
  have hsize : ofLe [UInt8.ofNat data.length, UInt8.ofNat (data.length / 256)] = data.length := by
    rw [← hbytes]
    exact ofLe_leBytes_of_lt h
  rw [hbytes, List.append_assoc, List.cons_append, List.cons_append, List.nil_append, Record.readData]
  rw [hsize, if_neg (by rw [List.length_append]; omega), List.take_left, List.drop_left]

theorem header_fields (p : Piece) (h : p.code < 16) :
    p.header &&& 0x0f = p.code ∧ Fragmentation.ofHeader p.header = p.fragmentation ∧
      (p.header >>> 6 &&& 0x03 &&& compressionUsed ≠ 0 ↔ p.flags.isSome) := by
  obtain ⟨code, f, flags, data⟩ := p
  have hall : ∀ n < 16, ∀ f ∈ [Fragmentation.single, .last, .first, .next], ∀ used ∈ [true, false],
      let header := UInt8.ofNat n ||| f.bits <<< 4 ||| if used = true then compressionUsed <<< 6 else 0
      header &&& 0x0f = UInt8.ofNat n ∧ Fragmentation.ofHeader header = f ∧
        (header >>> 6 &&& 0x03 &&& compressionUsed ≠ 0 ↔ used = true) := by decide
  have hcode := hall code.toNat (UInt8.lt_iff_toNat_lt.mp h) f (by cases f <;> decide) flags.isSome
    (by cases flags.isSome <;> decide)
  rw [UInt8.ofNat_toNat] at hcode
  exact hcode

theorem read_bytes {p : Piece} (h : p.Ok) (rest : List UInt8) :
    Record.read (p.bytes ++ rest) = some (p.record, rest) := by
  obtain ⟨hcode, hf, hused⟩ := header_fields p h.code
  rw [Piece.bytes, List.cons_append, Record.read.eq_def]
  dsimp only
  rw [hcode, hf]
  rcases hflags : p.flags with _ | cf
  · rw [if_neg (by rw [hused, hflags]; simp)]
    exact readData_append h.data ..
  · rw [if_pos (by rw [hused, hflags]; rfl)]
    have hplain := h.flags cf hflags
    have hread := readData_append h.data p.code p.fragmentation (cf &&& packetCompressed ≠ 0) rest
    rw [decide_eq_false (not_not.mpr hplain)] at hread
    simpa [hplain, Piece.record] using hread

theorem records_bytes {ps : List Piece} (h : ∀ p ∈ ps, p.Ok) :
    records (ps.flatMap Piece.bytes) = ps.map Piece.record := by
  induction ps with
  | nil => rfl
  | cons p ps ih =>
    rw [List.flatMap_cons, records_of_read (read_bytes (h p List.mem_cons_self) _), List.map_cons,
      ih fun q hq => h q (List.mem_cons_of_mem p hq)]

structure OutputPdu where
  header : UInt8
  long : Bool
  pieces : List Piece

def OutputPdu.body (d : OutputPdu) : List UInt8 := d.pieces.flatMap Piece.bytes

def OutputPdu.total (d : OutputPdu) : ℕ := d.body.length + if d.long then 3 else 2

def OutputPdu.bytes (d : OutputPdu) : List UInt8 :=
  d.header ::
    ((if d.long then [UInt8.ofNat (0x80 + d.total / 256), UInt8.ofNat d.total]
      else [UInt8.ofNat d.total]) ++ d.body)

/-- A fast-path PDU, not encrypted, that its length field can write. -/
structure OutputPdu.Ok (d : OutputPdu) : Prop where
  fast : isFastpathOutput d.header = true
  plain : d.header >>> 6 &&& fastpathOutputEncrypted = 0
  total : d.total < 16384
  short : d.long = false → d.total < 128
  pieces : ∀ p ∈ d.pieces, p.Ok

theorem outputBody_bytes {d : OutputPdu} (h : d.Ok) : outputBody d.bytes = some d.body := by
  have htotal := h.total
  have hlen : d.bytes.length = d.total := by
    rw [OutputPdu.bytes, OutputPdu.total]
    cases d.long <;> simp
  have hhigh : ∀ n < 64, UInt8.ofNat (0x80 + n) &&& 0x80 ≠ 0 ∧ (UInt8.ofNat (0x80 + n) &&& 0x7f).toNat = n := by decide
  have hlow : ∀ n < 128, ¬ UInt8.ofNat n &&& 0x80 ≠ 0 ∧ (UInt8.ofNat n).toNat = n := by decide
  have hfield : outputPduLen d.bytes = some d.total ∧
      ∃ b1, d.bytes[1]? = some b1 ∧ (b1 &&& 0x80 ≠ 0 ↔ d.long = true) := by
    rcases hlong : d.long with _ | _
    · obtain ⟨hbit, hnat⟩ := hlow d.total (h.short hlong)
      have hbytes : d.bytes = d.header :: UInt8.ofNat d.total :: d.body := by
        rw [OutputPdu.bytes, hlong]
        rfl
      refine ⟨?_, UInt8.ofNat d.total, by rw [hbytes]; rfl, iff_of_false hbit Bool.false_ne_true⟩
      rw [outputPduLen, hbytes]
      change (if UInt8.ofNat d.total &&& 0x80 ≠ 0 then _ else some (UInt8.ofNat d.total).toNat) = _
      rw [if_neg hbit, hnat]
    · obtain ⟨hbit, hnat⟩ := hhigh (d.total / 256) (by omega)
      have hbytes : d.bytes = d.header :: UInt8.ofNat (0x80 + d.total / 256) ::
          UInt8.ofNat d.total :: d.body := by
        rw [OutputPdu.bytes, hlong]
        rfl
      refine ⟨?_, UInt8.ofNat (0x80 + d.total / 256), by rw [hbytes]; rfl, iff_of_true hbit rfl⟩
      rw [outputPduLen, hbytes]
      change (if UInt8.ofNat (0x80 + d.total / 256) &&& 0x80 ≠ 0 then
        some ((UInt8.ofNat (0x80 + d.total / 256) &&& 0x7f).toNat <<< 8 ||| (UInt8.ofNat d.total).toNat)
        else _) = _
      have hsmall : (UInt8.ofNat d.total).toNat < 2^8 := (UInt8.ofNat d.total).toNat_lt
      rw [if_pos hbit, hnat, ← Nat.shiftLeft_add_eq_or_of_lt hsmall, Nat.shiftLeft_eq, UInt8.toNat_ofNat']
      congr 1
      omega
  obtain ⟨hpdu, b1, hb1, hbit⟩ := hfield
  have hb0 : d.bytes[0]? = some d.header := rfl
  have htwo : ¬ (d.bytes.length < d.total ∨ d.total < 2) := by
    rw [hlen, OutputPdu.total]
    split_ifs <;> omega
  have hheader : ¬ d.total < if b1 &&& 0x80 ≠ 0 then 3 else 2 := by
    rw [OutputPdu.total]
    split_ifs <;> simp_all
  have hdrop : (d.bytes.take d.total).drop (if b1 &&& 0x80 ≠ 0 then 3 else 2) = d.body := by
    rw [List.take_of_length_le hlen.le, OutputPdu.bytes]
    rcases hlong : d.long with _ | _
    · rw [if_neg (by rw [hbit, hlong]; decide)]
      rfl
    · rw [if_pos (by rw [hbit, hlong])]
      rfl
  rw [outputBody, hb0, hpdu, hb1]
  dsimp only [Option.bind_eq_bind, Option.bind_some]
  rw [h.fast, if_neg (by decide), if_neg (not_not.mpr h.plain), if_neg htwo, if_neg hheader, hdrop]

theorem recordsOf_bytes {d : OutputPdu} (h : d.Ok) : recordsOf d.bytes = d.pieces.map Piece.record := by
  rw [recordsOf, outputBody_bytes h, Option.map_some, Option.getD_some, OutputPdu.body, records_bytes h.pieces]

/-- The pieces are an update whole or a `FIRST`, `NEXT`*, `LAST` run of its parts. -/
def Cut (u : FastPathUpdate) (ps : List Piece) : Prop :=
  (∃ p, ps = [p] ∧ p.fragmentation = .single ∧ p.code = u.code ∧ p.data = u.data) ∨
    ∃ first mid last, ps = first :: (mid ++ [last]) ∧ first.fragmentation = .first ∧
      (∀ p ∈ mid, p.fragmentation = .next) ∧ last.fragmentation = .last ∧
      (∀ p ∈ ps, p.code = u.code) ∧ u.data = ps.flatMap (·.data)

theorem push_of_le {buf data : List UInt8} (code : UInt8)
    (h : buf.length + data.length ≤ maxFragmentBytes) :
    FragmentReassembler.push ⟨buf, some code⟩ data = ⟨buf ++ data, some code⟩ := by
  refine if_neg ?_
  rintro (hnone | hcap)
  · cases hnone
  · exact absurd hcap (Nat.not_lt.mpr h)

theorem finish_of_le {buf data : List UInt8} (code : UInt8)
    (h : buf.length + data.length ≤ maxFragmentBytes) :
    FragmentReassembler.finish ⟨buf, some code⟩ code data = (⟨[], none⟩, some ⟨code, buf ++ data⟩) := by
  refine if_neg ?_
  rintro (hne | hcap)
  · exact hne rfl
  · exact absurd hcap (Nat.not_lt.mpr h)

theorem transduce_next {mid : List Piece} (hmid : ∀ p ∈ mid, p.fragmentation = .next) {buf : List UInt8}
    {code : UInt8} (hfits : buf.length + (mid.flatMap (·.data)).length ≤ maxFragmentBytes) :
    transduce FragmentReassembler.record ⟨buf, some code⟩ (mid.map Piece.record) =
      (⟨buf ++ mid.flatMap (·.data), some code⟩, []) := by
  induction mid generalizing buf with
  | nil => simp
  | cons p mid ih =>
    rw [List.flatMap_cons, List.length_append] at hfits
    have hrecord : FragmentReassembler.record ⟨buf, some code⟩ p.record = (⟨buf ++ p.data, some code⟩, none) := by
      rw [FragmentReassembler.record, Piece.record, hmid p List.mem_cons_self, if_neg Bool.false_ne_true]
      have hpush : FragmentReassembler.push ⟨buf, some code⟩ p.data = ⟨buf ++ p.data, some code⟩ :=
        push_of_le code (by omega)
      exact congrArg (·, none) hpush
    rw [List.map_cons, transduce_cons, hrecord,
      ih (fun q hq => hmid q (List.mem_cons_of_mem p hq)) (by rw [List.length_append]; omega)]
    simp

theorem transduce_cut {u : FastPathUpdate} {ps : List Piece} (hcut : Cut u ps)
    (hfits : u.data.length ≤ maxFragmentBytes) (frag : FragmentReassembler) :
    (transduce FragmentReassembler.record frag (ps.map Piece.record)).2 = [u] := by
  rcases hcut with ⟨p, rfl, hf, hcode, hdata⟩ | ⟨first, mid, last, rfl, hfirst, hmid, hlast, hcodes, hdata⟩
  · simp [transduce_cons, FragmentReassembler.record, Piece.record, hf, hcode, hdata]
  · rw [hdata] at hfits
    simp only [List.flatMap_cons, List.flatMap_append, List.flatMap_nil, List.append_nil, List.length_append] at hfits
    have hstart : FragmentReassembler.record frag first.record = (⟨first.data, some u.code⟩, none) := by
      simp [FragmentReassembler.record, Piece.record, hfirst, FragmentReassembler.start,
        hcodes first List.mem_cons_self]
    have hend : FragmentReassembler.record ⟨first.data ++ mid.flatMap (·.data), some u.code⟩ last.record =
        (⟨[], none⟩, some u) := by
      have hcode : last.code = u.code := hcodes last (by simp)
      have hwhole : u.data = first.data ++ mid.flatMap (·.data) ++ last.data := by
        rw [hdata]
        simp
      rw [FragmentReassembler.record, Piece.record, hlast, hcode, if_neg Bool.false_ne_true]
      dsimp only
      rw [finish_of_le u.code (by rw [List.length_append]; omega), ← hwhole]
    rw [List.map_cons, transduce_cons, hstart, List.map_append, transduce_append, transduce_next hmid (by omega)]
    simp [transduce_cons, hend]

theorem receive_bytes (frag : FragmentReassembler) {us : List FastPathUpdate} {cuts : List (List Piece)}
    {pdus : List OutputPdu} (hcuts : List.Forall₂ Cut us cuts)
    (hfits : ∀ u ∈ us, u.data.length ≤ maxFragmentBytes)
    (hpacked : pdus.flatMap (·.pieces) = cuts.flatten) (hok : ∀ d ∈ pdus, d.Ok) :
    (receive frag (pdus.map OutputPdu.bytes)).2 = us := by
  have hrecords : (pdus.map OutputPdu.bytes).flatMap recordsOf = cuts.flatten.map Piece.record := by
    rw [← hpacked, List.flatMap_map, List.map_flatMap]
    exact List.flatMap_congr fun d hd => recordsOf_bytes (hok d hd)
  rw [receive_eq, hrecords]
  clear hrecords hpacked
  induction hcuts generalizing frag with
  | nil => rfl
  | cons hcut _ ih =>
    rw [List.flatten_cons, List.map_append, transduce_append, transduce_cut hcut (hfits _ List.mem_cons_self),
      ih _ fun u hu => hfits u (List.mem_cons_of_mem _ hu)]
    rfl

/-! ## What comes out of fragments -/

def Assembled (u : FastPathUpdate) (before : List Record) (r : Record) : Prop :=
  r.compressed = false ∧ r.code = u.code ∧ (r.fragmentation = .single ∧ u.data = r.data ∨
      r.fragmentation = .last ∧ ∃ pre first mid, before = pre ++ first :: mid ∧
        first.fragmentation = .first ∧ first.compressed = false ∧ first.code = u.code ∧
        (∀ x ∈ mid, x.compressed = false ∧ (x.fragmentation = .single ∨ x.fragmentation = .next ∧ x.code = u.code)) ∧
        u.data = first.data ++ (mid.filter (·.fragmentation = .next)).flatMap (·.data) ++ r.data)

/-- A `NEXT` that comes while a chain is in progress carries the chain's code. -/
def FragmentReassembler.Matches (frag : FragmentReassembler) (r : Record) : Prop :=
  r.fragmentation = .next → r.compressed = false → ∀ code, frag.code = some code → r.code = code

instance (frag : FragmentReassembler) (r : Record) : Decidable (frag.Matches r) :=
  decidable_of_iff (r.fragmentation = .next → r.compressed = false → frag.code = none ∨ frag.code = some r.code) (by
    unfold FragmentReassembler.Matches
    refine forall_congr' fun _ => forall_congr' fun _ => ?_
    constructor
    · rintro (hnone | hsome) code hcode
      · exact absurd (hnone.symm.trans hcode) (Option.some_ne_none code).symm
      · exact Option.some.inj (hsome.symm.trans hcode)
    · intro h
      rcases hcode : frag.code with _ | code
      · exact .inl rfl
      · exact .inr (congrArg some (h code hcode).symm))

def FragmentReassembler.chain (frag : FragmentReassembler) (r : Record) : FragmentReassembler := (frag.record r).1

/-- The chain in progress is the `FIRST` and the `NEXT`s that came after it. -/
def FragmentReassembler.Chain (frag : FragmentReassembler) (before : List Record) : Prop :=
  ∀ code, frag.code = some code → ∃ pre first mid, before = pre ++ first :: mid ∧
    first.fragmentation = .first ∧ first.compressed = false ∧ first.code = code ∧
    (∀ x ∈ mid, x.compressed = false ∧ (x.fragmentation = .single ∨ x.fragmentation = .next ∧ x.code = code)) ∧
    frag.buf = first.data ++ (mid.filter (·.fragmentation = .next)).flatMap (·.data)

variable {frag : FragmentReassembler} {before : List Record} {r : Record}

theorem chain_of_none (h : frag.code = none) : frag.Chain before := by
  intro code hcode
  cases h.symm.trans hcode

theorem FragmentReassembler.Chain.record (h : frag.Chain before) (hmatches : frag.Matches r) :
    (frag.chain r).Chain (before ++ [r]) := by
  unfold chain FragmentReassembler.record
  by_cases hcompressed : r.compressed = true
  · rw [if_pos hcompressed]
    exact chain_of_none rfl
  rw [if_neg hcompressed]
  rw [Bool.not_eq_true] at hcompressed
  rcases hf : r.fragmentation with _ | _ | _ | _
  · -- A single update leaves the chain as it was, one record longer.
    intro code hcode
    obtain ⟨pre, first, mid, hbefore, hfirst, hplain, hc, hmid, hbuf⟩ := h code hcode
    refine ⟨pre, first, mid ++ [r], by rw [hbefore]; simp, hfirst, hplain, hc, ?_, ?_⟩
    · intro x hx
      rcases List.mem_append.mp hx with hx | hx
      · exact hmid x hx
      · rw [List.mem_singleton.mp hx]
        exact ⟨hcompressed, .inl hf⟩
    · rw [hbuf, List.filter_append]
      simp [hf]
  · dsimp only
    rw [finish]
    split_ifs
    · exact chain_of_none rfl
    · exact chain_of_none rfl
  · intro code hcode
    cases hcode
    exact ⟨before, r, [], rfl, hf, hcompressed, rfl, fun x hx => absurd hx List.not_mem_nil, by simp [start]⟩
  · dsimp only
    rw [push]
    split_ifs with hbreak
    · exact chain_of_none rfl
    · intro code hcode
      obtain ⟨pre, first, mid, hbefore, hfirst, hplain, hc, hmid, hbuf⟩ := h code hcode
      refine ⟨pre, first, mid ++ [r], by rw [hbefore]; simp, hfirst, hplain, hc, ?_, ?_⟩
      · intro x hx
        rcases List.mem_append.mp hx with hx | hx
        · exact hmid x hx
        · rw [List.mem_singleton.mp hx]
          exact ⟨hcompressed, .inr ⟨hf, hmatches hf hcompressed code hcode⟩⟩
      · change frag.buf ++ r.data = _
        rw [hbuf, List.filter_append, List.flatMap_append]
        simp [hf]

theorem FragmentReassembler.Chain.assembled (h : frag.Chain before) {u : FastPathUpdate}
    (hout : (frag.record r).2 = some u) : Assembled u before r := by
  unfold FragmentReassembler.record at hout
  by_cases hcompressed : r.compressed = true
  · rw [if_pos hcompressed] at hout
    cases hout
  rw [if_neg hcompressed] at hout
  rw [Bool.not_eq_true] at hcompressed
  rcases hf : r.fragmentation with _ | _ | _ | _ <;> rw [hf] at hout
  · cases hout
    exact ⟨hcompressed, rfl, .inl ⟨hf, rfl⟩⟩
  · dsimp only at hout
    rw [finish] at hout
    split_ifs at hout with hbreak
    cases hout
    obtain ⟨hcode, -⟩ := not_or.mp hbreak
    obtain ⟨pre, first, mid, hbefore, hfirst, hplain, hc, hmid, hbuf⟩ := h r.code (not_not.mp hcode)
    exact ⟨hcompressed, rfl, .inr ⟨hf, pre, first, mid, hbefore, hfirst, hplain, hc, hmid, by rw [hbuf]⟩⟩
  · cases hout
  · cases hout

theorem run_chain (frag : FragmentReassembler) (rs : List Record) :
    run FragmentReassembler.chain frag rs = (transduce FragmentReassembler.record frag rs).1 := by
  induction rs generalizing frag with
  | nil => rfl
  | cons r rs ih => rw [run_cons, ih, transduce_cons, FragmentReassembler.chain]

theorem chain_run {rs : List Record} (h : frag.Chain before)
    (hmatches : Along FragmentReassembler.chain FragmentReassembler.Matches frag rs) :
    (run FragmentReassembler.chain frag rs).Chain (before ++ rs) := by
  induction rs generalizing frag before with
  | nil =>
    rw [List.append_nil]
    exact h
  | cons r rs ih =>
    have hrest := ih (h.record hmatches.1) hmatches.2
    rwa [List.append_assoc] at hrest

/-- Updates cut and packed in any way come out as they were, and of any PDUs at all, in which every `NEXT`
carries the code of the chain that it comes into, every update that comes out is a record or a run of
fragments of its code. -/
theorem received_assembled (pdus : List (List UInt8)) :
    (∀ (us : List FastPathUpdate) (cuts : List (List Piece)) (outputs : List OutputPdu),
      List.Forall₂ Cut us cuts → (∀ u ∈ us, u.data.length ≤ maxFragmentBytes) →
      outputs.flatMap (·.pieces) = cuts.flatten → (∀ d ∈ outputs, d.Ok) → pdus = outputs.map OutputPdu.bytes →
        (receive .new pdus).2 = us) ∧
    (Along FragmentReassembler.chain FragmentReassembler.Matches .new (pdus.flatMap recordsOf) →
      ∀ before r after, pdus.flatMap recordsOf = before ++ r :: after → ∃ given more, (receive .new pdus).2 = given ++
            ((run FragmentReassembler.chain .new before).record r).2.toList ++ more ∧
          ∀ u, ((run FragmentReassembler.chain .new before).record r).2 = some u → Assembled u before r) := by
  refine ⟨fun us cuts outputs hcuts hfits hpacked hok hpdus => ?_, fun halong before r after hrs => ?_⟩
  · rw [hpdus]
    exact receive_bytes .new hcuts hfits hpacked hok
  rw [hrs, along_append] at halong
  refine ⟨(transduce FragmentReassembler.record .new before).2, (transduce FragmentReassembler.record
    ((transduce FragmentReassembler.record .new before).1.record r).1 after).2, ?_, fun u hu => ?_⟩
  · rw [receive_eq, hrs, transduce_append, transduce_cons, run_chain]
    exact (List.append_assoc _ _ _).symm
  · have hnew : FragmentReassembler.new.Chain [] := chain_of_none rfl
    exact (chain_run hnew halong.1).assembled hu

/-- An update in three parts, in two PDUs, and a whole one with compression flags behind it. -/
theorem received_assembled_two :
    (receive .new [[0, 0x80, 7, 0x24, 1, 0, 1], [0, 16, 0x34, 1, 0, 2, 0x14, 1, 0, 3, 0x81, 0, 2, 0, 9, 9]]).2 =
        [⟨4, [1, 2, 3]⟩, ⟨1, [9, 9]⟩] ∧
      Assembled ⟨4, [1, 2, 3]⟩ [⟨4, .first, false, [1]⟩, ⟨4, .next, false, [2]⟩] ⟨4, .last, false, [3]⟩ := by
  constructor
  · refine (received_assembled _).1 _
      [[⟨4, .first, none, [1]⟩, ⟨4, .next, none, [2]⟩, ⟨4, .last, none, [3]⟩], [⟨1, .single, some 0, [9, 9]⟩]]
      [⟨0, true, [⟨4, .first, none, [1]⟩]⟩,
        ⟨0, false, [⟨4, .next, none, [2]⟩, ⟨4, .last, none, [3]⟩, ⟨1, .single, some 0, [9, 9]⟩]⟩]
      ?_ (by decide) rfl ?_ (by decide)
    · refine .cons (.inr ⟨_, [_], _, rfl, rfl, ?_, rfl, ?_, rfl⟩) (.cons (.inl ⟨_, rfl, rfl, rfl, rfl⟩) .nil)
      · simp
      · simp
    · have hpieces : ∀ p ∈ [(⟨4, .first, none, [1]⟩ : Piece), ⟨4, .next, none, [2]⟩, ⟨4, .last, none, [3]⟩,
          ⟨1, .single, some 0, [9, 9]⟩], p.Ok := by
        intro p hp
        simp only [List.mem_cons, List.not_mem_nil, or_false] at hp
        have hnone : ∀ cf ∈ (none : Option UInt8), cf &&& packetCompressed = 0 := fun cf hcf =>
          absurd hcf (Option.not_mem_none cf)
        rcases hp with rfl | rfl | rfl | rfl
        · exact ⟨by decide, by decide, hnone⟩
        · exact ⟨by decide, by decide, hnone⟩
        · exact ⟨by decide, by decide, hnone⟩
        · refine ⟨by decide, by decide, fun cf hcf => ?_⟩
          rw [← Option.some.inj hcf]
          rfl
      intro d hd
      simp only [List.mem_cons, List.not_mem_nil, or_false] at hd
      rcases hd with rfl | rfl
      · exact ⟨by decide, by decide, by decide, by decide, fun p hp => hpieces p (by simp_all)⟩
      · exact ⟨by decide, by decide, by decide, by decide, fun p hp => hpieces p (by simp_all)⟩
  · obtain ⟨given, more, -, hall⟩ := (received_assembled
      [[0, 10, 0x24, 1, 0, 1, 0x34, 1, 0, 2], [0, 6, 0x14, 1, 0, 3]]).2 (by decide +kernel)
      [⟨4, .first, false, [1]⟩, ⟨4, .next, false, [2]⟩] ⟨4, .last, false, [3]⟩ [] (by decide +kernel)
    exact hall _ (by decide +kernel)

/-- The last byte of the update is from another chain's `NEXT`: nothing looks at its code. -/
theorem receive_spliced :
    let pdu := [0, 14, 0x24, 1, 0, 1, 0x31, 1, 0, 2, 0x14, 1, 0, 3]
    let u : FastPathUpdate := ⟨4, [1, 2, 3]⟩
    (receive .new [pdu]).2 = [u] ∧ ∃ before r, recordsOf pdu = before ++ [r] ∧
      ((run FragmentReassembler.chain .new before).record r).2 = some u ∧ ¬ Assembled u before r := by
  refine ⟨by decide +kernel,
    [⟨4, .first, false, [1]⟩, ⟨1, .next, false, [2]⟩], ⟨4, .last, false, [3]⟩,
    by decide +kernel, by decide +kernel, ?_⟩
  rintro ⟨-, -, ⟨hsingle, -⟩ | ⟨-, pre, first, mid, hbefore, hfirst, -, -, hmid, -⟩⟩
  · cases hsingle
  · rcases pre with _ | ⟨x, _ | ⟨y, pre⟩⟩
    · cases hbefore
      obtain ⟨-, hsingle | ⟨-, hcode⟩⟩ := hmid _ List.mem_cons_self
      · cases hsingle
      · cases hcode
    · cases hbefore
      cases hfirst
    · have hlen := congrArg List.length hbefore
      simp at hlen

end Rdpio.Pdu.Fastpath
