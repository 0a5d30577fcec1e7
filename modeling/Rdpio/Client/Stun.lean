import Mathlib.Tactic.IntervalCases
import Rdpio.Crypto.Sha1
import Rdpio.Lib.Checked

/-!
# STUN messages

The codec of `crates/rdp-client/src/stun.rs`.
-/

namespace Rdpio.Client.Stun

open Lib
open Crypto (hmacSha1 length_hmacSha1)

def MAGIC_COOKIE : UInt32 := 0x2112A442

def ATTR_MESSAGE_INTEGRITY : UInt16 := 0x0008
def ATTR_FINGERPRINT : UInt16 := 0x8028

def messageType (method class_ : UInt16) : UInt16 :=
  let m0 : UInt16 := method &&& 0x000F
  let c0 : UInt16 := class_ &&& 0x01
  let m1 : UInt16 := method &&& 0x0070
  let c1 : UInt16 := class_ &&& 0x02
  let m2 : UInt16 := method &&& 0x0F80
  m0 ||| c0 <<< 4 ||| m1 <<< 1 ||| c1 <<< 7 ||| m2 <<< 2

/-- The method and the class of a message type. -/
def splitType (t : UInt16) : UInt16 × UInt16 :=
  let m0 : UInt16 := t &&& 0x000F
  let m1 : UInt16 := t &&& 0x00E0
  let m2 : UInt16 := t &&& 0x3E00
  let c0 : UInt16 := t &&& 0x0010
  let c1 : UInt16 := t &&& 0x0100
  (m0 ||| m1 >>> 1 ||| m2 >>> 2, c0 >>> 4 ||| c1 >>> 7)

theorem splitType_messageType {method class_ : UInt16} (hm : method < 0x1000) (hc : class_ < 4) :
    splitType (messageType method class_) = (method, class_) := by
  have hm' : ∀ i (_ : i < 16), 12 ≤ i → method.toBitVec[i] = false := fun i _ hi =>
    Nat.testBit_lt_two_pow (lt_of_lt_of_le (show method.toNat < 2^12 from hm) (Nat.pow_le_pow_right (by decide) hi))
  have hc' : ∀ i (_ : i < 16), 2 ≤ i → class_.toBitVec[i] = false := fun i _ hi =>
    Nat.testBit_lt_two_pow (lt_of_lt_of_le (show class_.toNat < 2^2 from hc) (Nat.pow_le_pow_right (by decide) hi))
  unfold splitType messageType
  refine Prod.ext ?_ ?_
  · rw [← UInt16.toBitVec_inj]
    apply BitVec.eq_of_getLsbD_eq
    intro i hi
    interval_cases i <;> simp [hm']
  · rw [← UInt16.toBitVec_inj]
    apply BitVec.eq_of_getLsbD_eq
    intro i hi
    interval_cases i <;> simp [hc']

structure Attr where
  typ : UInt16
  value : List UInt8
deriving DecidableEq

structure Message where
  method : UInt16
  class_ : UInt16
  txid : Vector UInt8 12
  attrs : List Attr
deriving DecidableEq

def pad4 (out : List UInt8) : List UInt8 := out ++ List.replicate ((4 - out.length % 4) % 4) 0

def encodeAttrs (attrs : List Attr) : List UInt8 :=
  attrs.foldl (fun out a => pad4 (out ++ beBytes 2 a.typ.toNat ++ beBytes 2 a.value.length ++ a.value)) []

def setLength (msg : List UInt8) (len : ℕ) : List UInt8 := msg.take 2 ++ beBytes 2 len ++ msg.drop 4

def crcBit (crc : UInt32) : UInt32 := (crc >>> 1) ^^^ (0xEDB88320 &&& -(crc &&& 1))

def crc32 (data : List UInt8) : UInt32 :=
  ~~~data.foldl (fun crc b => Nat.iterate crcBit 8 (crc ^^^ b.toUInt32)) 0xFFFFFFFF

example : crc32 [0x31, 0x32, 0x33, 0x34, 0x35, 0x36, 0x37, 0x38, 0x39] = 0xCBF43926 := by decide +kernel

def addIntegrity (key msg : List UInt8) : List UInt8 :=
  let msg := setLength msg (msg.length - 20 + 24)
  let mac := hmacSha1 key msg
  msg ++ beBytes 2 ATTR_MESSAGE_INTEGRITY.toNat ++ beBytes 2 20 ++ mac

def addFingerprint (msg : List UInt8) : List UInt8 :=
  let msg := setLength msg (msg.length - 20 + 8)
  let crc := crc32 msg ^^^ 0x5354554E
  msg ++ beBytes 2 ATTR_FINGERPRINT.toNat ++ beBytes 2 4 ++ beBytes 4 crc.toNat

def Message.encode (m : Message) (key : Option (List UInt8)) (fingerprint : Bool) : List UInt8 :=
  let msg := beBytes 2 (messageType m.method m.class_).toNat ++ [0, 0] ++ beBytes 4 MAGIC_COOKIE.toNat ++
    m.txid.toList ++ encodeAttrs m.attrs
  let msg := match key with
    | none => msg
    | some key => addIntegrity key msg
  let msg := if fingerprint then addFingerprint msg else msg
  setLength msg (msg.length - 20)

/-- `<[u8; N]>::copy_from_slice`. -/
def copyArray (n : ℕ) (l : List UInt8) : Option (Vector UInt8 n) :=
  if h : l.length = n then some ⟨l.toArray, by simpa using h⟩ else none

def decodeAttrs (buf : List UInt8) (stop p : ℕ) : Option (Option (List Attr)) :=
  if p + 4 ≤ stop then
    (slice buf p (p + 2)).bind fun typ =>
    (slice buf (p + 2) (p + 4)).bind fun alen =>
    let n := ofBe alen
    if stop < p + 4 + n then some none
    else
      (slice buf (p + 4) (p + 4 + n)).bind fun value =>
        (decodeAttrs buf stop (p + 4 + n + (4 - n % 4) % 4)).map (Option.map (⟨UInt16.ofNat (ofBe typ), value⟩ :: ·))
  else some (some [])
termination_by stop - p

/-- `some none` where the bytes are no message. -/
def decode (buf : List UInt8) : Option (Option Message) :=
  if buf.length < 20 then some none
  else do
    let cookie ← slice buf 4 8
    if UInt32.ofNat (ofBe cookie) ≠ MAGIC_COOKIE then some none
    else
      let typ ← slice buf 0 2
      let len ← slice buf 2 4
      let stop := 20 + ofBe len
      if buf.length < stop then some none
      else
        let (method, class_) := splitType (UInt16.ofNat (ofBe typ))
        let txid ← copyArray 12 (← slice buf 8 20)
        let attrs ← decodeAttrs buf stop 20
        some (attrs.map fun attrs => { method, class_, txid, attrs })

theorem slice_isSome {α : Type*} {l : List α} {lo hi : ℕ} (h : lo ≤ hi) (h' : hi ≤ l.length) :
    ∃ s, slice l lo hi = some s ∧ s.length = hi - lo := by
  refine ⟨_, if_pos ⟨h, h'⟩, ?_⟩
  rw [List.length_take, List.length_drop]
  omega

theorem decodeAttrs_isSome {buf : List UInt8} {stop : ℕ} (hstop : stop ≤ buf.length) (p : ℕ) :
    (decodeAttrs buf stop p).isSome := by
  fun_induction decodeAttrs buf stop p with
  | case1 p hmore ih =>
    obtain ⟨typ, htyp, -⟩ := slice_isSome (l := buf) (show p ≤ p + 2 by omega) (by omega)
    obtain ⟨alen, halen, -⟩ := slice_isSome (l := buf) (show p + 2 ≤ p + 4 by omega) (by omega)
    rw [htyp, halen, Option.bind_some, Option.bind_some]
    simp only
    split_ifs with hover
    · rfl
    · obtain ⟨value, hvalue, -⟩ := slice_isSome (l := buf) (show p + 4 ≤ p + 4 + ofBe alen by omega) (by omega)
      rw [hvalue, Option.bind_some, Option.isSome_map]
      exact ih _
  | case2 => rfl

theorem decode_isSome (buf : List UInt8) : (decode buf).isSome := by
  unfold decode
  split_ifs with hshort
  · rfl
  obtain ⟨cookie, hcookie, -⟩ := slice_isSome (l := buf) (show 4 ≤ 8 by decide) (by omega)
  obtain ⟨typ, htyp, -⟩ := slice_isSome (l := buf) (show 0 ≤ 2 by decide) (by omega)
  obtain ⟨len, hlen, -⟩ := slice_isSome (l := buf) (show 2 ≤ 4 by decide) (by omega)
  obtain ⟨txid, htxid, hlength⟩ := slice_isSome (l := buf) (show 8 ≤ 20 by decide) (by omega)
  simp only [hcookie, htyp, hlen, htxid, Option.bind_eq_bind, Option.bind_some]
  split_ifs with hbad hover
  · rfl
  · rfl
  obtain ⟨attrs, hattrs⟩ := Option.isSome_iff_exists.mp
    (decodeAttrs_isSome (show 20 + ofBe len ≤ buf.length by omega) 20)
  rw [hattrs, copyArray, dif_pos hlength]
  rfl

/-! ## What was encoded -/

def encodeAttr (a : Attr) : List UInt8 := pad4 (beBytes 2 a.typ.toNat ++ beBytes 2 a.value.length ++ a.value)

theorem length_encodeAttr (a : Attr) : (encodeAttr a).length = 4 + a.value.length + (4 - a.value.length % 4) % 4 := by
  simp only [encodeAttr, pad4, List.length_append, length_beBytes, List.length_replicate]
  omega

theorem length_encodeAttr_replicate (typ : UInt16) (n : ℕ) :
    (encodeAttr ⟨typ, List.replicate n 0⟩).length = 4 + n + (4 - n % 4) % 4 := by
  rw [length_encodeAttr, List.length_replicate]

theorem pad4_append {out : List UInt8} (h : out.length % 4 = 0) (l : List UInt8) : pad4 (out ++ l) = out ++ pad4 l := by
  rw [pad4, pad4, List.append_assoc, List.length_append]
  congr 3
  omega

theorem encodeAttrs_eq (attrs : List Attr) : encodeAttrs attrs = attrs.flatMap encodeAttr := by
  have hloop : ∀ out : List UInt8, out.length % 4 = 0 →
      attrs.foldl (fun out a => pad4 (out ++ beBytes 2 a.typ.toNat ++ beBytes 2 a.value.length ++ a.value)) out =
        out ++ attrs.flatMap encodeAttr := by
    induction attrs with
    | nil => exact fun out _ => (List.append_nil out).symm
    | cons a attrs ih =>
      intro out h
      have hattr : pad4 (out ++ beBytes 2 a.typ.toNat ++ beBytes 2 a.value.length ++ a.value) = out ++ encodeAttr a := by
        rw [encodeAttr, ← pad4_append h, List.append_assoc, List.append_assoc, List.append_assoc]
      have hlen := length_encodeAttr a
      rw [List.foldl_cons, hattr, ih _ (by rw [List.length_append]; omega), List.flatMap_cons, List.append_assoc]
  exact hloop [] rfl

@[simp]
theorem encodeAttrs_append (as bs : List Attr) : encodeAttrs (as ++ bs) = encodeAttrs as ++ encodeAttrs bs := by
  rw [encodeAttrs_eq, encodeAttrs_eq, encodeAttrs_eq, List.flatMap_append]

theorem slice_append {pre l : List UInt8} {lo hi : ℕ} (hlo : lo = pre.length) (hhi : hi = lo + l.length)
    (post : List UInt8) : slice (pre ++ l ++ post) lo hi = some l := by
  subst hlo hhi
  rw [slice, if_pos (by simp), List.append_assoc, List.drop_left, Nat.add_sub_cancel_left, List.take_left]

theorem slice_encodeAttr (pre : List UInt8) (a : Attr) (rest : List UInt8) :
    slice (pre ++ (encodeAttr a ++ rest)) pre.length (pre.length + 2) = some (beBytes 2 a.typ.toNat) ∧
      slice (pre ++ (encodeAttr a ++ rest)) (pre.length + 2) (pre.length + 4) = some (beBytes 2 a.value.length) ∧
      slice (pre ++ (encodeAttr a ++ rest)) (pre.length + 4) (pre.length + 4 + a.value.length) = some a.value := by
  rw [encodeAttr, pad4, List.append_assoc, List.append_assoc, List.append_assoc]
  refine ⟨?_, ?_, ?_⟩
  · rw [← List.append_assoc pre]
    exact slice_append rfl (by rw [length_beBytes]) _
  · rw [← List.append_assoc pre, ← List.append_assoc (pre ++ _)]
    exact slice_append (by rw [List.length_append, length_beBytes]) (by rw [length_beBytes]) _
  · rw [← List.append_assoc pre, ← List.append_assoc (pre ++ _), ← List.append_assoc (pre ++ _ ++ _)]
    exact slice_append (by simp only [List.length_append, length_beBytes]) rfl _

theorem decodeAttrs_encode (attrs : List Attr) (hattrs : ∀ a ∈ attrs, a.value.length < 2^16) (pre : List UInt8) :
    decodeAttrs (pre ++ encodeAttrs attrs) (pre.length + (encodeAttrs attrs).length) pre.length =
      some (some attrs) := by
  rw [encodeAttrs_eq]
  induction attrs generalizing pre with
  | nil => rw [decodeAttrs, if_neg (by simp)]
  | cons a attrs ih =>
    have hn : ofBe (beBytes 2 a.value.length) = a.value.length :=
      (ofBe_beBytes ..).trans (Nat.mod_eq_of_lt (hattrs a List.mem_cons_self))
    have hlen := length_encodeAttr a
    have hnext := ih (fun b hb => hattrs b (List.mem_cons_of_mem a hb)) (pre ++ encodeAttr a)
    obtain ⟨htyp, halen, hvalue⟩ := slice_encodeAttr pre a (attrs.flatMap encodeAttr)
    have hplace : pre.length + 4 + a.value.length + (4 - a.value.length % 4) % 4 =
        pre.length + (encodeAttr a).length := by omega
    rw [List.length_append, List.append_assoc] at hnext
    rw [List.flatMap_cons, List.length_append, decodeAttrs, if_pos (by omega), htyp, halen, Option.bind_some,
      Option.bind_some]
    simp only [hn, u16_ofBe_beBytes]
    rw [if_neg (by omega), hvalue, Option.bind_some, ← Nat.add_assoc, hplace, hnext]
    rfl

theorem encodeAttrs_singleton {a : Attr} (h : a.value.length % 4 = 0) :
    encodeAttrs [a] = beBytes 2 a.typ.toNat ++ beBytes 2 a.value.length ++ a.value := by
  rw [encodeAttrs_eq, List.flatMap_singleton, encodeAttr, pad4]
  simp only [List.length_append, length_beBytes]
  rw [show (4 - (2 + 2 + a.value.length) % 4) % 4 = 0 by omega, List.replicate_zero, List.append_nil]

namespace Message

def header (m : Message) (len : ℕ) : List UInt8 :=
  beBytes 2 (messageType m.method m.class_).toNat ++ beBytes 2 len ++ beBytes 4 MAGIC_COOKIE.toNat ++ m.txid.toList

@[simp]
theorem length_header (m : Message) (len : ℕ) : (m.header len).length = 20 := by simp [header]

theorem setLength_header (m : Message) (len len' : ℕ) (attrs : List UInt8) :
    setLength (m.header len ++ attrs) len' = m.header len' ++ attrs := by
  simp only [setLength, header, List.append_assoc]
  rw [List.take_left' (length_beBytes ..), List.drop_append, length_beBytes, List.drop_eq_nil_of_le (by simp),
    List.nil_append, List.drop_left' (length_beBytes ..)]

def integrity (m : Message) : Option (List UInt8) → List Attr
  | none => []
  | some key =>
    [{ typ := ATTR_MESSAGE_INTEGRITY
       value := hmacSha1 key (m.header ((encodeAttrs m.attrs).length + 24) ++ encodeAttrs m.attrs) }]

def fingerprint (m : Message) (key : Option (List UInt8)) : Bool → List Attr
  | false => []
  | true =>
    let attrs := encodeAttrs (m.attrs ++ m.integrity key)
    [{ typ := ATTR_FINGERPRINT
       value := beBytes 4 (crc32 (m.header (attrs.length + 8) ++ attrs) ^^^ 0x5354554E).toNat }]

def sent (m : Message) (key : Option (List UInt8)) (fingerprint : Bool) : List Attr :=
  m.attrs ++ m.integrity key ++ m.fingerprint key fingerprint

theorem length_sub_header (m : Message) (len : ℕ) (attrs : List UInt8) :
    (m.header len ++ attrs).length - 20 = attrs.length := by
  rw [List.length_append, length_header, Nat.add_sub_cancel_left]

theorem addIntegrity_eq (m : Message) (key : List UInt8) (len : ℕ) :
    addIntegrity key (m.header len ++ encodeAttrs m.attrs) =
      m.header ((encodeAttrs m.attrs).length + 24) ++ encodeAttrs (m.attrs ++ m.integrity (some key)) := by
  unfold addIntegrity integrity
  simp only [length_sub_header, setLength_header]
  rw [encodeAttrs_append, encodeAttrs_singleton (by rw [length_hmacSha1]), length_hmacSha1]
  simp only [List.append_assoc]

theorem addFingerprint_eq (m : Message) (key : Option (List UInt8)) (len : ℕ) :
    addFingerprint (m.header len ++ encodeAttrs (m.attrs ++ m.integrity key)) =
      m.header ((encodeAttrs (m.attrs ++ m.integrity key)).length + 8) ++ encodeAttrs (m.sent key true) := by
  unfold addFingerprint sent fingerprint
  simp only [length_sub_header, setLength_header]
  rw [encodeAttrs_append (m.attrs ++ m.integrity key), encodeAttrs_singleton (by rw [length_beBytes]), length_beBytes]
  simp only [List.append_assoc]

theorem encode_eq (m : Message) (key : Option (List UInt8)) (fingerprint : Bool) : m.encode key fingerprint =
      m.header (encodeAttrs (m.sent key fingerprint)).length ++ encodeAttrs (m.sent key fingerprint) := by
  have hfirst : beBytes 2 (messageType m.method m.class_).toNat ++ [0, 0] ++ beBytes 4 MAGIC_COOKIE.toNat ++
      m.txid.toList ++ encodeAttrs m.attrs = m.header 0 ++ encodeAttrs m.attrs := rfl
  have hlast : ∀ len, (let msg := m.header len ++ encodeAttrs (m.attrs ++ m.integrity key)
      let msg := if fingerprint then addFingerprint msg else msg
      setLength msg (msg.length - 20)) =
      m.header (encodeAttrs (m.sent key fingerprint)).length ++ encodeAttrs (m.sent key fingerprint) := by
    intro len
    cases fingerprint with
    | false =>
      simp only [Bool.false_eq_true, if_false, length_sub_header, setLength_header, sent, Message.fingerprint,
        List.append_nil]
    | true => simp only [if_true, addFingerprint_eq, length_sub_header, setLength_header]
  unfold encode
  rw [hfirst]
  cases key with
  | none =>
    rw [← List.append_nil m.attrs]
    exact hlast 0
  | some key =>
    simp only [addIntegrity_eq]
    exact hlast _

theorem decode_header {m : Message} (hm : m.method < 0x1000) (hc : m.class_ < 4) (len : ℕ) (attrs : List UInt8) :
    decode (m.header len ++ attrs) =
      if attrs.length < len % 2^16 then some none
      else (decodeAttrs (m.header len ++ attrs) (20 + len % 2^16) 20).map
        (Option.map fun attrs => { m with attrs }) := by
  have htyp : slice (m.header len ++ attrs) 0 2 = some (beBytes 2 (messageType m.method m.class_).toNat) := by
    rw [header, List.append_assoc, List.append_assoc, List.append_assoc, ← List.nil_append (_ ++ (_ ++ _)),
      ← List.append_assoc]
    exact slice_append List.length_nil.symm (by rw [length_beBytes]) _
  have hlen : slice (m.header len ++ attrs) 2 4 = some (beBytes 2 len) := by
    rw [header, List.append_assoc, List.append_assoc]
    exact slice_append (by rw [length_beBytes]) (by rw [length_beBytes]) _
  have hcookie : slice (m.header len ++ attrs) 4 8 = some (beBytes 4 MAGIC_COOKIE.toNat) := by
    rw [header, List.append_assoc _ m.txid.toList]
    exact slice_append (by rw [List.length_append, length_beBytes, length_beBytes]) (by rw [length_beBytes]) _
  have htxid : slice (m.header len ++ attrs) 8 20 = some m.txid.toList :=
    slice_append (by simp only [List.length_append, length_beBytes]) (by rw [Vector.length_toList]) _
  have hsize : (m.header len ++ attrs).length = 20 + attrs.length := by rw [List.length_append, length_header]
  have hcopy : copyArray 12 m.txid.toList = some m.txid := by
    rw [copyArray, dif_pos Vector.length_toList]
    rfl
  have hread : ofBe (beBytes 2 len) = len % 2^16 := ofBe_beBytes 2 len
  unfold decode
  rw [if_neg (by omega)]
  simp only [htyp, hlen, hcookie, htxid, hcopy, Option.bind_eq_bind, Option.bind_some, u32_ofBe_beBytes,
    u16_ofBe_beBytes, splitType_messageType hm hc, ne_eq, not_true, if_false, hread, hsize]
  by_cases hover : attrs.length < len % 2^16
  · rw [if_pos (by omega), if_pos hover]
  · rw [if_neg (by omega), if_neg hover]
    cases decodeAttrs (m.header len ++ attrs) (20 + len % 2^16) 20 <;> rfl

theorem decode_cut {m : Message} (hm : m.method < 0x1000) (hc : m.class_ < 4) {len : ℕ} {a : Attr} {rest : List UInt8}
    (ha : a.value.length < 2^16) (hsome : 4 ≤ len % 2^16) (hcut : len % 2^16 < 4 + a.value.length) :
    decode (m.header len ++ (encodeAttr a ++ rest)) = some none := by
  have hread : ofBe (beBytes 2 a.value.length) = a.value.length := (ofBe_beBytes ..).trans (Nat.mod_eq_of_lt ha)
  have hlen := length_encodeAttr a
  obtain ⟨htyp, halen, -⟩ := slice_encodeAttr (m.header len) a rest
  rw [length_header] at htyp halen
  rw [decode_header hm hc, List.length_append, if_neg (by omega), decodeAttrs, if_pos (by omega), htyp, halen,
    Option.bind_some, Option.bind_some]
  simp only [hread]
  rw [if_pos (by omega)]
  rfl

theorem fingerprint_ne (m : Message) (key : Option (List UInt8)) : ∀ a ∈ m.fingerprint key true,
      a.value ≠ beBytes 4 (crc32 (m.header ((encodeAttrs (m.attrs ++ m.integrity key)).length + 8) ++
        encodeAttrs (m.attrs ++ m.integrity key))).toNat := by
  intro a ha
  rw [fingerprint, List.mem_singleton] at ha
  rw [ha]
  simp only
  generalize crc32 _ = crc
  intro hsame
  have hcrc : crc ^^^ 0x5354554E = crc := by
    rw [← u32_ofBe_beBytes (crc ^^^ 0x5354554E), hsame, u32_ofBe_beBytes]
  have hmask : crc ^^^ (crc ^^^ 0x5354554E) = 0x5354554E := by
    rw [← UInt32.xor_assoc, UInt32.xor_self, UInt32.zero_xor]
  rw [hcrc, UInt32.xor_self] at hmask
  cases hmask

theorem decode_encode {m : Message} (hm : m.method < 0x1000) (hc : m.class_ < 4) {key : Option (List UInt8)}
    {fingerprint : Bool} (hlen : (encodeAttrs (m.sent key fingerprint)).length < 2^16) :
    decode (m.encode key fingerprint) = some (some { m with attrs := m.sent key fingerprint }) := by
  rw [encode_eq]
  generalize m.sent key fingerprint = attrs at hlen ⊢
  have hattrs : ∀ a ∈ attrs, a.value.length < 2^16 := by
    intro a ha
    obtain ⟨as, bs, rfl⟩ := List.append_of_mem ha
    have hle := length_encodeAttr a
    rw [encodeAttrs_eq, List.flatMap_append, List.flatMap_cons, List.length_append, List.length_append] at hlen
    omega
  have hread := decodeAttrs_encode attrs hattrs (m.header (encodeAttrs attrs).length)
  rw [length_header] at hread
  rw [decode_header hm hc, Nat.mod_eq_of_lt hlen, if_neg (Nat.lt_irrefl _), hread]
  rfl

end Message

inductive SocketAddr where
  | v4 (ip : UInt32) (port : UInt16)
  | v6 (octets : Vector UInt8 16) (port : UInt16) (flowinfo scope_id : UInt32)
deriving DecidableEq

def portMask : UInt16 := (MAGIC_COOKIE >>> 16).toUInt16

def addrMask (txid : Vector UInt8 12) : Vector UInt8 16 :=
  ⟨(beBytes 4 MAGIC_COOKIE.toNat ++ txid.toList).toArray, by simp⟩

/-- A XOR-MAPPED-ADDRESS value. -/
def encodeXorAddr (addr : SocketAddr) (txid : Vector UInt8 12) : List UInt8 :=
  match addr with
  | .v4 ip port => [0, 0x01] ++ beBytes 2 (port ^^^ portMask).toNat ++ beBytes 4 (ip ^^^ MAGIC_COOKIE).toNat
  | .v6 octets port _ _ =>
    [0, 0x02] ++ beBytes 2 (port ^^^ portMask).toNat ++ (octets.zipWith (· ^^^ ·) (addrMask txid)).toList

def decodeXorAddr (v : List UInt8) (txid : Vector UInt8 12) : Option SocketAddr :=
  if v.length < 4 then none
  else
    let family := v.getD 1 0
    let port := UInt16.ofNat (ofBe ((v.drop 2).take 2)) ^^^ portMask
    if family = 0x01 ∧ 8 ≤ v.length then some (.v4 (UInt32.ofNat (ofBe ((v.drop 4).take 4)) ^^^ MAGIC_COOKIE) port)
    else if family = 0x02 ∧ 20 ≤ v.length then
      some (.v6 (.ofFn fun i => v.getD (4 + i) 0 ^^^ (addrMask txid).get i) port 0 0)
    else none

def SocketAddr.bare : SocketAddr → SocketAddr
  | .v4 ip port => .v4 ip port
  | .v6 octets port _ _ => .v6 octets port 0 0

theorem xorFields (family : UInt8) (port : UInt16) (tail : List UInt8) :
    ([0, family] ++ beBytes 2 port.toNat ++ tail).getD 1 0 = family ∧
      (([0, family] ++ beBytes 2 port.toNat ++ tail).drop 2).take 2 = beBytes 2 port.toNat ∧
      ([0, family] ++ beBytes 2 port.toNat ++ tail).drop 4 = tail ∧
      ([0, family] ++ beBytes 2 port.toNat ++ tail).length = 4 + tail.length := by
  refine ⟨rfl, ?_, ?_, ?_⟩
  · rw [List.append_assoc]
    change (beBytes 2 port.toNat ++ tail).take 2 = _
    rw [List.take_left' (length_beBytes ..)]
  · rw [List.drop_left' (by rw [List.length_append, length_beBytes]; rfl)]
  · rw [List.length_append, List.length_append, length_beBytes]
    rfl

theorem decodeXorAddr_encode (addr : SocketAddr) (txid : Vector UInt8 12) :
    decodeXorAddr (encodeXorAddr addr txid) txid = some addr.bare := by
  unfold decodeXorAddr encodeXorAddr
  cases addr with
  | v4 ip port =>
    obtain ⟨hfamily, hport, htail, hlen⟩ := xorFields 0x01 (port ^^^ portMask) (beBytes 4 (ip ^^^ MAGIC_COOKIE).toNat)
    simp only [hfamily, hport, htail, hlen, length_beBytes, u16_ofBe_beBytes]
    rw [if_neg (by decide), if_pos (by decide), List.take_of_length_le (by rw [length_beBytes]), u32_ofBe_beBytes,
      UInt16.xor_assoc, UInt16.xor_self, UInt16.xor_zero, UInt32.xor_assoc, UInt32.xor_self, UInt32.xor_zero]
    rfl
  | v6 octets port flowinfo scope_id =>
    obtain ⟨hfamily, hport, htail, hlen⟩ :=
      xorFields 0x02 (port ^^^ portMask) (octets.zipWith (· ^^^ ·) (addrMask txid)).toList
    have hoctet : ∀ i, ([0, 0x02] ++ beBytes 2 (port ^^^ portMask).toNat ++
        (octets.zipWith (· ^^^ ·) (addrMask txid)).toList).getD (4 + i) 0 =
        (octets.zipWith (· ^^^ ·) (addrMask txid)).toList.getD i 0 := by
      intro i
      conv_rhs => rw [← htail]
      rw [List.getD_eq_getElem?_getD, List.getD_eq_getElem?_getD, List.getElem?_drop]
    have hback : (Vector.ofFn fun i : Fin 16 => (octets.zipWith (· ^^^ ·) (addrMask txid)).toList.getD i 0 ^^^
        (addrMask txid).get i) = octets := by
      ext i hi
      simp [Vector.get, UInt8.xor_assoc]
    simp only [hfamily, hport, hlen, Vector.length_toList, u16_ofBe_beBytes, hoctet, hback]
    rw [if_neg (by decide), if_neg (by decide), if_pos (by decide), UInt16.xor_assoc, UInt16.xor_self, UInt16.xor_zero]
    rfl

/-- A message is read back with what was added to it, an address less what the wire has no room for, and no bytes
make `decode` read outside of them. -/
theorem codec_roundTrip :
    (∀ (m : Message) (key : Option (List UInt8)) (fingerprint : Bool), m.method < 0x1000 → m.class_ < 4 →
      (encodeAttrs (m.sent key fingerprint)).length < 2^16 →
      decode (m.encode key fingerprint) = some (some { m with attrs := m.sent key fingerprint })) ∧
      (∀ (addr : SocketAddr) (txid : Vector UInt8 12), decodeXorAddr (encodeXorAddr addr txid) txid = some addr.bare) ∧
      ∀ buf : List UInt8, (decode buf).isSome :=
  ⟨fun _ _ _ hm hc hlen => Message.decode_encode hm hc hlen, decodeXorAddr_encode, decode_isSome⟩

def bindingRequest (attrs : List Attr) : Message := { method := 0x001, class_ := 0, txid := .replicate 12 0, attrs }

def longAttr : Attr := ⟨0x0013, List.replicate 65524 0⟩

theorem length_bindingRequest_sent : (encodeAttrs ((bindingRequest []).sent none true)).length < 2^16 := by
  rw [Message.sent, encodeAttrs_append, Message.fingerprint, encodeAttrs_singleton (by rw [length_beBytes])]
  simp [bindingRequest, Message.integrity, encodeAttrs]

/-- A binding request with a checksum. -/
theorem codec_roundTrip_binding : decode ((bindingRequest []).encode none true) =
      some (some { bindingRequest [] with attrs := (bindingRequest []).sent none true }) :=
  codec_roundTrip.1 (bindingRequest []) none true (by decide) (by decide) length_bindingRequest_sent

/-- The FINGERPRINT is not the checksum itself; attributes of 65528 bytes leave no room for a MESSAGE-INTEGRITY in the
length field; and the link of an address is lost. -/
theorem codec_limits : (¬ ∃ a : Attr, decode ((bindingRequest []).encode none true) = some (some (bindingRequest [a])) ∧
      a.value = beBytes 4 (crc32 ((bindingRequest []).header 8)).toNat) ∧
      ((encodeAttrs [longAttr]).length < 2^16 ∧
        decode ((bindingRequest [longAttr]).encode (some []) false) = some none) ∧
      decodeXorAddr (encodeXorAddr (.v6 (.replicate 16 0) 5000 0 3) (.replicate 12 0)) (.replicate 12 0) ≠
        some (.v6 (.replicate 16 0) 5000 0 3) := by
  have hsize : (encodeAttr longAttr).length = 65528 := length_encodeAttr_replicate 0x0013 65524
  have hvalue : longAttr.value.length = 65524 := List.length_replicate
  refine ⟨?_, ⟨?_, ?_⟩, ?_⟩
  · rintro ⟨a, hdecode, hsame⟩
    rw [Message.decode_encode (by decide) (by decide) length_bindingRequest_sent, Option.some.injEq,
      Option.some.injEq] at hdecode
    have ha : a ∈ (bindingRequest []).fingerprint none true := by
      have hattrs : (bindingRequest []).sent none true = [a] := congrArg Message.attrs hdecode
      have hnone : (bindingRequest []).attrs ++ (bindingRequest []).integrity none = [] := rfl
      rw [Message.sent, hnone, List.nil_append] at hattrs
      rw [hattrs]
      exact List.mem_singleton_self a
    exact Message.fingerprint_ne _ _ a ha hsame
  · rw [encodeAttrs_eq, List.flatMap_singleton, hsize]
    decide
  · have hsent : (bindingRequest [longAttr]).sent (some []) false =
        longAttr :: (bindingRequest [longAttr]).integrity (some []) := by
      rw [Message.sent, Message.fingerprint, List.append_nil]
      rfl
    have hlen : (encodeAttr longAttr ++
        ((bindingRequest [longAttr]).integrity (some [])).flatMap encodeAttr).length = 65552 := by
      rw [List.length_append, hsize, Message.integrity, List.flatMap_singleton, length_encodeAttr, length_hmacSha1]
    rw [Message.encode_eq, hsent, encodeAttrs_eq, List.flatMap_cons, hlen]
    exact Message.decode_cut (by decide) (by decide) (by rw [hvalue]; decide) (by decide) (by rw [hvalue]; decide)
  · rw [decodeXorAddr_encode]
    decide

end Rdpio.Client.Stun
