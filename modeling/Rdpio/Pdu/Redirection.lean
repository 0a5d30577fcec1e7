import Rdpio.Channels.Utf16
import Rdpio.Hyper.Messages

/-!
# Server redirection

`crates/rdp-pdu/src/redirection.rs`: a server sends the client on to another one, with a packet of optional
fields behind each other.
-/

namespace Rdpio.Pdu.Redirection

open Lib
open Channels.Cliprdr (utf16z decodeUnicode decodeUnicode_utf16z)
open Hyper.Messages (leAt leAt_append restAt restAt_append)

def secRedirectionPkt : UInt16 := 0x0400

def redirectFlagTargetNetAddress : UInt32 := 0x0001
def redirectFlagLoadBalanceInfo : UInt32 := 0x0002
def redirectFlagUsername : UInt32 := 0x0004
def redirectFlagDomain : UInt32 := 0x0008
def redirectFlagPassword : UInt32 := 0x0010
def redirectFlagTargetFqdn : UInt32 := 0x0020
def redirectFlagTargetNetbiosName : UInt32 := 0x0040
def redirectFlagTargetNetAddresses : UInt32 := 0x0080
def redirectFlagClientTsvUrl : UInt32 := 0x0100
def redirectFlagTargetCertificate : UInt32 := 0x0400
def redirectFlagRedirectionGuid : UInt32 := 0x0800

structure ServerRedirection where
  session_id : UInt32
  redir_flags : UInt32
  target_net_address : Option (List Char) := none
  load_balance_info : List UInt8 := []
  username : Option (List Char) := none
  domain : Option (List Char) := none
  password : List UInt8 := []
  target_fqdn : Option (List Char) := none
  target_netbios_name : Option (List Char) := none
  target_net_addresses : List (List Char) := []
  client_tsv_url : List UInt8 := []
  redirection_guid : List UInt8 := []
  target_certificate : List UInt8 := []
deriving DecidableEq

structure Cursor where
  rest : List UInt8
  reserved : ℕ

def u16le (b : List UInt8) (o : ℕ) : Option UInt16 := (leAt 2 b o).map UInt16.ofNat

def u32le (b : List UInt8) (o : ℕ) : Option UInt32 := (leAt 4 b o).map UInt32.ofNat

/-- A length-prefixed byte blob. -/
def readBlob (b : Cursor) : Except ℕ (List UInt8 × Cursor) :=
  match u32le b.rest 0 with
  | none => .error b.reserved
  | some len =>
    if b.rest.length < 4 + len.toNat then .error b.reserved
    else .ok ((b.rest.drop 4).take len.toNat, ⟨b.rest.drop (4 + len.toNat), b.reserved + len.toNat⟩)

def readUnicode (b : Cursor) (limit : ℕ) : Option (List Char) × Cursor :=
  match u32le b.rest 0 with
  | none => (none, b)
  | some len =>
    if limit < len.toNat ∨ b.rest.length < 4 + len.toNat then (none, b)
    else (some (decodeUnicode ((b.rest.drop 4).take len.toNat)),
      ⟨b.rest.drop (4 + len.toNat), b.reserved + len.toNat / 2⟩)

def unicodeField (redir_flags flag : UInt32) (limit : ℕ) (b : Cursor) : Option (List Char) × Cursor :=
  if redir_flags &&& flag ≠ 0 then readUnicode b limit else (none, b)

def blobField (redir_flags flag : UInt32) (b : Cursor) : Except ℕ (List UInt8 × Cursor) :=
  if redir_flags &&& flag ≠ 0 then readBlob b else .ok ([], b)

def readAddresses : ℕ → Cursor → Except ℕ (List (List Char) × Cursor)
  | 0, b => .ok ([], b)
  | n + 1, b =>
    match readUnicode b 80 with
    | (none, b) => .error b.reserved
    | (some addr, b) => do
      let (addrs, b) ← readAddresses n b
      .ok (addr :: addrs, b)

def addressesField (redir_flags flag : UInt32) (b : Cursor) : Except ℕ (List (List Char) × Cursor) :=
  if redir_flags &&& flag ≠ 0 then
    match u32le b.rest 0, u32le b.rest 4 with
    | some _, some count => readAddresses count.toNat ⟨b.rest.drop 8, b.reserved + count.toNat⟩
    | _, _ => .error b.reserved
  else .ok ([], b)

def parseHeader (plaintext : List UInt8) : Option (UInt32 × UInt32 × List UInt8) :=
  if plaintext.length < 18 then none
  else do
    let pdu_type ← u16le plaintext 2
    if pdu_type &&& 0x000F ≠ 0x000A then none
    else do
      let b ← restAt plaintext 6
      let flags ← u16le b 0
      if flags ≠ secRedirectionPkt then none
      else do
        let _ ← u16le b 2
        let session_id ← u32le b 4
        let redir_flags ← u32le b 8
        some (session_id, redir_flags, b.drop 12)

def parseFields (session_id redir_flags : UInt32) (b : Cursor) : Except ℕ (ServerRedirection × ℕ) := do
  let (target_net_address, b) := unicodeField redir_flags redirectFlagTargetNetAddress 80 b
  let (load_balance_info, b) ← blobField redir_flags redirectFlagLoadBalanceInfo b
  let (username, b) := unicodeField redir_flags redirectFlagUsername 512 b
  let (domain, b) := unicodeField redir_flags redirectFlagDomain 52 b
  let (password, b) ← blobField redir_flags redirectFlagPassword b
  let (target_fqdn, b) := unicodeField redir_flags redirectFlagTargetFqdn 512 b
  let (target_netbios_name, b) := unicodeField redir_flags redirectFlagTargetNetbiosName 32 b
  let (target_net_addresses, b) ← addressesField redir_flags redirectFlagTargetNetAddresses b
  let (client_tsv_url, b) ← blobField redir_flags redirectFlagClientTsvUrl b
  let (redirection_guid, b) ← blobField redir_flags redirectFlagRedirectionGuid b
  let (target_certificate, b) ← blobField redir_flags redirectFlagTargetCertificate b
  .ok ({ session_id, redir_flags, target_net_address, load_balance_info, username, domain, password,
         target_fqdn, target_netbios_name, target_net_addresses, client_tsv_url, redirection_guid,
         target_certificate }, b.reserved)

/-- The parser, with the count of what it reserved. -/
def parseReserving (plaintext : List UInt8) : Except ℕ (ServerRedirection × ℕ) :=
  match parseHeader plaintext with
  | none => .error 0
  | some (session_id, redir_flags, b) => parseFields session_id redir_flags ⟨b, 0⟩

def parse (plaintext : List UInt8) : Option ServerRedirection := (parseReserving plaintext).toOption.map (·.1)

def reservedBy : Except ℕ (ServerRedirection × ℕ) → ℕ
  | .error n => n
  | .ok (_, n) => n

def reserved (plaintext : List UInt8) : ℕ := reservedBy (parseReserving plaintext)

abbrev WideString := { s : List Char // Char.ofNat 0 ∉ s }

/-- Which fields a server sends, and their values. -/
structure Fields where
  session_id : UInt32
  target_net_address : Option WideString := none
  load_balance_info : Option (List UInt8) := none
  username : Option WideString := none
  domain : Option WideString := none
  password : Option (List UInt8) := none
  target_fqdn : Option WideString := none
  target_netbios_name : Option WideString := none
  client_tsv_url : Option (List UInt8) := none
  redirection_guid : Option (List UInt8) := none
  target_certificate : Option (List UInt8) := none
  target_net_addresses : Option (List WideString) := none

def lengthPrefixed (data : List UInt8) : List UInt8 := leBytes 4 data.length ++ data

def WideString.bytes (s : WideString) : List UInt8 := utf16z s.val

def unicodeBytes (s : Option WideString) : List UInt8 := s.elim [] fun s => lengthPrefixed s.bytes

def blobBytes (blob : Option (List UInt8)) : List UInt8 := blob.elim [] lengthPrefixed

def addressesBytes (addrs : Option (List WideString)) : List UInt8 :=
  addrs.elim [] fun addrs => lengthPrefixed (leBytes 4 addrs.length ++ addrs.flatMap fun a => lengthPrefixed a.bytes)

def flagIf (there : Bool) (flag : UInt32) : UInt32 := if there then flag else 0

variable (f : Fields)

def Fields.redirFlags : UInt32 :=
  flagIf f.target_net_address.isSome 0x1 ||| flagIf f.load_balance_info.isSome 0x2 |||
  flagIf f.username.isSome 0x4 ||| flagIf f.domain.isSome 0x8 ||| flagIf f.password.isSome 0x10 |||
  flagIf f.target_fqdn.isSome 0x100 ||| flagIf f.target_netbios_name.isSome 0x200 |||
  flagIf f.client_tsv_url.isSome 0x1000 ||| flagIf f.redirection_guid.isSome 0x8000 |||
  flagIf f.target_certificate.isSome 0x10000 ||| flagIf f.target_net_addresses.isSome 0x800

def Fields.late : List UInt8 :=
  unicodeBytes f.target_fqdn ++ (unicodeBytes f.target_netbios_name ++ (blobBytes f.client_tsv_url ++
    (blobBytes f.redirection_guid ++ (blobBytes f.target_certificate ++ addressesBytes f.target_net_addresses))))

def Fields.bytes : List UInt8 :=
  unicodeBytes f.target_net_address ++ (blobBytes f.load_balance_info ++ (unicodeBytes f.username ++
    (unicodeBytes f.domain ++ (blobBytes f.password ++ f.late))))

def Fields.packet : List UInt8 :=
  leBytes 2 secRedirectionPkt.toNat ++ (leBytes 2 (12 + f.bytes.length) ++
    (leBytes 4 f.session_id.toNat ++ (leBytes 4 f.redirFlags.toNat ++ f.bytes)))

def Fields.layout : List UInt8 := leBytes 2 (6 + f.packet.length) ++ (leBytes 2 0x000A ++ ([0, 0] ++ f.packet))

def text (limit : ℕ) (s : Option WideString) : Option (List Char) :=
  (s.filter fun s => s.bytes.length ≤ limit).map (·.val)

def Fields.expected : ServerRedirection where
  session_id := f.session_id
  redir_flags := f.redirFlags
  target_net_address := text 80 f.target_net_address
  load_balance_info := f.load_balance_info.getD []
  username := text 512 f.username
  domain := text 52 f.domain
  password := f.password.getD []
  target_fqdn := text 512 f.target_fqdn
  target_netbios_name := text 32 f.target_netbios_name
  target_net_addresses := (f.target_net_addresses.getD []).map (·.val)
  client_tsv_url := f.client_tsv_url.getD []
  redirection_guid := f.redirection_guid.getD []
  target_certificate := f.target_certificate.getD []

theorem decodeUnicode_bytes (s : WideString) : decodeUnicode s.bytes = s.val := decodeUnicode_utf16z s.property

theorem u32le_lengthPrefixed {data : List UInt8} (h : data.length < 2^32) (rest : List UInt8) :
    u32le (lengthPrefixed data ++ rest) 0 = some (UInt32.ofNat data.length) := by
  rw [u32le, lengthPrefixed, List.append_assoc]
  have hread := leAt_append (w := 4) [] rfl (show data.length < 256 ^ 4 by omega) (data ++ rest)
  rw [List.nil_append, List.length_nil] at hread
  rw [hread, Option.map_some]

theorem toNat_ofNat32 {n : ℕ} (h : n < 2^32) : (UInt32.ofNat n).toNat = n := by
  rw [UInt32.toNat_ofNat']
  exact Nat.mod_eq_of_lt h

theorem take_lengthPrefixed (data rest : List UInt8) : ((lengthPrefixed data ++ rest).drop 4).take data.length = data ∧
      (lengthPrefixed data ++ rest).drop (4 + data.length) = rest ∧
      ¬ (lengthPrefixed data ++ rest).length < 4 + data.length := by
  rw [lengthPrefixed, List.append_assoc]
  refine ⟨?_, ?_, ?_⟩
  · rw [List.drop_left' (length_leBytes 4 _), List.take_left]
  · rw [← List.drop_drop, List.drop_left' (length_leBytes 4 _), List.drop_left]
  · rw [List.length_append, List.length_append, length_leBytes]
    omega

theorem readBlob_lengthPrefixed {data : List UInt8} (h : data.length < 2^32) (rest : List UInt8) (r : ℕ) :
    readBlob ⟨lengthPrefixed data ++ rest, r⟩ = .ok (data, ⟨rest, r + data.length⟩) := by
  obtain ⟨htake, hdrop, hlt⟩ := take_lengthPrefixed data rest
  unfold readBlob
  dsimp only
  rw [u32le_lengthPrefixed h]
  dsimp only
  rw [toNat_ofNat32 h, if_neg hlt, htake, hdrop]

theorem readUnicode_lengthPrefixed {s : WideString} (h : s.bytes.length < 2^32) (limit : ℕ)
    (rest : List UInt8) (r : ℕ) :
    readUnicode ⟨lengthPrefixed s.bytes ++ rest, r⟩ limit =
      if s.bytes.length ≤ limit then (some s.val, ⟨rest, r + s.bytes.length / 2⟩)
      else (none, ⟨lengthPrefixed s.bytes ++ rest, r⟩) := by
  obtain ⟨htake, hdrop, hlt⟩ := take_lengthPrefixed s.bytes rest
  unfold readUnicode
  dsimp only
  rw [u32le_lengthPrefixed h]
  dsimp only
  rw [toNat_ofNat32 h]
  by_cases hfits : s.bytes.length ≤ limit
  · rw [if_neg (by omega), if_pos hfits, htake, hdrop, decodeUnicode_bytes]
  · rw [if_pos (.inl (by omega)), if_neg hfits]

theorem or_and_distrib (a b m : UInt32) : (a ||| b) &&& m = a &&& m ||| b &&& m := by
  apply UInt32.toNat_inj.mp
  rw [UInt32.toNat_and, UInt32.toNat_or, UInt32.toNat_or, UInt32.toNat_and, UInt32.toNat_and, Nat.and_or_distrib_right]

theorem flagIf_and_of_disjoint {flag m : UInt32} (h : flag &&& m = 0) (there : Bool) : flagIf there flag &&& m = 0 := by
  cases there
  · exact UInt32.zero_and
  · exact h

theorem flagIf_and_self (there : Bool) (m : UInt32) : flagIf there m &&& m = flagIf there m := by
  cases there
  · exact UInt32.zero_and
  · exact UInt32.and_self

theorem flagIf_ne_zero {there : Bool} {flag : UInt32} (h : flag ≠ 0) : flagIf there flag ≠ 0 ↔ there = true := by
  cases there
  · exact iff_of_false (not_not.mpr rfl) Bool.false_ne_true
  · exact iff_of_true h rfl

theorem Fields.redirFlags_early :
    (f.redirFlags &&& redirectFlagTargetNetAddress ≠ 0 ↔ f.target_net_address.isSome = true) ∧
    (f.redirFlags &&& redirectFlagLoadBalanceInfo ≠ 0 ↔ f.load_balance_info.isSome = true) ∧
    (f.redirFlags &&& redirectFlagUsername ≠ 0 ↔ f.username.isSome = true) ∧
    (f.redirFlags &&& redirectFlagDomain ≠ 0 ↔ f.domain.isSome = true) ∧
    (f.redirFlags &&& redirectFlagPassword ≠ 0 ↔ f.password.isSome = true) := by
  unfold redirectFlagTargetNetAddress redirectFlagLoadBalanceInfo redirectFlagUsername redirectFlagDomain
    redirectFlagPassword Fields.redirFlags
  simp (disch := decide) only [or_and_distrib, flagIf_and_of_disjoint, flagIf_and_self, UInt32.or_zero,
    UInt32.zero_or, flagIf_ne_zero, and_self]

theorem Fields.redirFlags_late :
    f.redirFlags &&& redirectFlagTargetFqdn = 0 ∧ f.redirFlags &&& redirectFlagTargetNetbiosName = 0 ∧
    f.redirFlags &&& redirectFlagTargetNetAddresses = 0 ∧
    f.redirFlags &&& redirectFlagTargetCertificate = 0 ∧
    (f.redirFlags &&& redirectFlagClientTsvUrl ≠ 0 ↔ f.target_fqdn.isSome = true) ∧
    (f.redirFlags &&& redirectFlagRedirectionGuid ≠ 0 ↔ f.target_net_addresses.isSome = true) := by
  unfold redirectFlagTargetFqdn redirectFlagTargetNetbiosName redirectFlagTargetNetAddresses
    redirectFlagTargetCertificate redirectFlagClientTsvUrl redirectFlagRedirectionGuid Fields.redirFlags
  simp (disch := decide) only [or_and_distrib, flagIf_and_of_disjoint, flagIf_and_self, UInt32.or_zero,
    UInt32.zero_or, flagIf_ne_zero, and_self]

/-! ## The fields in a row -/

theorem unicodeField_unset {flags flag : UInt32} (h : flags &&& flag = 0) (limit : ℕ) (b : Cursor) :
    unicodeField flags flag limit b = (none, b) := if_neg (not_not.mpr h)

theorem blobField_unset {flags flag : UInt32} (h : flags &&& flag = 0) (b : Cursor) :
    blobField flags flag b = .ok ([], b) := if_neg (not_not.mpr h)

theorem addressesField_unset {flags flag : UInt32} (h : flags &&& flag = 0) (b : Cursor) :
    addressesField flags flag b = .ok ([], b) := if_neg (not_not.mpr h)

/-- All values can be written with their length. -/
structure Fields.Sized : Prop where
  strings : ∀ s ∈ [f.target_net_address, f.username, f.domain], ∀ t ∈ s, t.bytes.length < 2^32
  blobs : ∀ b ∈ [f.load_balance_info, f.password, f.redirection_guid], ∀ t ∈ b, t.length < 2^32

def Fits (limit : ℕ) (s : Option WideString) : Prop := ∀ t ∈ s, t.bytes.length ≤ limit

theorem unicodeField_fits {flags flag : UInt32} {s : Option WideString}
    (hflag : flags &&& flag ≠ 0 ↔ s.isSome = true) (hsized : ∀ t ∈ s, t.bytes.length < 2^32) {limit : ℕ}
    (hfits : Fits limit s) (rest : List UInt8) (r : ℕ) :
    ∃ r', unicodeField flags flag limit ⟨unicodeBytes s ++ rest, r⟩ = (text limit s, ⟨rest, r'⟩) := by
  rcases s with _ | s
  · have hunset : flags &&& flag = 0 := not_not.mp fun h => Bool.false_ne_true (hflag.mp h)
    exact ⟨r, unicodeField_unset hunset limit _⟩
  · have hle : s.bytes.length ≤ limit := hfits s rfl
    refine ⟨r + s.bytes.length / 2, ?_⟩
    rw [unicodeField, if_pos (hflag.mpr rfl)]
    refine (readUnicode_lengthPrefixed (hsized s rfl) limit rest r).trans ?_
    rw [if_pos hle, text, Option.filter_some, if_pos (decide_eq_true hle)]
    rfl

theorem unicodeField_text {flags flag : UInt32} {s : Option WideString}
    (hflag : flags &&& flag ≠ 0 ↔ s.isSome = true) (hsized : ∀ t ∈ s, t.bytes.length < 2^32) (limit : ℕ)
    (rest : List UInt8) (r : ℕ) :
    ∃ b, unicodeField flags flag limit ⟨unicodeBytes s ++ rest, r⟩ = (text limit s, b) := by
  by_cases hfits : Fits limit s
  · obtain ⟨r', h⟩ := unicodeField_fits hflag hsized hfits rest r
    exact ⟨_, h⟩
  · rcases s with _ | s
    · exact absurd (fun t ht => absurd ht (Option.not_mem_none t)) hfits
    · have hlong : ¬ s.bytes.length ≤ limit := fun hle => hfits fun t ht => Option.some.inj ht ▸ hle
      refine ⟨⟨unicodeBytes (some s) ++ rest, r⟩, ?_⟩
      rw [unicodeField, if_pos (hflag.mpr rfl)]
      refine (readUnicode_lengthPrefixed (hsized s rfl) limit rest r).trans ?_
      rw [if_neg hlong, text, Option.filter_some, if_neg (by simpa using hlong)]
      rfl

theorem blobField_blobBytes {flags flag : UInt32} {blob : Option (List UInt8)}
    (hflag : flags &&& flag ≠ 0 ↔ blob.isSome = true) (hsized : ∀ t ∈ blob, t.length < 2^32)
    (rest : List UInt8) (r : ℕ) :
    ∃ r', blobField flags flag ⟨blobBytes blob ++ rest, r⟩ = .ok (blob.getD [], ⟨rest, r'⟩) := by
  rcases blob with _ | blob
  · have hunset : flags &&& flag = 0 := not_not.mp fun h => Bool.false_ne_true (hflag.mp h)
    exact ⟨r, blobField_unset hunset _⟩
  · refine ⟨r + blob.length, ?_⟩
    rw [blobField, if_pos (hflag.mpr rfl)]
    exact readBlob_lengthPrefixed (hsized blob rfl) rest r

theorem length_layout : f.layout.length = 18 + f.bytes.length := by
  simp only [Fields.layout, Fields.packet, List.length_append, length_leBytes, List.length_cons, List.length_nil]
  omega

theorem u16le_append (before : List UInt8) {o : ℕ} (ho : before.length = o) (v : UInt16)
    (rest : List UInt8) : u16le (before ++ (leBytes 2 v.toNat ++ rest)) o = some v := by
  rw [u16le, leAt_append before ho v.toNat_lt, Option.map_some, UInt16.ofNat_toNat]

theorem u32le_append (before : List UInt8) {o : ℕ} (ho : before.length = o) (v : UInt32)
    (rest : List UInt8) : u32le (before ++ (leBytes 4 v.toNat ++ rest)) o = some v := by
  rw [u32le, leAt_append before ho v.toNat_lt, Option.map_some, UInt32.ofNat_toNat]

theorem parseHeader_layout : parseHeader f.layout = some (f.session_id, f.redirFlags, f.bytes) := by
  have hlength : ¬ f.layout.length < 18 := by
    rw [length_layout]
    omega
  have htype : u16le f.layout 2 = some 0x000A := u16le_append (leBytes 2 _) rfl 0x000A _
  have hpacket : restAt f.layout 6 = some f.packet :=
    restAt_append (leBytes 2 (6 + f.packet.length) ++ (leBytes 2 0x000A ++ [0, 0])) rfl f.packet
  have hflags : u16le f.packet 0 = some secRedirectionPkt := u16le_append [] rfl secRedirectionPkt _
  have hsession : u32le f.packet 4 = some f.session_id :=
    u32le_append (leBytes 2 secRedirectionPkt.toNat ++ leBytes 2 (12 + f.bytes.length)) rfl f.session_id _
  have hredir : u32le f.packet 8 = some f.redirFlags :=
    u32le_append (leBytes 2 secRedirectionPkt.toNat ++ (leBytes 2 (12 + f.bytes.length) ++
      leBytes 4 f.session_id.toNat)) rfl f.redirFlags _
  obtain ⟨n, hlen⟩ : ∃ n, u16le f.packet 2 = some n := by
    have hfits : 2 + 2 ≤ f.packet.length := by
      simp only [Fields.packet, List.length_append, length_leBytes]
      omega
    exact ⟨_, by rw [u16le, leAt, if_pos hfits]; rfl⟩
  have hbytes : f.packet.drop 12 = f.bytes := rfl
  rw [parseHeader, if_neg hlength, htype, hpacket]
  dsimp only [Option.bind_eq_bind, Option.bind_some]
  rw [if_neg (by decide)]
  rw [hflags, hlen, hsession, hredir, hbytes]
  rfl

def Fields.early : ServerRedirection where
  session_id := f.session_id
  redir_flags := f.redirFlags
  target_net_address := text 80 f.target_net_address
  load_balance_info := f.load_balance_info.getD []
  username := text 512 f.username
  domain := text 52 f.domain
  password := f.password.getD []

def readLate (flags : UInt32) (b : Cursor) : Except ℕ (List UInt8 × List UInt8 × ℕ) := do
  let (tsv, b) ← blobField flags redirectFlagClientTsvUrl b
  let (guid, b) ← blobField flags redirectFlagRedirectionGuid b
  .ok (tsv, guid, b.reserved)

theorem parseFields_eq {b b₁ b₂ b₃ b₄ b₅ : Cursor}
    (h₁ : unicodeField f.redirFlags redirectFlagTargetNetAddress 80 b = (text 80 f.target_net_address, b₁))
    (h₂ : blobField f.redirFlags redirectFlagLoadBalanceInfo b₁ = .ok (f.load_balance_info.getD [], b₂))
    (h₃ : unicodeField f.redirFlags redirectFlagUsername 512 b₂ = (text 512 f.username, b₃))
    (h₄ : unicodeField f.redirFlags redirectFlagDomain 52 b₃ = (text 52 f.domain, b₄))
    (h₅ : blobField f.redirFlags redirectFlagPassword b₄ = .ok (f.password.getD [], b₅)) :
    (parseFields f.session_id f.redirFlags b).toOption.map (·.1) = (readLate f.redirFlags b₅).toOption.map fun late =>
        { f.early with client_tsv_url := late.1, redirection_guid := late.2.1 } := by
  obtain ⟨hfqdn, hnetbios, haddresses, hcertificate, -, -⟩ := f.redirFlags_late
  unfold parseFields readLate
  rw [h₁]
  dsimp only
  rw [h₂]
  dsimp only [bind, Except.bind]
  rw [h₃]
  dsimp only
  rw [h₄]
  dsimp only
  rw [h₅]
  dsimp only
  rw [unicodeField_unset hfqdn]
  dsimp only
  rw [unicodeField_unset hnetbios]
  dsimp only
  rw [addressesField_unset haddresses]
  dsimp only
  rcases blobField f.redirFlags redirectFlagClientTsvUrl b₅ with n | ⟨tsv, b₆⟩
  · rfl
  dsimp only
  rcases blobField f.redirFlags redirectFlagRedirectionGuid b₆ with n | ⟨guid, b₇⟩
  · rfl
  dsimp only
  rw [blobField_unset hcertificate]
  rfl

theorem parse_layout {x : Option ServerRedirection}
    (h : (parseFields f.session_id f.redirFlags ⟨f.bytes, 0⟩).toOption.map (·.1) = x) :
    parse f.layout = x := by
  rw [parse, parseReserving, parseHeader_layout]
  exact h

/-! ## Which sets of fields are understood -/

/-- All strings are within the parser's limits. -/
structure Fields.InLimits : Prop where
  address : Fits 80 f.target_net_address
  username : Fits 512 f.username
  domain : Fits 52 f.domain
  fqdn : Fits 512 f.target_fqdn
  netbios : Fits 32 f.target_netbios_name

/-- No string that is too long is followed by a field that is read. -/
structure Fields.Unshifted : Prop where
  address : Fits 80 f.target_net_address ∨ f.load_balance_info = none ∧ f.username = none ∧
    f.domain = none ∧ f.password = none ∧ f.target_net_addresses = none
  username : Fits 512 f.username ∨ f.domain = none ∧ f.password = none ∧ f.target_net_addresses = none
  domain : Fits 52 f.domain ∨ f.password = none ∧ f.target_net_addresses = none

structure Fields.Understood : Prop where
  fqdn : f.target_fqdn = none
  netbios : f.target_netbios_name = none
  tsv : f.client_tsv_url.getD [] = []
  certificate : f.target_certificate.getD [] = []
  addresses : f.target_net_addresses.getD [] = []
  guid : f.target_net_addresses = none ∨ f.client_tsv_url.isSome = true → f.redirection_guid.getD [] = []
  behind : f.target_net_addresses.isSome = true → f.client_tsv_url = none → f.redirection_guid = none →
    f.target_certificate.isSome = true

variable {f : Fields}

theorem flag_eq_zero {flags flag : UInt32} {there : Bool} (hflag : flags &&& flag ≠ 0 ↔ there = true)
    (h : there = false) : flags &&& flag = 0 :=
  not_not.mp fun hne => Bool.false_ne_true (h ▸ hflag.mp hne)

theorem readLate_of_none (hfqdn : f.target_fqdn = none) (haddrs : f.target_net_addresses = none) (b : Cursor) :
    readLate f.redirFlags b = .ok ([], [], b.reserved) := by
  obtain ⟨-, -, -, -, htsv, hguid⟩ := f.redirFlags_late
  have htsv' := flag_eq_zero htsv (by rw [hfqdn]; rfl)
  have hguid' := flag_eq_zero hguid (by rw [haddrs]; rfl)
  rw [readLate, blobField_unset htsv']
  dsimp only [bind, Except.bind]
  rw [blobField_unset hguid']

theorem readLate_of_some (hfqdn : f.target_fqdn = none) (haddrs : f.target_net_addresses.isSome = true)
    (b : Cursor) : readLate f.redirFlags b = (readBlob b).map fun r => ([], r.1, r.2.reserved) := by
  obtain ⟨-, -, -, -, htsv, hguid⟩ := f.redirFlags_late
  have htsv' := flag_eq_zero htsv (by rw [hfqdn]; rfl)
  rw [readLate, blobField_unset htsv']
  dsimp only [bind, Except.bind]
  rw [blobField, if_pos (hguid.mpr haddrs)]
  rcases readBlob b with n | ⟨guid, b'⟩ <;> rfl

theorem readBlob_late (hsized : f.Sized) (hfqdn : f.target_fqdn = none) (hnetbios : f.target_netbios_name = none)
    (htsv : f.client_tsv_url.getD [] = []) (hcertificate : f.target_certificate.getD [] = [])
    (haddrs : f.target_net_addresses = some []) (r : ℕ) :
    ∃ guid b, readBlob ⟨f.late, r⟩ = .ok (guid, b) ∧ (guid = f.redirection_guid.getD [] ↔
        (f.client_tsv_url.isSome = true → f.redirection_guid.getD [] = []) ∧
          (f.client_tsv_url = none → f.redirection_guid = none → f.target_certificate.isSome = true)) := by
  have hlate : f.late = blobBytes f.client_tsv_url ++ (blobBytes f.redirection_guid ++
      (blobBytes f.target_certificate ++ lengthPrefixed (leBytes 4 0))) := by
    rw [Fields.late, hfqdn, hnetbios, haddrs]
    rfl
  rw [hlate]
  rcases hurl : f.client_tsv_url with _ | url
  · rcases hguid : f.redirection_guid with _ | guid
    · rcases hcert : f.target_certificate with _ | cert
      · -- The list of addresses is read as the GUID.
        refine ⟨_, _, readBlob_lengthPrefixed (show (leBytes 4 0).length < 2^32 by decide) [] r, ?_⟩
        exact iff_of_false (by decide) fun h => Bool.false_ne_true (h.2 rfl rfl)
      · have hcert' : cert = [] := by rwa [hcert] at hcertificate
        rw [hcert']
        refine ⟨_, _, readBlob_lengthPrefixed (show ([] : List UInt8).length < 2^32 by decide) _ r, ?_⟩
        exact iff_of_true rfl ⟨fun h => rfl, fun _ _ => rfl⟩
    · have hlt : guid.length < 2^32 := hsized.blobs _ (by simp) guid hguid
      refine ⟨_, _, readBlob_lengthPrefixed hlt _ r, ?_⟩
      exact iff_of_true rfl ⟨fun h => absurd h Bool.false_ne_true, fun _ h => absurd h (Option.some_ne_none guid)⟩
  · have hurl' : url = [] := by rwa [hurl] at htsv
    rw [hurl']
    refine ⟨_, _, readBlob_lengthPrefixed (show ([] : List UInt8).length < 2^32 by decide) _ r, ?_⟩
    constructor
    · intro h
      exact ⟨fun _ => h.symm, fun h => absurd h (Option.some_ne_none _)⟩
    · intro h
      exact (h.1 rfl).symm

theorem parse_layout_of_fits (hsized : f.Sized) (haddress : Fits 80 f.target_net_address)
    (husername : Fits 512 f.username) (hdomain : Fits 52 f.domain) :
    ∃ r, parse f.layout = (readLate f.redirFlags ⟨f.late, r⟩).toOption.map fun late =>
      { f.early with client_tsv_url := late.1, redirection_guid := late.2.1 } := by
  obtain ⟨hf₁, hf₂, hf₃, hf₄, hf₅⟩ := f.redirFlags_early
  obtain ⟨r₁, h₁⟩ := unicodeField_fits hf₁ (hsized.strings _ (by simp)) haddress (blobBytes f.load_balance_info ++
    (unicodeBytes f.username ++ (unicodeBytes f.domain ++ (blobBytes f.password ++ f.late)))) 0
  obtain ⟨r₂, h₂⟩ := blobField_blobBytes hf₂ (hsized.blobs _ (by simp)) (unicodeBytes f.username ++
    (unicodeBytes f.domain ++ (blobBytes f.password ++ f.late))) r₁
  obtain ⟨r₃, h₃⟩ := unicodeField_fits hf₃ (hsized.strings _ (by simp)) husername (unicodeBytes f.domain ++
    (blobBytes f.password ++ f.late)) r₂
  obtain ⟨r₄, h₄⟩ := unicodeField_fits hf₄ (hsized.strings _ (by simp)) hdomain (blobBytes f.password ++ f.late) r₃
  obtain ⟨r₅, h₅⟩ := blobField_blobBytes hf₅ (hsized.blobs _ (by simp)) f.late r₄
  exact ⟨r₅, parse_layout f (parseFields_eq f h₁ h₂ h₃ h₄ h₅)⟩

theorem parse_layout_of_understood (hsized : f.Sized) (hunshifted : f.Unshifted) (h : f.Understood) :
    parse f.layout = some f.expected := by
  have hexpected : f.expected =
      { f.early with client_tsv_url := [], redirection_guid := f.redirection_guid.getD [] } := by
    rw [Fields.expected, h.fqdn, h.netbios, h.tsv, h.certificate, h.addresses]
    rfl
  -- Where no alternate addresses are sent, all that counts is that the early fields are read.
  have hnone : ∀ (b₁ b₂ b₃ b₄ b₅ : Cursor), f.target_net_addresses = none →
      unicodeField f.redirFlags redirectFlagTargetNetAddress 80 ⟨f.bytes, 0⟩ = (text 80 f.target_net_address, b₁) →
      blobField f.redirFlags redirectFlagLoadBalanceInfo b₁ = .ok (f.load_balance_info.getD [], b₂) →
      unicodeField f.redirFlags redirectFlagUsername 512 b₂ = (text 512 f.username, b₃) →
      unicodeField f.redirFlags redirectFlagDomain 52 b₃ = (text 52 f.domain, b₄) →
      blobField f.redirFlags redirectFlagPassword b₄ = .ok (f.password.getD [], b₅) →
        parse f.layout = some f.expected := by
    intro b₁ b₂ b₃ b₄ b₅ haddrs h₁ h₂ h₃ h₄ h₅
    refine parse_layout f ((parseFields_eq f h₁ h₂ h₃ h₄ h₅).trans ?_)
    rw [readLate_of_none h.fqdn haddrs, hexpected, h.guid (.inl haddrs)]
    rfl
  obtain ⟨hf₁, hf₂, hf₃, hf₄, hf₅⟩ := f.redirFlags_early
  rcases hunshifted.address with haddress | ⟨hlbi, husername, hdomain, hpassword, haddrs⟩
  swap
  · obtain ⟨b₁, h₁⟩ := unicodeField_text hf₁ (hsized.strings _ (by simp)) 80 (blobBytes f.load_balance_info ++
      (unicodeBytes f.username ++ (unicodeBytes f.domain ++ (blobBytes f.password ++ f.late)))) 0
    refine hnone b₁ b₁ b₁ b₁ b₁ haddrs h₁ ?_ ?_ ?_ ?_
    · rw [blobField_unset (flag_eq_zero hf₂ (by rw [hlbi]; rfl)), hlbi]
      rfl
    · rw [unicodeField_unset (flag_eq_zero hf₃ (by rw [husername]; rfl)), husername]
      rfl
    · rw [unicodeField_unset (flag_eq_zero hf₄ (by rw [hdomain]; rfl)), hdomain]
      rfl
    · rw [blobField_unset (flag_eq_zero hf₅ (by rw [hpassword]; rfl)), hpassword]
      rfl
  obtain ⟨r₁, h₁⟩ := unicodeField_fits hf₁ (hsized.strings _ (by simp)) haddress (blobBytes f.load_balance_info ++
    (unicodeBytes f.username ++ (unicodeBytes f.domain ++ (blobBytes f.password ++ f.late)))) 0
  obtain ⟨r₂, h₂⟩ := blobField_blobBytes hf₂ (hsized.blobs _ (by simp)) (unicodeBytes f.username ++
    (unicodeBytes f.domain ++ (blobBytes f.password ++ f.late))) r₁
  rcases hunshifted.username with husername | ⟨hdomain, hpassword, haddrs⟩
  swap
  · obtain ⟨b₃, h₃⟩ := unicodeField_text hf₃ (hsized.strings _ (by simp)) 512 (unicodeBytes f.domain ++
      (blobBytes f.password ++ f.late)) r₂
    refine hnone _ _ b₃ b₃ b₃ haddrs h₁ h₂ h₃ ?_ ?_
    · rw [unicodeField_unset (flag_eq_zero hf₄ (by rw [hdomain]; rfl)), hdomain]
      rfl
    · rw [blobField_unset (flag_eq_zero hf₅ (by rw [hpassword]; rfl)), hpassword]
      rfl
  obtain ⟨r₃, h₃⟩ := unicodeField_fits hf₃ (hsized.strings _ (by simp)) husername (unicodeBytes f.domain ++
    (blobBytes f.password ++ f.late)) r₂
  rcases hunshifted.domain with hdomain | ⟨hpassword, haddrs⟩
  swap
  · obtain ⟨b₄, h₄⟩ := unicodeField_text hf₄ (hsized.strings _ (by simp)) 52
      (blobBytes f.password ++ f.late) r₃
    refine hnone _ _ _ b₄ b₄ haddrs h₁ h₂ h₃ h₄ ?_
    rw [blobField_unset (flag_eq_zero hf₅ (by rw [hpassword]; rfl)), hpassword]
    rfl
  obtain ⟨r₄, h₄⟩ := unicodeField_fits hf₄ (hsized.strings _ (by simp)) hdomain (blobBytes f.password ++ f.late) r₃
  obtain ⟨r₅, h₅⟩ := blobField_blobBytes hf₅ (hsized.blobs _ (by simp)) f.late r₄
  rcases haddrs : f.target_net_addresses with _ | addrs
  · exact hnone _ _ _ _ _ haddrs h₁ h₂ h₃ h₄ h₅
  -- Alternate addresses are sent, so that a GUID is read.
  have hsome : f.target_net_addresses.isSome = true := by rw [haddrs]; rfl
  have hnil : f.target_net_addresses = some [] := by
    have := h.addresses
    rw [haddrs] at this ⊢
    exact congrArg some this
  obtain ⟨guid, b, hread, hguid⟩ := readBlob_late hsized h.fqdn h.netbios h.tsv h.certificate hnil r₅
  have hguid' : guid = f.redirection_guid.getD [] := hguid.mpr ⟨fun hurl => h.guid (.inr hurl), h.behind hsome⟩
  refine parse_layout f ((parseFields_eq f h₁ h₂ h₃ h₄ h₅).trans ?_)
  rw [readLate_of_some h.fqdn hsome, hread, hexpected, hguid']
  rfl

theorem Fields.InLimits.unshifted (h : f.InLimits) : f.Unshifted := ⟨.inl h.address, .inl h.username, .inl h.domain⟩

theorem text_eq_none {limit : ℕ} {s : Option WideString} (hfits : Fits limit s) (h : text limit s = none) :
    s = none := by
  rcases s with _ | s
  · rfl
  · rw [text, Option.filter_some, if_pos (decide_eq_true (hfits s rfl))] at h
    cases h

theorem parse_layout_iff (hsized : f.Sized) (hlimits : f.InLimits) :
    parse f.layout = some f.expected ↔ f.Understood := by
  refine ⟨fun h => ?_, parse_layout_of_understood hsized hlimits.unshifted⟩
  obtain ⟨r, hparse⟩ := parse_layout_of_fits hsized hlimits.address hlimits.username hlimits.domain
  rw [hparse] at h
  rcases hlate : readLate f.redirFlags ⟨f.late, r⟩ with n | ⟨url, guid, n⟩
  · rw [hlate] at h
    cases h
  rw [hlate] at h
  have h := Option.some.inj h
  -- What is read has none of the fields that the source has no flag for.
  have hfqdn : f.target_fqdn = none := text_eq_none hlimits.fqdn (congrArg ServerRedirection.target_fqdn h).symm
  have hnetbios : f.target_netbios_name = none :=
    text_eq_none hlimits.netbios (congrArg ServerRedirection.target_netbios_name h).symm
  have hcertificate : f.target_certificate.getD [] = [] := (congrArg ServerRedirection.target_certificate h).symm
  have haddresses : f.target_net_addresses.getD [] = [] :=
    List.map_eq_nil_iff.mp (congrArg ServerRedirection.target_net_addresses h).symm
  have hurl : url = f.client_tsv_url.getD [] := congrArg ServerRedirection.client_tsv_url h
  have hguid : guid = f.redirection_guid.getD [] := congrArg ServerRedirection.redirection_guid h
  rcases haddrs : f.target_net_addresses with _ | addrs
  · rw [readLate_of_none hfqdn haddrs] at hlate
    cases hlate
    exact ⟨hfqdn, hnetbios, hurl.symm, hcertificate, haddresses, fun _ => hguid.symm,
      fun hsome => absurd hsome (by rw [haddrs]; exact Bool.false_ne_true)⟩
  · have hsome : f.target_net_addresses.isSome = true := by rw [haddrs]; rfl
    have hnil : f.target_net_addresses = some [] := by
      rw [haddrs] at haddresses ⊢
      exact congrArg some haddresses
    rw [readLate_of_some hfqdn hsome] at hlate
    rcases hread : readBlob ⟨f.late, r⟩ with n' | ⟨guid', b⟩
    · rw [hread] at hlate
      cases hlate
    rw [hread] at hlate
    cases hlate
    obtain ⟨guid'', b', hread', hiff⟩ := readBlob_late hsized hfqdn hnetbios hurl.symm hcertificate hnil r
    rw [hread] at hread'
    cases hread'
    obtain ⟨hurl', hbehind⟩ := hiff.mp hguid
    refine ⟨hfqdn, hnetbios, hurl.symm, hcertificate, haddresses, fun h => ?_, fun _ => hbehind⟩
    rcases h with h | h
    · rw [h] at haddrs
      cases haddrs
    · exact hurl' h

/-! ## What is reserved -/

def Cursor.size (b : Cursor) : ℕ := b.reserved + b.rest.length

theorem readUnicode_size (b : Cursor) (limit : ℕ) :
    b.reserved ≤ (readUnicode b limit).2.reserved ∧ (readUnicode b limit).2.size ≤ b.size := by
  unfold readUnicode
  rcases u32le b.rest 0 with _ | len
  · exact ⟨le_refl _, le_refl _⟩
  dsimp only
  split_ifs with h
  · exact ⟨le_refl _, le_refl _⟩
  · unfold Cursor.size
    dsimp only
    rw [List.length_drop]
    omega

theorem unicodeField_size (flags flag : UInt32) (limit : ℕ) (b : Cursor) :
    b.reserved ≤ (unicodeField flags flag limit b).2.reserved ∧ (unicodeField flags flag limit b).2.size ≤ b.size := by
  unfold unicodeField
  split_ifs
  · exact readUnicode_size b limit
  · exact ⟨le_refl _, le_refl _⟩

def Spends (b : Cursor) (count : ℕ) {α : Type} : Except ℕ (α × Cursor) → Prop
  | .error n => b.reserved + count ≤ n ∧ n ≤ b.size + count
  | .ok (_, b') => b.reserved + count ≤ b'.reserved ∧ b'.size ≤ b.size + count

theorem spends_error (b : Cursor) {α : Type} : Spends b 0 (.error b.reserved : Except ℕ (α × Cursor)) :=
  ⟨le_refl _, Nat.le_add_right _ _⟩

theorem spends_nothing (b : Cursor) {α : Type} (x : α) : Spends b 0 (.ok (x, b)) := ⟨le_refl _, le_refl _⟩

theorem spends_readBlob (b : Cursor) : Spends b 0 (readBlob b) := by
  unfold readBlob
  rcases u32le b.rest 0 with _ | len
  · exact spends_error b
  dsimp only
  split_ifs with h
  · exact spends_error b
  · unfold Spends Cursor.size
    dsimp only
    rw [List.length_drop]
    omega

theorem spends_blobField (flags flag : UInt32) (b : Cursor) : Spends b 0 (blobField flags flag b) := by
  unfold blobField
  split_ifs
  · exact spends_readBlob b
  · exact spends_nothing b []

theorem spends_readAddresses (n : ℕ) (b : Cursor) : Spends b 0 (readAddresses n b) := by
  induction n generalizing b with
  | zero => exact spends_nothing b []
  | succ n ih =>
    have hsize := readUnicode_size b 80
    rw [readAddresses]
    rcases hread : readUnicode b 80 with ⟨_ | addr, b'⟩ <;> rw [hread] at hsize
    · unfold Spends
      unfold Cursor.size at hsize ⊢
      dsimp only at hsize ⊢
      omega
    have hrest := ih b'
    dsimp only [bind, Except.bind]
    rcases hrec : readAddresses n b' with n' | ⟨addrs, b''⟩ <;> rw [hrec] at hrest
    · unfold Spends at hrest ⊢
      dsimp only at hrest hsize ⊢
      omega
    · unfold Spends at hrest ⊢
      dsimp only at hrest hsize ⊢
      omega

def claimedCount (redir_flags : UInt32) (b : Cursor) : ℕ :=
  if redir_flags &&& redirectFlagTargetNetAddresses ≠ 0 then
    match u32le b.rest 0, u32le b.rest 4 with
    | some _, some count => count.toNat
    | _, _ => 0
  else 0

theorem spends_addressesField (flags : UInt32) (b : Cursor) :
    Spends b (claimedCount flags b) (addressesField flags redirectFlagTargetNetAddresses b) := by
  unfold addressesField claimedCount
  split_ifs
  · rcases u32le b.rest 0 with _ | field_len
    · exact spends_error b
    rcases u32le b.rest 4 with _ | count
    · exact spends_error b
    dsimp only
    have h := spends_readAddresses count.toNat ⟨b.rest.drop 8, b.reserved + count.toNat⟩
    rcases hread : readAddresses count.toNat ⟨b.rest.drop 8, b.reserved + count.toNat⟩ with n | ⟨addrs, b'⟩ <;>
      rw [hread] at h
    · unfold Spends Cursor.size at h ⊢
      dsimp only at h ⊢
      rw [List.length_drop] at h
      omega
    · unfold Spends Cursor.size at h ⊢
      dsimp only at h ⊢
      rw [List.length_drop] at h
      omega
  · exact spends_nothing b []

def beforeAddresses (redir_flags : UInt32) (b : Cursor) : Except ℕ Cursor := do
  let (_, b) := unicodeField redir_flags redirectFlagTargetNetAddress 80 b
  let (_, b) ← blobField redir_flags redirectFlagLoadBalanceInfo b
  let (_, b) := unicodeField redir_flags redirectFlagUsername 512 b
  let (_, b) := unicodeField redir_flags redirectFlagDomain 52 b
  let (_, b) ← blobField redir_flags redirectFlagPassword b
  let (_, b) := unicodeField redir_flags redirectFlagTargetFqdn 512 b
  let (_, b) := unicodeField redir_flags redirectFlagTargetNetbiosName 32 b
  .ok b

def countThere (redir_flags : UInt32) : Except ℕ Cursor → ℕ
  | .error _ => 0
  | .ok b => claimedCount redir_flags b

/-- How many addresses a packet claims to hold. -/
def addressCount (plaintext : List UInt8) : ℕ :=
  match parseHeader plaintext with
  | none => 0
  | some (_, redir_flags, b) => countThere redir_flags (beforeAddresses redir_flags ⟨b, 0⟩)

theorem reservedBy_parseFields (session_id redir_flags : UInt32) (b : Cursor) :
    b.reserved + countThere redir_flags (beforeAddresses redir_flags b) ≤
        reservedBy (parseFields session_id redir_flags b) ∧
      reservedBy (parseFields session_id redir_flags b) ≤
        b.size + countThere redir_flags (beforeAddresses redir_flags b) := by
  have h₁ := unicodeField_size redir_flags redirectFlagTargetNetAddress 80 b
  unfold parseFields beforeAddresses
  rcases hr₁ : unicodeField redir_flags redirectFlagTargetNetAddress 80 b with ⟨x₁, b₁⟩
  rw [hr₁] at h₁
  have h₂ := spends_blobField redir_flags redirectFlagLoadBalanceInfo b₁
  dsimp only [bind, Except.bind]
  rcases hr₂ : blobField redir_flags redirectFlagLoadBalanceInfo b₁ with n | ⟨x₂, b₂⟩ <;> rw [hr₂] at h₂
  · unfold Spends at h₂
    dsimp only [reservedBy, countThere] at h₁ h₂ ⊢
    omega
  have h₃ := unicodeField_size redir_flags redirectFlagUsername 512 b₂
  dsimp only
  rcases hr₃ : unicodeField redir_flags redirectFlagUsername 512 b₂ with ⟨x₃, b₃⟩
  rw [hr₃] at h₃
  have h₄ := unicodeField_size redir_flags redirectFlagDomain 52 b₃
  dsimp only
  rcases hr₄ : unicodeField redir_flags redirectFlagDomain 52 b₃ with ⟨x₄, b₄⟩
  rw [hr₄] at h₄
  have h₅ := spends_blobField redir_flags redirectFlagPassword b₄
  dsimp only
  rcases hr₅ : blobField redir_flags redirectFlagPassword b₄ with n | ⟨x₅, b₅⟩ <;> rw [hr₅] at h₅
  · unfold Spends at h₂ h₅
    dsimp only [reservedBy, countThere] at h₁ h₂ h₃ h₄ h₅ ⊢
    omega
  have h₆ := unicodeField_size redir_flags redirectFlagTargetFqdn 512 b₅
  dsimp only
  rcases hr₆ : unicodeField redir_flags redirectFlagTargetFqdn 512 b₅ with ⟨x₆, b₆⟩
  rw [hr₆] at h₆
  have h₇ := unicodeField_size redir_flags redirectFlagTargetNetbiosName 32 b₆
  dsimp only
  rcases hr₇ : unicodeField redir_flags redirectFlagTargetNetbiosName 32 b₆ with ⟨x₇, b₇⟩
  rw [hr₇] at h₇
  have h₈ := spends_addressesField redir_flags b₇
  -- The list of addresses, and three blobs behind it.
  unfold Spends at h₂ h₅
  dsimp only [countThere] at h₁ h₂ h₃ h₄ h₅ h₆ h₇ ⊢
  rcases hr₈ : addressesField redir_flags redirectFlagTargetNetAddresses b₇ with n | ⟨x₈, b₈⟩ <;> rw [hr₈] at h₈
  · unfold Spends at h₈
    dsimp only [reservedBy] at h₈ ⊢
    omega
  have h₉ := spends_blobField redir_flags redirectFlagClientTsvUrl b₈
  dsimp only
  rcases hr₉ : blobField redir_flags redirectFlagClientTsvUrl b₈ with n | ⟨x₉, b₉⟩ <;> rw [hr₉] at h₉
  · unfold Spends at h₈ h₉
    dsimp only [reservedBy] at h₈ h₉ ⊢
    omega
  have h₁₀ := spends_blobField redir_flags redirectFlagRedirectionGuid b₉
  dsimp only
  rcases hr₁₀ : blobField redir_flags redirectFlagRedirectionGuid b₉ with n | ⟨x₁₀, b₁₀⟩ <;> rw [hr₁₀] at h₁₀
  · unfold Spends at h₈ h₉ h₁₀
    dsimp only [reservedBy] at h₈ h₉ h₁₀ ⊢
    omega
  have h₁₁ := spends_blobField redir_flags redirectFlagTargetCertificate b₁₀
  dsimp only
  rcases hr₁₁ : blobField redir_flags redirectFlagTargetCertificate b₁₀ with n | ⟨x₁₁, b₁₁⟩ <;> rw [hr₁₁] at h₁₁
  · unfold Spends at h₈ h₉ h₁₀ h₁₁
    dsimp only [reservedBy] at h₈ h₉ h₁₀ h₁₁ ⊢
    omega
  · unfold Spends Cursor.size at h₈ h₉ h₁₀ h₁₁
    unfold Cursor.size at h₁ h₂ h₃ h₄ h₅ h₆ h₇ ⊢
    dsimp only [reservedBy] at h₈ h₉ h₁₀ h₁₁ ⊢
    omega

theorem length_of_parseHeader {plaintext b : List UInt8} {session_id redir_flags : UInt32}
    (h : parseHeader plaintext = some (session_id, redir_flags, b)) : b.length ≤ plaintext.length := by
  unfold parseHeader at h
  split_ifs at h
  obtain ⟨pdu_type, -, h⟩ := Option.bind_eq_some_iff.mp h
  split_ifs at h
  obtain ⟨packet, hpacket, h⟩ := Option.bind_eq_some_iff.mp h
  obtain ⟨flags, -, h⟩ := Option.bind_eq_some_iff.mp h
  split_ifs at h
  obtain ⟨length, -, h⟩ := Option.bind_eq_some_iff.mp h
  obtain ⟨session, -, h⟩ := Option.bind_eq_some_iff.mp h
  obtain ⟨redir, -, h⟩ := Option.bind_eq_some_iff.mp h
  cases h
  unfold restAt at hpacket
  split_ifs at hpacket
  cases hpacket
  rw [List.length_drop, List.length_drop]
  omega

theorem reserved_bounds (plaintext : List UInt8) : addressCount plaintext ≤ reserved plaintext ∧
      reserved plaintext ≤ plaintext.length + addressCount plaintext := by
  unfold addressCount reserved parseReserving
  rcases hheader : parseHeader plaintext with _ | ⟨session_id, redir_flags, b⟩
  · exact ⟨le_refl _, Nat.zero_le _⟩
  have hlength := length_of_parseHeader hheader
  have h := reservedBy_parseFields session_id redir_flags ⟨b, 0⟩
  unfold Cursor.size at h
  dsimp only at h ⊢
  omega

/-- When the parser follows the layout: a set of fields whose strings are within the limits is read as it was
sent if and only if it is understood; strings that are too long are skipped where no field that is read
follows them, as the cursor goes on behind a string if and only if it is not too long; and the room reserved
is linear in the bytes where the claimed count of addresses is. -/
theorem parser_follows (f : Fields) (hsized : f.Sized) :
    (f.InLimits → (parse f.layout = some f.expected ↔ f.Understood)) ∧
    (f.Unshifted → f.Understood → parse f.layout = some f.expected) ∧
    (∀ (s : WideString) (limit : ℕ) (rest : List UInt8) (r : ℕ), s.bytes.length < 2^32 →
      ((readUnicode ⟨lengthPrefixed s.bytes ++ rest, r⟩ limit).2.rest = rest ↔ s.bytes.length ≤ limit)) ∧
    ∀ (b : List UInt8) (k : ℕ),
      (addressCount b ≤ k * b.length → reserved b ≤ (k + 1) * b.length) ∧
        (reserved b ≤ k * b.length → addressCount b ≤ k * b.length) := by
  refine ⟨parse_layout_iff hsized, parse_layout_of_understood hsized, ?_, ?_⟩
  · intro s limit rest r hlt
    rw [readUnicode_lengthPrefixed hlt]
    split_ifs with hfits
    · exact iff_of_true rfl hfits
    · refine iff_of_false (fun h => ?_) hfits
      have hlen := congrArg List.length h
      rw [lengthPrefixed, List.length_append, List.length_append, length_leBytes] at hlen
      omega
  · intro b k
    obtain ⟨hcount, hreserved⟩ := reserved_bounds b
    refine ⟨fun h => ?_, fun h => hcount.trans h⟩
    rw [Nat.succ_mul]
    omega

def signedIn : Fields where
  session_id := 7
  username := some ⟨['r', 'd', 'p'], by decide⟩
  password := some [1, 2, 3]

theorem parser_follows_signedIn : parse signedIn.layout = some signedIn.expected := by
  have husername : ∀ t ∈ signedIn.username, t.bytes.length ≤ 8 := by
    intro t ht
    rw [← Option.some.inj ht]
    decide
  have hpassword : ∀ t ∈ signedIn.password, t.length ≤ 3 := by
    intro t ht
    rw [← Option.some.inj ht]
    decide
  have hsized : signedIn.Sized := by
    constructor
    · intro s hs t ht
      simp only [List.mem_cons, List.not_mem_nil, or_false] at hs
      rcases hs with rfl | rfl | rfl
      · cases ht
      · exact lt_of_le_of_lt (husername t ht) (by decide)
      · cases ht
    · intro b hb t ht
      simp only [List.mem_cons, List.not_mem_nil, or_false] at hb
      rcases hb with rfl | rfl | rfl
      · cases ht
      · exact lt_of_le_of_lt (hpassword t ht) (by decide)
      · cases ht
  refine ((parser_follows signedIn hsized).1 ⟨?_, ?_, ?_, ?_, ?_⟩).mpr ⟨rfl, rfl, rfl, rfl, rfl, ?_, ?_⟩
  · exact fun t ht => absurd ht (Option.not_mem_none t)
  · exact fun t ht => (husername t ht).trans (by decide)
  · exact fun t ht => absurd ht (Option.not_mem_none t)
  · exact fun t ht => absurd ht (Option.not_mem_none t)
  · exact fun t ht => absurd ht (Option.not_mem_none t)
  · exact fun _ => rfl
  · exact fun h => absurd h Bool.false_ne_true

def named : Fields where
  session_id := 7
  target_fqdn := some ⟨['h'], by decide⟩

def longDomain : Fields where
  session_id := 7
  domain := some ⟨List.replicate 26 'd', by decide⟩
  password := some [1, 2, 3]

def manyAddresses : List UInt8 :=
  [26, 0, 10, 0, 0, 0, 0, 4, 20, 0, 7, 0, 0, 0, 0x80, 0, 0, 0, 4, 0, 0, 0, 0xFF, 0xFF, 0xFF, 0xFF]

/-- The name is read as the URL, the too long domain as the password; and room is reserved for as many
addresses as there are said to be. -/
theorem parser_strays :
    (parse named.layout = some { session_id := 7, redir_flags := 0x100, client_tsv_url := [104, 0, 0, 0] } ∧
      parse named.layout ≠ some named.expected) ∧
    ((parse longDomain.layout).map (·.password) = some ((List.replicate 26 [100, 0]).flatten ++ [0, 0]) ∧
      longDomain.expected.password = [1, 2, 3]) ∧
    reserved manyAddresses = 4294967295 ∧ manyAddresses.length = 26 := by
  refine ⟨⟨?_, ?_⟩, ⟨?_, rfl⟩, ?_, rfl⟩
  all_goals decide +kernel

end Rdpio.Pdu.Redirection
