import Rdpio.Nla.Der

/-!
# CredSSP messages

`TSRequest` of `crates/rdp-nla/src/tsrequest.rs`, and how `credssp.rs` reads one off a stream.
-/

namespace Rdpio.Nla

open Der (Asn1Error Fault Cursor)

structure TsRequest where
  version : UInt32 := 0
  nego_tokens : List (List UInt8) := []
  auth_info : Option (List UInt8) := none
  pub_key_auth : Option (List UInt8) := none
  error_code : Option UInt32 := none
  client_nonce : Option (Vector UInt8 32) := none
deriving DecidableEq

namespace TsRequest

/-- `SEQUENCE { negoToken [0] OCTET STRING }` -/
def negoData (token : List UInt8) : List UInt8 := Der.sequence (Der.context 0 (Der.octetString token))

/-- A field that is written where it has a value. -/
def optional {α : Type} (n : UInt8) (write : α → List UInt8) : Option α → List UInt8
  | none => []
  | some value => Der.context n (write value)

variable (r : TsRequest)

def negoTokens : List UInt8 :=
  if r.nego_tokens = [] then [] else Der.context 1 (Der.sequence (r.nego_tokens.map negoData).flatten)

def body : List UInt8 :=
  Der.context 0 (Der.integer r.version) ++ (r.negoTokens ++ (optional 2 Der.octetString r.auth_info ++
    (optional 3 Der.octetString r.pub_key_auth ++ (optional 4 Der.integer r.error_code ++
      optional 5 (fun nonce : Vector UInt8 32 => Der.octetString nonce.toList) r.client_nonce))))

def toDer : List UInt8 := Der.sequence r.body

/-- The tokens of `NegoData`. -/
def readTokens (items : List UInt8) (tokens : List (List UInt8)) : Except (Fault Asn1Error) (List (List UInt8)) :=
  if items = [] then .ok tokens
  else
    match _h : (Der.expect Der.TAG_SEQUENCE).run items with
    | .error e => .error e
    | .ok (one, items') => do
      let token ← (Der.expect (Der.contextTag 0)).run one
      let octets ← (Der.expect Der.TAG_OCTET_STRING).run token.1
      readTokens items' (tokens ++ [octets.1])
termination_by items.length
decreasing_by exact Der.length_expect ‹_›

def readField (req : TsRequest) (tag : UInt8) (value : List UInt8) : Except (Fault Asn1Error) TsRequest :=
  if tag = Der.contextTag 0 then do
    let number ← (Der.expect Der.TAG_INTEGER).run value
    let version ← Der.readU32 number.1
    .ok { req with version }
  else if tag = Der.contextTag 1 then do
    let seq ← (Der.expect Der.TAG_SEQUENCE).run value
    let nego_tokens ← readTokens seq.1 req.nego_tokens
    .ok { req with nego_tokens }
  else if tag = Der.contextTag 2 then do
    let octets ← (Der.expect Der.TAG_OCTET_STRING).run value
    .ok { req with auth_info := some octets.1 }
  else if tag = Der.contextTag 3 then do
    let octets ← (Der.expect Der.TAG_OCTET_STRING).run value
    .ok { req with pub_key_auth := some octets.1 }
  else if tag = Der.contextTag 4 then do
    let number ← (Der.expect Der.TAG_INTEGER).run value
    let code ← Der.readU32 number.1
    .ok { req with error_code := some code }
  else if tag = Der.contextTag 5 then do
    let octets ← (Der.expect Der.TAG_OCTET_STRING).run value
    if h : octets.1.length = 32 then .ok { req with client_nonce := some ⟨octets.1.toArray, h⟩ } else .ok req
  else .ok req

def readFields (fields : List UInt8) (req : TsRequest) : Except (Fault Asn1Error) TsRequest :=
  if fields = [] then .ok req
  else
    match _h : Der.readElement.run fields with
    | .error e => .error e
    | .ok (element, fields') => do
      let req ← readField req element.1 element.2
      readFields fields' req
termination_by fields.length
decreasing_by exact Der.length_readElement ‹_›

/-- What stands behind the sequence is left. -/
def fromDer (input : List UInt8) : Except (Fault Asn1Error) TsRequest := do
  let body ← (Der.expect Der.TAG_SEQUENCE).run input
  readFields body.1 {}

end TsRequest

inductive NlaError where
  | Io
  | Sequence (message : String)
deriving DecidableEq

def MAX_DER_ELEMENT : ℕ := 256 * 1024

def readExact (n : ℕ) : Cursor NlaError (List UInt8) := fun stream =>
  if n ≤ stream.length then .ok (stream.take n, stream.drop n) else .error (.error .Io)

def lengthBytes (first : UInt8) : Cursor NlaError (List UInt8) :=
  if first < 0x80 then pure []
  else
    let n := (first &&& 0x7f).toNat
    if n = 0 ∨ 4 < n then Der.fail (.Sequence "invalid DER length") else readExact n

def contentLen (first : UInt8) (lb : List UInt8) : ℕ := if first < 0x80 then first.toNat else Der.shiftIn 64 lb

def readDerElement : Cursor NlaError (List UInt8) := do
  let head ← readExact 2
  let tag ← Der.index head 0
  let first ← Der.index head 1
  let lb ← lengthBytes first
  if MAX_DER_ELEMENT < contentLen first lb then Der.fail (.Sequence "DER element too large")
  else
    let body ← readExact (contentLen first lb)
    pure ([tag, first] ++ lb ++ body)

namespace TsRequest

/-! ## A request is read back -/

theorem readTokens_append {token : List UInt8} (h : (negoData token).length < 2^64) (items : List UInt8)
    (tokens : List (List UInt8)) :
    readTokens (negoData token ++ items) tokens = readTokens items (tokens ++ [token]) := by
  have hone : (Der.context 0 (Der.octetString token)).length < 2^64 := (Der.length_lt_tlv _ _).trans h
  have hinner : (Der.octetString token).length < 2^64 := (Der.length_lt_tlv _ _).trans hone
  have htoken : token.length < 2^64 := (Der.length_lt_tlv _ _).trans hinner
  have hseq : (Der.expect Der.TAG_SEQUENCE).run (negoData token ++ items) = .ok (_, items) :=
    Der.reads_expect Der.TAG_SEQUENCE hone items
  have hsome : negoData token ++ items ≠ [] := Der.tlv_ne_nil _ _ _
  rw [readTokens, if_neg hsome]
  split
  · next e he =>
    rw [hseq] at he
    cases he
  · next one items' hitems =>
    rw [hseq, Except.ok.injEq, Prod.mk.injEq] at hitems
    obtain ⟨rfl, rfl⟩ := hitems
    have hcontext : (Der.expect (Der.contextTag 0)).run (Der.context 0 (Der.octetString token)) = .ok (_, []) :=
      Der.run_expect _ hinner
    have hoctets : (Der.expect Der.TAG_OCTET_STRING).run (Der.octetString token) = .ok (token, []) :=
      Der.run_expect _ htoken
    rw [hcontext]
    dsimp only [Bind.bind, Except.bind]
    rw [hoctets]

theorem readTokens_flatten (more tokens : List (List UInt8)) (h : (more.map negoData).flatten.length < 2^64) :
    readTokens (more.map negoData).flatten tokens = .ok (tokens ++ more) := by
  induction more generalizing tokens with
  | nil => rw [List.append_nil, List.map_nil, List.flatten_nil, readTokens, if_pos rfl]
  | cons token more ih =>
    rw [List.map_cons, List.flatten_cons, List.length_append] at h
    rw [List.map_cons, List.flatten_cons, readTokens_append (by omega), ih _ (by omega), List.append_assoc,
      List.singleton_append]

theorem readFields_append {n : UInt8} {inner : List UInt8} (h : inner.length < 2^64) {req req' : TsRequest}
    (hfield : readField req (Der.contextTag n) inner = .ok req') (fields : List UInt8) :
    readFields (Der.context n inner ++ fields) req = readFields fields req' := by
  have helement : Der.readElement.run (Der.context n inner ++ fields) = .ok (_, fields) :=
    Der.reads_tlv (Der.contextTag n) h fields
  have hsome : Der.context n inner ++ fields ≠ [] := Der.tlv_ne_nil _ _ _
  rw [readFields, if_neg hsome]
  split
  · next e he =>
    rw [helement] at he
    cases he
  · next element fields' hfields =>
    rw [helement, Except.ok.injEq, Prod.mk.injEq] at hfields
    obtain ⟨rfl, rfl⟩ := hfields
    rw [hfield]
    rfl

theorem readFields_optional {α : Type} {n : UInt8} {write : α → List UInt8} {field : Option α}
    (h : (optional n write field).length < 2^64) {req : TsRequest} (make : Option α → TsRequest)
    (hnone : make none = req) (hsome : ∀ value, (write value).length < 2^64 →
      readField req (Der.contextTag n) (write value) = .ok (make (some value))) (fields : List UInt8) :
    readFields (optional n write field ++ fields) req = readFields fields (make field) := by
  cases field with
  | none => rw [optional, List.nil_append, hnone]
  | some value =>
    have hlen : (write value).length < 2^64 := (Der.length_lt_tlv _ _).trans h
    exact readFields_append hlen (hsome value hlen) fields

section Fields

variable (req : TsRequest)

theorem run_octetString {value : List UInt8} (h : (Der.octetString value).length < 2^64) :
    (Der.expect Der.TAG_OCTET_STRING).run (Der.octetString value) = .ok (value, []) :=
  Der.run_expect _ ((Der.length_lt_tlv _ _).trans h)

theorem run_integer {v : UInt32} (h : (Der.integer v).length < 2^64) :
    (Der.expect Der.TAG_INTEGER).run (Der.integer v) = .ok (Der.integerValue v, []) :=
  Der.run_expect _ ((Der.length_lt_tlv _ _).trans h)

theorem readField_version {v : UInt32} (h : (Der.integer v).length < 2^64) :
    readField req (Der.contextTag 0) (Der.integer v) = .ok { req with version := v } := by
  rw [readField, if_pos rfl, run_integer h]
  dsimp only [Bind.bind, Except.bind]
  rw [Der.readU32_integerValue]

theorem readField_negoTokens {tokens : List (List UInt8)} (h : (Der.sequence (tokens.map negoData).flatten).length < 2^64) :
    readField req (Der.contextTag 1) (Der.sequence (tokens.map negoData).flatten) =
      .ok { req with nego_tokens := req.nego_tokens ++ tokens } := by
  have hlen : (tokens.map negoData).flatten.length < 2^64 := (Der.length_lt_tlv _ _).trans h
  have hseq : (Der.expect Der.TAG_SEQUENCE).run (Der.sequence (tokens.map negoData).flatten) = .ok (_, []) :=
    Der.run_expect _ hlen
  rw [readField, if_neg (by decide), if_pos rfl, hseq]
  dsimp only [Bind.bind, Except.bind]
  rw [readTokens_flatten tokens _ hlen]

theorem readField_authInfo {auth : List UInt8} (h : (Der.octetString auth).length < 2^64) :
    readField req (Der.contextTag 2) (Der.octetString auth) = .ok { req with auth_info := some auth } := by
  rw [readField, if_neg (by decide), if_neg (by decide), if_pos rfl, run_octetString h]
  rfl

theorem readField_pubKeyAuth {pk : List UInt8} (h : (Der.octetString pk).length < 2^64) :
    readField req (Der.contextTag 3) (Der.octetString pk) = .ok { req with pub_key_auth := some pk } := by
  rw [readField, if_neg (by decide), if_neg (by decide), if_neg (by decide), if_pos rfl, run_octetString h]
  rfl

theorem readField_errorCode {code : UInt32} (h : (Der.integer code).length < 2^64) :
    readField req (Der.contextTag 4) (Der.integer code) = .ok { req with error_code := some code } := by
  rw [readField, if_neg (by decide), if_neg (by decide), if_neg (by decide), if_neg (by decide), if_pos rfl,
    run_integer h]
  dsimp only [Bind.bind, Except.bind]
  rw [Der.readU32_integerValue]

theorem readField_clientNonce {nonce : Vector UInt8 32} (h : (Der.octetString nonce.toList).length < 2^64) :
    readField req (Der.contextTag 5) (Der.octetString nonce.toList) = .ok { req with client_nonce := some nonce } := by
  have hlen : nonce.toList.length = 32 := Vector.length_toList
  rw [readField, if_neg (by decide), if_neg (by decide), if_neg (by decide), if_neg (by decide), if_neg (by decide),
    if_pos rfl, run_octetString h]
  dsimp only [Bind.bind, Except.bind]
  rw [dif_pos hlen]
  rfl

end Fields

theorem fromDer_toDer {r : TsRequest} (h : r.toDer.length < 2^64) : fromDer r.toDer = .ok r := by
  have hbody : r.body.length < 2^64 := (Der.length_lt_tlv _ _).trans h
  have hparts := hbody
  rw [body] at hparts
  simp only [List.length_append] at hparts
  have hexpect : (Der.expect Der.TAG_SEQUENCE).run r.toDer = .ok (r.body, []) := Der.run_expect _ hbody
  rw [fromDer, hexpect]
  change readFields r.body {} = .ok r
  have hversion : (Der.integer r.version).length < 2^64 := (Der.length_lt_tlv (Der.contextTag 0) _).trans
    (show (Der.context 0 (Der.integer r.version)).length < 2^64 by omega)
  have htokens : ∀ fields, readFields (r.negoTokens ++ fields) { version := r.version } =
      readFields fields { version := r.version, nego_tokens := r.nego_tokens } := by
    intro fields
    have hlen : r.negoTokens.length < 2^64 := by omega
    unfold negoTokens at hlen ⊢
    split_ifs at hlen ⊢ with hnone
    · rw [hnone]
      rfl
    · have hseq : (Der.sequence (r.nego_tokens.map negoData).flatten).length < 2^64 := (Der.length_lt_tlv _ _).trans hlen
      exact readFields_append hseq (readField_negoTokens _ hseq) fields
  have hauth : (optional 2 Der.octetString r.auth_info).length < 2^64 := by omega
  have hpk : (optional 3 Der.octetString r.pub_key_auth).length < 2^64 := by omega
  have hcode : (optional 4 Der.integer r.error_code).length < 2^64 := by omega
  have hnonce : (optional 5 (fun nonce : Vector UInt8 32 => Der.octetString nonce.toList) r.client_nonce).length < 2^64 :=
    by omega
  -- Field by field, as they are written.
  calc readFields r.body {}
      = readFields (r.negoTokens ++ _) { version := r.version } :=
        readFields_append hversion (readField_version _ hversion) _
    _ = readFields (optional 2 Der.octetString r.auth_info ++ _)
          { version := r.version, nego_tokens := r.nego_tokens } := htokens _
    _ = readFields (optional 3 Der.octetString r.pub_key_auth ++ _)
          { version := r.version, nego_tokens := r.nego_tokens, auth_info := r.auth_info } :=
        readFields_optional hauth (fun auth_info =>
          { version := r.version, nego_tokens := r.nego_tokens, auth_info }) rfl (fun _ => readField_authInfo _) _
    _ = readFields (optional 4 Der.integer r.error_code ++ _)
          { version := r.version, nego_tokens := r.nego_tokens, auth_info := r.auth_info,
            pub_key_auth := r.pub_key_auth } :=
        readFields_optional hpk (fun pub_key_auth =>
          { version := r.version, nego_tokens := r.nego_tokens, auth_info := r.auth_info, pub_key_auth }) rfl
          (fun _ => readField_pubKeyAuth _) _
    _ = readFields (optional 5 (fun nonce : Vector UInt8 32 => Der.octetString nonce.toList) r.client_nonce)
          { r with client_nonce := none } :=
        readFields_optional hcode (fun error_code => { r with error_code, client_nonce := none }) rfl
          (fun _ => readField_errorCode _) _
    _ = readFields [] r := by
        have hlast := readFields_optional hnonce (fun client_nonce => { r with client_nonce }) rfl
          (fun _ => readField_clientNonce _) []
        rwa [List.append_nil] at hlast
    _ = .ok r := by rw [readFields, if_pos rfl]

theorem readTokens_ne_panic (items : List UInt8) (tokens : List (List UInt8)) :
    readTokens items tokens ≠ .error .panic := by
  fun_induction readTokens items tokens with
  | case1 => exact Der.ok_ne_panic _
  | case2 items tokens hsome e he =>
    exact fun h => Der.expect_ne_panic _ items (he.trans (congrArg Except.error (Except.error.inj h)))
  | case3 items tokens hsome one items' hone ih =>
    refine Der.bind_ne_panic (Der.expect_ne_panic _ _) fun token _ => ?_
    exact Der.bind_ne_panic (Der.expect_ne_panic _ _) fun octets _ => ih octets

theorem readField_ne_panic (req : TsRequest) (tag : UInt8) (value : List UInt8) :
    readField req tag value ≠ .error .panic := by
  unfold readField
  split
  · refine Der.bind_ne_panic (Der.expect_ne_panic _ _) fun number _ => ?_
    exact Der.bind_ne_panic (Der.readU32_ne_panic _) fun version _ => Der.ok_ne_panic _
  split
  · refine Der.bind_ne_panic (Der.expect_ne_panic _ _) fun seq _ => ?_
    exact Der.bind_ne_panic (readTokens_ne_panic _ _) fun tokens _ => Der.ok_ne_panic _
  split
  · exact Der.bind_ne_panic (Der.expect_ne_panic _ _) fun octets _ => Der.ok_ne_panic _
  split
  · exact Der.bind_ne_panic (Der.expect_ne_panic _ _) fun octets _ => Der.ok_ne_panic _
  split
  · refine Der.bind_ne_panic (Der.expect_ne_panic _ _) fun number _ => ?_
    exact Der.bind_ne_panic (Der.readU32_ne_panic _) fun code _ => Der.ok_ne_panic _
  split
  · refine Der.bind_ne_panic (Der.expect_ne_panic _ _) fun octets _ => ?_
    split
    · exact Der.ok_ne_panic _
    · exact Der.ok_ne_panic _
  · exact Der.ok_ne_panic _

theorem readFields_ne_panic (fields : List UInt8) (req : TsRequest) : readFields fields req ≠ .error .panic := by
  fun_induction readFields fields req with
  | case1 => exact Der.ok_ne_panic _
  | case2 fields req hsome e he =>
    exact fun h => Der.readElement_ne_panic fields (he.trans (congrArg Except.error (Except.error.inj h)))
  | case3 fields req hsome element fields' helement ih =>
    exact Der.bind_ne_panic (readField_ne_panic _ _ _) fun req' _ => ih req'

theorem fromDer_ne_panic (input : List UInt8) : fromDer input ≠ .error .panic :=
  Der.bind_ne_panic (Der.expect_ne_panic _ _) fun _ _ => readFields_ne_panic _ _

end TsRequest

theorem run_readExact (w rest : List UInt8) : (readExact w.length).run (w ++ rest) = .ok (w, rest) := by
  change readExact w.length (w ++ rest) = _
  rw [readExact, if_pos (by simp), List.take_left, List.drop_left]

theorem length_significant_le {b : UInt8} {bs : List UInt8} (hb : b ≠ 0) (h : Lib.ofBe (b :: bs) < 2^32) :
    (b :: bs).length ≤ 4 := by
  have hpos : 0 < b.toNat := Nat.pos_of_ne_zero fun h => hb (UInt8.toNat_inj.mp h)
  have hlow : 256^bs.length ≤ Lib.ofBe (b :: bs) := by
    rw [Lib.ofBe_cons]
    exact Nat.le_add_right_of_le (Nat.le_mul_of_pos_left _ hpos)
  have hlt : 256^bs.length < 256^4 := Nat.lt_of_le_of_lt hlow h
  have := (Nat.pow_lt_pow_iff_right (by decide)).mp hlt
  rw [List.length_cons]
  omega

section Stream

variable {tag first : UInt8} {lb value rest : List UInt8}

theorem readDerElement_of (hrun : (lengthBytes first).run (lb ++ (value ++ rest)) = .ok (lb, value ++ rest))
    (hcontent : contentLen first lb = value.length) (h : value.length ≤ MAX_DER_ELEMENT) :
    readDerElement.run ([tag, first] ++ (lb ++ (value ++ rest))) = .ok ([tag, first] ++ lb ++ value, rest) := by
  have hhead : (readExact 2).run ([tag, first] ++ (lb ++ (value ++ rest))) = .ok ([tag, first], lb ++ (value ++ rest)) :=
    run_readExact [tag, first] _
  have hindex : (Der.index [tag, first] 1 : Cursor NlaError UInt8).run (lb ++ (value ++ rest)) =
      .ok (first, lb ++ (value ++ rest)) := rfl
  rw [readDerElement, Der.run_bind_ok _ hhead, Der.run_bind_ok _ (Der.run_index ..), Der.run_bind_ok _ hindex,
    Der.run_bind_ok _ hrun, hcontent, if_neg (Nat.not_lt.mpr h), Der.run_bind_ok _ (run_readExact value rest)]
  rfl

theorem readDerElement_tlv (h : value.length ≤ MAX_DER_ELEMENT) :
    readDerElement.run (Der.tlv tag value ++ rest) = .ok (Der.tlv tag value, rest) := by
  have hmax : MAX_DER_ELEMENT = 262144 := rfl
  by_cases hshort : value.length < 0x80
  · have hnat : (UInt8.ofNat value.length).toNat = value.length :=
      UInt8.toNat_ofNat_of_lt' (show value.length < 2^8 by omega)
    have hlt : UInt8.ofNat value.length < 0x80 := by
      rw [UInt8.lt_iff_toNat_lt, hnat]
      exact hshort
    have hrun : (lengthBytes (.ofNat value.length)).run ([] ++ (value ++ rest)) = .ok ([], value ++ rest) := by
      rw [lengthBytes, if_pos hlt]
      rfl
    rw [Der.tlv, Der.encodeLength_short hshort]
    exact readDerElement_of hrun (by rw [contentLen, if_pos hlt, hnat]) h
  · obtain ⟨b, bs, -, hb, -, hvalue⟩ := Der.significant_beBytes (w := 8) (n := value.length) (by omega) (by omega)
    have hlen := length_significant_le hb (by rw [hvalue]; omega)
    have hencode := Der.encodeLength_long hb (by omega) (by omega : ¬ Lib.ofBe (b :: bs) < 0x80)
    rw [hvalue] at hencode
    obtain ⟨hnat, hlow⟩ := Der.or_long (n := (b :: bs).length) (by omega)
    generalize (0x80 : UInt8) ||| .ofNat (b :: bs).length = first at hencode hnat hlow
    have hlong : ¬ first < 0x80 := by
      rw [UInt8.lt_iff_toNat_lt, hnat]
      exact Nat.not_lt.mpr (Nat.le_add_right ..)
    have hrun : (lengthBytes first).run ((b :: bs) ++ (value ++ rest)) = .ok (b :: bs, value ++ rest) := by
      rw [lengthBytes, if_neg hlong]
      simp only [hlow]
      have hfew : ¬ ((b :: bs).length = 0 ∨ 4 < (b :: bs).length) :=
        not_or.mpr ⟨Nat.succ_ne_zero _, Nat.not_lt.mpr hlen⟩
      rw [if_neg hfew]
      exact run_readExact (b :: bs) (value ++ rest)
    have hcontent : contentLen first (b :: bs) = value.length := by
      rw [contentLen, if_neg hlong, Der.shiftIn_eq (by omega), hvalue]
    have hof := @readDerElement_of tag _ _ _ _ hrun hcontent h
    rw [Der.tlv, hencode]
    simpa using hof

end Stream

theorem readExact_ne_panic (n : ℕ) (stream : List UInt8) : (readExact n).run stream ≠ .error .panic := by
  change readExact n stream ≠ _
  unfold readExact
  split
  · exact Der.ok_ne_panic _
  · exact fun h => by cases h

theorem fail_ne_panic {α : Type} (e : NlaError) (stream : List UInt8) :
    (Der.fail e : Cursor NlaError α).run stream ≠ .error .panic := fun h => by cases h

theorem lengthBytes_ne_panic (first : UInt8) (stream : List UInt8) : (lengthBytes first).run stream ≠ .error .panic := by
  unfold lengthBytes
  simp only
  split
  · exact Der.ok_ne_panic _
  split
  · exact fail_ne_panic _ _
  · exact readExact_ne_panic _ _

theorem readDerElement_ne_panic (stream : List UInt8) : readDerElement.run stream ≠ .error .panic := by
  rcases stream with _ | ⟨tag, _ | ⟨first, rest⟩⟩
  · exact fun h => by cases h
  · exact fun h => by cases h
  · have hhead : (readExact 2).run ([tag, first] ++ rest) = .ok ([tag, first], rest) := run_readExact [tag, first] rest
    have hindex : (Der.index [tag, first] 1 : Cursor NlaError UInt8).run rest = .ok (first, rest) := rfl
    change readDerElement.run ([tag, first] ++ rest) ≠ _
    rw [readDerElement, Der.run_bind_ok _ hhead, Der.run_bind_ok _ (Der.run_index ..), Der.run_bind_ok _ hindex,
      StateT.run_bind]
    refine Der.bind_ne_panic (lengthBytes_ne_panic first rest) fun lb _ => ?_
    split
    · exact fail_ne_panic _ _
    · rw [StateT.run_bind]
      exact Der.bind_ne_panic (readExact_ne_panic _ _) fun body _ => Der.ok_ne_panic _

/-- A length is taken from its encodings and from nothing else; a request is read back from its bytes, and its bytes are
what is taken off a stream; whatever bytes are read, the readers return. -/
theorem credSsp_roundTrip :
    (∀ input v rest, Der.decodeLength.run input = .ok (v, rest) ↔ v < 2^64 ∧ input = Der.encodeLength v ++ rest) ∧
      (∀ r : TsRequest, r.toDer.length < 2^64 → TsRequest.fromDer r.toDer = .ok r) ∧
      (∀ (r : TsRequest) rest, r.body.length ≤ MAX_DER_ELEMENT →
        readDerElement.run (r.toDer ++ rest) = .ok (r.toDer, rest)) ∧
      ∀ input, TsRequest.fromDer input ≠ .error .panic ∧ readDerElement.run input ≠ .error .panic :=
  ⟨fun _ _ _ => Der.decodeLength_iff, fun _ h => TsRequest.fromDer_toDer h, fun _ _ h => readDerElement_tlv h,
    fun input => ⟨TsRequest.fromDer_ne_panic input, readDerElement_ne_panic input⟩⟩

/-- A request with a token and a nonce. -/
theorem credSsp_roundTrip_token :
    let r : TsRequest := { version := 6, nego_tokens := [[1, 2, 3]], client_nonce := some (Vector.replicate 32 7) }
    r.toDer.length < 2^64 ∧ TsRequest.fromDer r.toDer = .ok r ∧ r.body.length ≤ MAX_DER_ELEMENT ∧
      readDerElement.run (r.toDer ++ [9]) = .ok (r.toDer, [9]) :=
  have hlength : ({ version := 6, nego_tokens := [[1, 2, 3]], client_nonce := some (Vector.replicate 32 7) } :
    TsRequest).toDer.length < 2^64 := by decide
  have hbody : ({ version := 6, nego_tokens := [[1, 2, 3]], client_nonce := some (Vector.replicate 32 7) } :
    TsRequest).body.length ≤ MAX_DER_ELEMENT := by decide
  ⟨hlength, credSsp_roundTrip.2.1 _ hlength, hbody, credSsp_roundTrip.2.2.1 _ [9] hbody⟩

end Rdpio.Nla
