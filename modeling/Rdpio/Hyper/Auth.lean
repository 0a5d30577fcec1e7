import Rdpio.Hyper.Lockout
import Rdpio.Hyper.Update
import Rdpio.Hyper.Wire

/-!
# Sign-in messages

`AuthMsg`, `CookieJar`, `ClientAuth` and `host_respond` of `crates/rdp-hyper/src/auth.rs`.
-/

namespace Rdpio.Hyper.Auth

open Lib
open Update (Text)
open Wire (magic headerLen)

/-! ## Messages -/

structure Want where
  codecs : List Text
  width : UInt32
  height : UInt32
  refresh_hz : UInt32
  monitors : UInt32
  fit : Bool
  office : Bool
  fast_text : Bool
  cookie : Option Text
  scale : UInt32
  app : Text
  build : Text
  protocols : UInt8 × UInt8

structure Offer where
  width : UInt32
  height : UInt32
  fps : UInt32
  codec : Text
  protocol : UInt8
  app : Text
  build : Text
  update : Bool
  touch : Bool
  lan : List Text

def Offer.default : Offer := ⟨0, 0, 0, [], 0, [], [], false, false, []⟩

inductive AuthMsg where
  | hello (nonce spake : List UInt8) (want : Want)
  | challenge (nonce echo spake : List UInt8) (offer : Offer)
  | denied (retry_after_s : UInt16)
  | cookie (cookie : List UInt8)

structure AuthLibs where
  want_to_json : Want → List UInt8
  want_of_json : List UInt8 → Option Want
  offer_to_json : Offer → List UInt8
  offer_of_json : List UInt8 → Option Offer
  /-- HMAC-SHA256, under the jar's key. -/
  hmac : List UInt8 → List UInt8
  sha256 : List UInt8 → List UInt8
  /-- HKDF-SHA256 of a salt and a secret, to a session key. -/
  hkdf : List UInt8 → List UInt8 → List UInt8
  /-- The client's and the host's element of SPAKE2, of the password's secret and a seed. -/
  start_a : List UInt8 → List UInt8 → List UInt8
  start_b : List UInt8 → List UInt8 → List UInt8
  /-- The client's and the host's key, of the secret, the seed and the other's element. -/
  finish_a : List UInt8 → List UInt8 → List UInt8 → Option (List UInt8)
  finish_b : List UInt8 → List UInt8 → List UInt8 → Option (List UInt8)
  aead : List UInt8 → Wire.Aead

variable (libs : AuthLibs)

def authKind : UInt8 := 5

def frozenSince : UInt8 := 4

def get (b : List UInt8) (lo hi : ℕ) : Option (List UInt8) :=
  if lo ≤ hi ∧ hi ≤ b.length then some ((b.drop lo).take (hi - lo)) else none

/-- A whole datagram: header and body. -/
def AuthMsg.toDatagram (m : AuthMsg) : List UInt8 :=
  [magic, Wire.version, authKind, 0, 0, 0, 0, 0, 0, 0, 0, 0] ++
    match m with
    | .hello nonce spake want => 1 :: (nonce ++ leBytes 2 spake.length ++ spake ++ libs.want_to_json want)
    | .challenge nonce echo spake offer =>
      2 :: (echo ++ nonce ++ leBytes 2 spake.length ++ spake ++ libs.offer_to_json offer)
    | .denied retry_after_s => 3 :: leBytes 2 retry_after_s.toNat
    | .cookie c => 4 :: c

/-- A nonce, an element and what is left, behind the tag. -/
def exchange (b : List UInt8) : Option (List UInt8 × List UInt8 × List UInt8) := do
  let nonce ← get b 1 17
  let len := ofLe (← get b 17 19)
  let spake ← get b 19 (19 + len)
  let json ← get b (19 + len) b.length
  return (nonce, spake, json)

def AuthMsg.parse (d : List UInt8) : Option AuthMsg :=
  if d.length ≤ headerLen ∨ d.getD 0 0 ≠ magic ∨ d.getD 1 0 < frozenSince ∨ d.getD 2 0 ≠ authKind then none
  else
    let b := d.drop headerLen
    let tag := b.getD 0 0
    if tag = 3 then (get b 1 3).map fun s => .denied (UInt16.ofNat (ofLe s))
    else if tag = 4 then (get b 1 17).map .cookie
    else if tag = 1 then do
      let (nonce, spake, json) ← exchange b
      return .hello nonce spake (← libs.want_of_json json)
    else if tag = 2 then do
      -- A challenge carries the echoed nonce first.
      let echo ← get b 1 17
      let (nonce, spake, json) ← exchange (b.drop 16)
      return .challenge nonce echo spake (← libs.offer_of_json json)
    else none

def isAuth (d : List UInt8) : Bool := headerLen < d.length && d.getD 0 0 == magic && d.getD 2 0 == authKind

def foreignVersion (d : List UInt8) : Option UInt8 :=
  if isAuth d && d.getD 1 0 < frozenSince then some (d.getD 1 0) else none

def ctEq (a b : List UInt8) : Bool :=
  a.length == b.length && (a.zip b).foldl (fun acc p => acc ||| (p.1 ^^^ p.2)) 0 == 0

abbrev Nonce : Type := { n : List UInt8 // n.length = 16 }

def sessionKey (spake_key hello challenge : List UInt8) : List UInt8 :=
  libs.hkdf (libs.sha256 (leBytes 4 hello.length ++ hello ++ challenge)) spake_key

structure ClientAuth where
  secret : List UInt8
  seed : List UInt8
  nonce : Nonce
  hello : List UInt8

def ClientAuth.start (secret seed : List UInt8) (nonce : Nonce) (want : Want) : ClientAuth :=
  ⟨secret, seed, nonce, (AuthMsg.hello nonce.val (libs.start_a secret seed) want).toDatagram libs⟩

def ClientAuth.answers (c : ClientAuth) : AuthMsg → Bool
  | .challenge _ echo _ _ => ctEq echo c.nonce.val
  | _ => false

def ClientAuth.finish (c : ClientAuth) (challenge : List UInt8) : Option (List UInt8) := do
  let msg ← AuthMsg.parse libs challenge
  if !c.answers msg then none
  else
    match msg with
    | .challenge _ _ spake _ => return sessionKey libs (← libs.finish_a c.secret c.seed spake) c.hello challenge
    | _ => none

/-- The host's half: the challenge, and the session key. -/
def hostRespond (secret seed : List UInt8) (nonce : Nonce) (hello : List UInt8) (offer : Offer) :
    Option (List UInt8 × List UInt8) :=
  match AuthMsg.parse libs hello with
  | some (.hello echo hello_spake _) => do
    let k ← libs.finish_b secret seed hello_spake
    let challenge := (AuthMsg.challenge nonce.val echo (libs.start_b secret seed) offer).toDatagram libs
    return (challenge, sessionKey libs k hello challenge)
  | _ => none

structure SocketAddr where
  ip : IpAddr
  port : UInt16
deriving DecidableEq

def IpAddr.octets : IpAddr → List UInt8
  | .v4 bits => (leBytes 4 bits.toNat).reverse
  | .v6 bits => (leBytes 16 bits.toNat).reverse

def cookieBucketS : ℕ := 30

def mint (addr : SocketAddr) (bucket : ℕ) : List UInt8 :=
  (libs.hmac (addr.ip.octets ++ leBytes 2 addr.port.toNat ++ leBytes 8 bucket)).take 16

def makeCookie (addr : SocketAddr) (now_s : ℕ) : List UInt8 := mint libs addr (now_s / cookieBucketS)

def checkCookie (addr : SocketAddr) (cookie : List UInt8) (now_s : ℕ) : Bool :=
  let b := now_s / cookieBucketS
  [b, b - 1].any fun b => ctEq (mint libs addr b) cookie

def hexDigit (c : Char) : Option ℕ :=
  if '0' ≤ c ∧ c ≤ '9' then some (c.toNat - '0'.toNat)
  else if 'a' ≤ c ∧ c ≤ 'f' then some (c.toNat - 'a'.toNat + 10)
  else if 'A' ≤ c ∧ c ≤ 'F' then some (c.toNat - 'A'.toNat + 10)
  else none

def hexByte (hi lo : Char) : Option UInt8 := do
  let l ← hexDigit lo
  if hi = '+' then return UInt8.ofNat l
  else return UInt8.ofNat (16 * (← hexDigit hi) + l)

def hexBytes : Text → Option (List UInt8)
  | [] => some []
  | [_] => none
  | hi :: lo :: s => do return (← hexByte hi lo) :: (← hexBytes s)

def cookieFromHex (s : Text) : Option (List UInt8) := if s.length = 32 then hexBytes s else none

def cookieToHex (c : List UInt8) : Text := c.flatMap Update.hex

theorem foldl_or_eq_zero (ps : List (UInt8 × UInt8)) (acc : UInt8) :
    ps.foldl (fun acc p => acc ||| (p.1 ^^^ p.2)) acc = 0 ↔ acc = 0 ∧ ∀ p ∈ ps, p.1 = p.2 := by
  induction ps generalizing acc with
  | nil => simp
  | cons p ps ih =>
    rw [List.foldl_cons, ih, UInt8.or_eq_zero_iff, UInt8.xor_eq_zero_iff, List.forall_mem_cons, and_assoc]

theorem ctEq_iff {a b : List UInt8} : ctEq a b = true ↔ a = b := by
  unfold ctEq
  rw [Bool.and_eq_true, beq_iff_eq, beq_iff_eq, foldl_or_eq_zero, and_iff_right rfl]
  constructor
  · rintro ⟨hlength, heq⟩
    refine List.ext_getElem hlength fun i ha hb => ?_
    have hzip : i < (a.zip b).length := by
      rw [List.length_zip]
      omega
    have hmem := List.getElem_mem hzip
    rw [List.getElem_zip] at hmem
    exact heq _ hmem
  · rintro rfl
    refine ⟨rfl, fun p hp => ?_⟩
    obtain ⟨i, hi, rfl⟩ := List.getElem_of_mem hp
    rw [List.getElem_zip]

theorem checkCookie_iff {addr : SocketAddr} {cookie : List UInt8} {now_s : ℕ} :
    checkCookie libs addr cookie now_s = true ↔
      ∃ bucket, (bucket = now_s / cookieBucketS ∨ bucket + 1 = now_s / cookieBucketS) ∧
        cookie = mint libs addr bucket := by
  unfold checkCookie
  generalize now_s / cookieBucketS = b
  dsimp only
  rw [List.any_cons, List.any_cons, List.any_nil, Bool.or_false, Bool.or_eq_true, ctEq_iff, ctEq_iff]
  constructor
  · rintro (h | h)
    · exact ⟨_, .inl rfl, h.symm⟩
    · refine ⟨b - 1, ?_, h.symm⟩
      omega
  · rintro ⟨bucket, hbucket | hbucket, rfl⟩
    · exact .inl (by rw [hbucket])
    · exact .inr (by rw [← hbucket, Nat.add_sub_cancel])

end Rdpio.Hyper.Auth
