import Rdpio.Client.SignInGuard

/-!
# The client's sign-in

`connect_direct` of `crates/rdp-client/src/hyper_client.rs`: up to three hellos, one more for each of three
cookies, then pings sealed with the key of the first challenge that answers the last hello.
-/

namespace Rdpio.Client.SignIn

open Lib
open Hyper.Auth
open Hyper.Controls (Control)

structure Setup where
  secret : List UInt8
  protocols : UInt8 × UInt8
  updates : Bool

/-- What a new hello draws at random. -/
structure Draw where
  seed : List UInt8
  nonce : Nonce

inductive Phase where
  | waiting
  | pinging (key : List UInt8) (send recv : Hyper.Wire.Session) (id : UInt32)
  /-- A link to take the host's rdpio by. -/
  | updating (key : List UInt8)
  | connected (key : List UInt8)
  | failed

/-- The key of the challenge that was accepted. -/
def Phase.key : Phase → Option (List UInt8)
  | .pinging key _ _ _ => some key
  | .updating key => some key
  | .connected key => some key
  | _ => none

structure ConnectDirect where
  attempts : ℕ
  cookie_rounds : ℕ
  want : Want
  auth : ClientAuth
  phase : Phase

variable (libs : AuthLibs) (host : Host) (setup : Setup) (addr : SocketAddr)

namespace ConnectDirect

variable (c : ConnectDirect)

/-- The first attempt. -/
def start (want : Want) (draw : Draw) : ConnectDirect where
  attempts := 1
  cookie_rounds := 0
  want
  auth := .start libs setup.secret draw.seed draw.nonce want
  phase := .waiting

def attempt (draw : Draw) : ConnectDirect × List (List UInt8) :=
  if c.attempts < 3 then
    let auth := ClientAuth.start libs setup.secret draw.seed draw.nonce c.want
    ({ c with attempts := c.attempts + 1, auth, phase := .waiting }, [auth.hello])
  else ({ c with phase := .failed }, [])

def accept (key : List UInt8) (offer : Offer) : ConnectDirect :=
  if offer.protocol = 0 then
    if offer.update && setup.updates then { c with phase := .updating key } else { c with phase := .failed }
  else if setup.protocols.1 ≤ offer.protocol ∧ offer.protocol ≤ setup.protocols.2 then
    let session := Hyper.Wire.Session.withVersion .clientToHost offer.protocol
    { c with phase := .pinging key session session 0 }
  else { c with phase := .failed }

/-- A datagram arrives. -/
def receive (draw : Draw) (d : List UInt8) : ConnectDirect × List (List UInt8) :=
  match c.phase with
  | .waiting =>
    if (foreignVersion d).isSome then ({ c with phase := .failed }, [])
    else
      match AuthMsg.parse libs d with
      | some (.cookie cookie) =>
        if c.cookie_rounds < 3 then
          -- Say hello again with it; this does not count as an attempt.
          { c with
            cookie_rounds := c.cookie_rounds + 1
            want := { c.want with cookie := some (cookieToHex cookie) }
            attempts := c.attempts - 1 }.attempt libs setup draw
        else (c, [])
      | some (.denied _) => ({ c with phase := .failed }, [])
      | some (.challenge nonce echo spake offer) =>
        if c.auth.answers (.challenge nonce echo spake offer) then
          match c.auth.finish libs d with
          | none => ({ c with phase := .failed }, [])
          | some key => (c.accept setup key offer, [])
        else (c, [])
      | _ => (c, [])
  | .pinging key send recv id =>
    match recv.open_ (libs.aead key) d with
    | (recv, .ok (.control, body)) =>
      match Control.parse body with
      | .ok (some (.pong _ _ _)) => ({ c with phase := .connected key }, [])
      | _ => ({ c with phase := .pinging key send recv id }, [])
    | (recv, _) => ({ c with phase := .pinging key send recv id }, [])
  | _ => (c, [])

/-- The time for an answer is over. -/
def timeout (draw : Draw) : ConnectDirect × List (List UInt8) :=
  match c.phase with
  | .waiting => c.attempt libs setup draw
  | .pinging _ _ _ _ => ({ c with phase := .failed }, [])
  | _ => (c, [])

/-- The next ping of `ping_until_pong`. -/
def ping (client_us : UInt64) : ConnectDirect × List (List UInt8) :=
  match c.phase with
  | .pinging key send recv id =>
    let (send, d) := send.seal (libs.aead key) .control (Control.ping (id + 1) client_us).toBytes
    ({ c with phase := .pinging key send recv (id + 1) }, [d])
  | _ => (c, [])

end ConnectDirect

structure System where
  host : State
  client : ConnectDirect
  /-- The client's hellos so far. -/
  rounds : List ClientAuth
  toHost : List (List UInt8)
  toClient : List (List UInt8)
  signedIn : Bool
  /-- The client's attempts that were charged. -/
  blamed : List Pending

inductive Move where
  | tick (now : ℕ)
  /-- A datagram of the client reaches the host. -/
  | deliver (a : Arrival)
  /-- A datagram from another address does. -/
  | other (a : Arrival)
  | receive (d : List UInt8) (draw : Draw)
  | timeout (draw : Draw)
  | ping (client_us : UInt64)

def Arrival.via (a : Arrival) (addr : SocketAddr) : Arrival := { a with source := addr }

namespace System

variable (S : System)

def hostStep (e : Event) (own : Bool) : System :=
  let o := S.host.act libs host e
  { S with
    host := o.state
    toClient := S.toClient ++ if own then o.sent else []
    signedIn := S.signedIn || o.signed.any fun c => c.addr = addr
    blamed := S.blamed ++
      if o.signed.isSome then [] else (ended S.host o.state).filter fun p => p.tested && p.addr = addr }

def clientStep (r : ConnectDirect × List (List UInt8)) : System :=
  { S with client := r.1, rounds := r.1.auth :: S.rounds, toHost := S.toHost ++ r.2 }

def step : Move → System
  | .tick now => S.hostStep libs host addr (.tick now) false
  | .deliver a => if a.d ∈ S.toHost then S.hostStep libs host addr (.datagram (a.via addr)) true else S
  | .other a => if a.source ≠ addr then S.hostStep libs host addr (.datagram a) false else S
  | .receive d draw => if d ∈ S.toClient then S.clientStep (S.client.receive libs setup draw d) else S
  | .timeout draw => S.clientStep (S.client.timeout libs setup draw)
  | .ping client_us => S.clientStep (S.client.ping libs client_us)

/-- A new sign-in, and a client that said its first hello. -/
def start (epoch work : ℕ) (want : Want) (draw : Draw) : System where
  host := .new setup.secret epoch work
  client := .start libs setup want draw
  rounds := [(ConnectDirect.start libs setup want draw).auth]
  toHost := [(ConnectDirect.start libs setup want draw).auth.hello]
  toClient := []
  signedIn := false
  blamed := []

/-- The host never charges the client, and holds the key that the client accepted. -/
structure Agreed : Prop where
  unblamed : S.blamed = []
  same_key : ∀ key, S.client.phase.key = some key → S.signedIn = true ∨ ∃ p, S.host.find addr = some p ∧ p.key = key
  /-- What the client seals opens. -/
  opens : ∀ d ∈ S.toHost, isAuth d = false → ∀ p, S.host.find addr = some p → Opens libs p d

/-- The datagram answers the client's last hello. -/
def Answers (d : List UInt8) : Prop := ∃ msg, AuthMsg.parse libs d = some msg ∧ S.client.auth.answers msg = true

/-- A challenge for the client's last hello is on its way, or arrived. -/
def Answered : Prop := ∃ d ∈ S.toClient, S.Answers libs d

/-- A move that keeps the two together. -/
def Sound : Move → Prop
  -- The attempt does not expire while the client may use it.
  | .tick now => S.Answered libs → S.client.phase ≠ .failed → ∀ p, S.host.find addr = some p → now ≤ p.deadline
  -- Once the last hello is answered no hello with a good cookie arrives: no copy of it, and no earlier one.
  | .deliver a => a.d ∈ S.toHost → Presents libs S.host (a.via addr) → ¬ S.Answered libs
  | .receive _ draw => ∀ r ∈ S.rounds, r.nonce ≠ draw.nonce
  | .timeout draw => ∀ r ∈ S.rounds, r.nonce ≠ draw.nonce
  | _ => True

end System

structure Lawful : Prop where
  agree : ∀ secret sa sb, libs.finish_a secret sa (libs.start_b secret sb) =
    libs.finish_b secret sb (libs.start_a secret sa)
  length_a : ∀ secret seed, (libs.start_a secret seed).length < 65536
  length_b : ∀ secret seed, (libs.start_b secret seed).length < 65536
  opens : ∀ key nonce header body, (libs.aead key).openInPlace nonce header
    ((libs.aead key).sealAppendTag nonce header body) = some body
  length_sealed : ∀ key nonce header body,
    ((libs.aead key).sealAppendTag nonce header body).length = body.length + Hyper.Wire.tagLen
  protocol : ∀ o o', libs.offer_of_json (libs.offer_to_json o) = some o' → o'.protocol = o.protocol

/-! ## Messages on the wire -/

theorem get_append (x b y : List UInt8) {lo hi : ℕ} (hlo : x.length = lo) (hhi : lo + b.length = hi) :
    Hyper.Auth.get (x ++ b ++ y) lo hi = some b := by
  subst hlo hhi
  unfold Hyper.Auth.get
  rw [if_pos (by simp), List.append_assoc, List.drop_left, Nat.add_sub_cancel_left, List.take_left]

theorem exchange_spec (x : UInt8) {nonce spake : List UInt8} (json : List UInt8) (hnonce : nonce.length = 16)
    (hspake : spake.length < 65536) :
    exchange (x :: (nonce ++ leBytes 2 spake.length ++ spake ++ json)) = some (nonce, spake, json) := by
  have h1 : Hyper.Auth.get (x :: (nonce ++ leBytes 2 spake.length ++ spake ++ json)) 1 17 = some nonce := by
    have := get_append [x] nonce (leBytes 2 spake.length ++ spake ++ json) rfl (by rw [hnonce] : 1 + _ = 17)
    simpa using this
  have h2 : Hyper.Auth.get (x :: (nonce ++ leBytes 2 spake.length ++ spake ++ json)) 17 19 =
      some (leBytes 2 spake.length) := by
    have := get_append (x :: nonce) (leBytes 2 spake.length) (spake ++ json) (by rw [List.length_cons, hnonce])
      (by rw [length_leBytes] : 17 + _ = 19)
    simpa using this
  have h3 : Hyper.Auth.get (x :: (nonce ++ leBytes 2 spake.length ++ spake ++ json)) 19 (19 + spake.length) = some spake := by
    have := get_append (x :: (nonce ++ leBytes 2 spake.length)) spake json
      (by rw [List.length_cons, List.length_append, hnonce, length_leBytes]) rfl
    simpa using this
  have h4 : Hyper.Auth.get (x :: (nonce ++ leBytes 2 spake.length ++ spake ++ json)) (19 + spake.length)
      (x :: (nonce ++ leBytes 2 spake.length ++ spake ++ json)).length = some json := by
    have := get_append (x :: (nonce ++ leBytes 2 spake.length ++ spake)) json [] rfl rfl
    simp only [List.length_cons, List.length_append, hnonce, length_leBytes, List.append_nil] at this ⊢
    rw [show 19 + spake.length = 16 + 2 + spake.length + 1 by omega,
      show 16 + 2 + spake.length + json.length + 1 = 16 + 2 + spake.length + 1 + json.length by omega]
    exact this
  have hlen : ofLe (leBytes 2 spake.length) = spake.length := ofLe_leBytes_of_lt hspake
  unfold exchange
  simp only [h1, h2, hlen, h3, h4, Option.bind_eq_bind, Option.bind_some]
  rfl

variable {libs} {host} {setup} {addr}

theorem isAuth_toDatagram (m : AuthMsg) : isAuth (m.toDatagram libs) = true := by
  cases m <;> simp [isAuth, AuthMsg.toDatagram, Hyper.Wire.headerLen, authKind]

theorem parse_header (tag : UInt8) (b : List UInt8) :
    AuthMsg.parse libs ([Hyper.Wire.magic, Hyper.Wire.version, authKind, 0, 0, 0, 0, 0, 0, 0, 0, 0] ++ tag :: b) =
      if tag = 3 then (Hyper.Auth.get (tag :: b) 1 3).map fun s => .denied (UInt16.ofNat (ofLe s))
      else if tag = 4 then (Hyper.Auth.get (tag :: b) 1 17).map .cookie
      else if tag = 1 then do
        let (nonce, spake, json) ← exchange (tag :: b)
        return .hello nonce spake (← libs.want_of_json json)
      else if tag = 2 then do
        let echo ← Hyper.Auth.get (tag :: b) 1 17
        let (nonce, spake, json) ← exchange ((tag :: b).drop 16)
        return .challenge nonce echo spake (← libs.offer_of_json json)
      else none := by
  unfold AuthMsg.parse
  rw [if_neg]
  · rfl
  · rintro (h | h | h | h)
    · have hlen : Hyper.Wire.headerLen = 12 := rfl
      rw [List.length_append, List.length_cons, hlen] at h
      change 12 + (b.length + 1) ≤ 12 at h
      omega
    · exact h rfl
    · exact absurd (show (4 : UInt8) < 4 from h) (by decide)
    · exact h rfl

theorem parse_hello {nonce spake : List UInt8} {want : Want} (hnonce : nonce.length = 16)
    (hspake : spake.length < 65536) {m : AuthMsg}
    (h : AuthMsg.parse libs ((AuthMsg.hello nonce spake want).toDatagram libs) = some m) :
    ∃ want', m = .hello nonce spake want' := by
  have hparse := h
  unfold AuthMsg.toDatagram at hparse
  dsimp only at hparse
  rw [parse_header, if_neg (by decide), if_neg (by decide), if_pos rfl, exchange_spec _ _ hnonce hspake] at hparse
  obtain ⟨_, hsome, hparse⟩ := Option.bind_eq_some_iff.mp hparse
  cases hsome
  obtain ⟨want', -, hparse⟩ := Option.bind_eq_some_iff.mp hparse
  cases hparse
  exact ⟨want', rfl⟩

theorem parse_challenge (hlaw : Lawful libs) {nonce echo spake : List UInt8} {offer : Offer}
    (hnonce : nonce.length = 16) (hecho : echo.length = 16) (hspake : spake.length < 65536) {m : AuthMsg}
    (h : AuthMsg.parse libs ((AuthMsg.challenge nonce echo spake offer).toDatagram libs) = some m) :
    ∃ offer', m = .challenge nonce echo spake offer' ∧ offer'.protocol = offer.protocol := by
  have hparse := h
  unfold AuthMsg.toDatagram at hparse
  dsimp only at hparse
  rw [parse_header, if_neg (by decide), if_neg (by decide), if_neg (by decide), if_pos rfl] at hparse
  have hget : Hyper.Auth.get (2 :: (echo ++ nonce ++ leBytes 2 spake.length ++ spake ++ libs.offer_to_json offer)) 1 17 =
      some echo := by
    have := get_append [2] echo (nonce ++ leBytes 2 spake.length ++ spake ++ libs.offer_to_json offer) rfl
      (by rw [hecho] : 1 + _ = 17)
    simpa using this
  -- What is left of the tag and the echo is the last byte of the echo.
  have hdrop : ∃ x, (2 :: (echo ++ nonce ++ leBytes 2 spake.length ++ spake ++ libs.offer_to_json offer)).drop 16 =
      x :: (nonce ++ leBytes 2 spake.length ++ spake ++ libs.offer_to_json offer) := by
    obtain ⟨x, hx⟩ : ∃ x, echo.drop 15 = [x] := List.length_eq_one_iff.mp (by rw [List.length_drop, hecho])
    refine ⟨x, ?_⟩
    rw [List.drop_succ_cons, List.append_assoc, List.append_assoc, List.append_assoc,
      List.drop_append_of_le_length (by omega), hx]
    simp
  obtain ⟨x, hx⟩ := hdrop
  rw [hget, hx, Option.bind_eq_bind, Option.bind_some, exchange_spec _ _ hnonce hspake] at hparse
  obtain ⟨_, hsome, hparse⟩ := Option.bind_eq_some_iff.mp hparse
  cases hsome
  obtain ⟨offer', hoffer, hparse⟩ := Option.bind_eq_some_iff.mp hparse
  cases hparse
  exact ⟨offer', rfl, hlaw.protocol offer offer' hoffer⟩

def packet (libs : AuthLibs) (key : List UInt8) (version : UInt8) (seq : UInt64) (body : List UInt8) : List UInt8 :=
  Hyper.Wire.header version .control seq ++ (libs.aead key).sealAppendTag
    (Hyper.Wire.nonce .clientToHost seq) (Hyper.Wire.header version .control seq) body

theorem opens_packet (hlaw : Lawful libs) {p : Pending} (seq : UInt64) (body : List UInt8)
    (hprotocol : p.protocol ≠ 0) : Opens libs p (packet libs p.key p.protocol seq body) := by
  refine ⟨body, .inl ?_⟩
  have hheader : (Hyper.Wire.header p.protocol .control seq).length = 12 := by
    rw [Hyper.Wire.header, List.length_append, length_leBytes]
    rfl
  have hseq : Hyper.Wire.seqOf (packet libs p.key p.protocol seq body) = seq := by
    have hbytes : ((packet libs p.key p.protocol seq body).drop 4).take 8 = leBytes 8 seq.toNat := by
      change (leBytes 8 seq.toNat ++ _).take 8 = _
      exact take_leBytes_append 8 _ _
    rw [Hyper.Wire.seqOf, hbytes, ofLe_leBytes_of_lt seq.toNat_lt, UInt64.ofNat_toNat]
  have hcheck : (Hyper.Wire.Session.withVersion .hostToClient p.protocol).check
      (packet libs p.key p.protocol seq body) = .ok (.control, seq) := by
    have hlen : ¬ ((packet libs p.key p.protocol seq body).length < Hyper.Wire.overhead ∨
        (packet libs p.key p.protocol seq body).getD 0 0 ≠ Hyper.Wire.magic) := by
      rintro (h | h)
      · rw [packet, List.length_append, hheader, hlaw.length_sealed] at h
        have : Hyper.Wire.overhead = 12 + Hyper.Wire.tagLen := rfl
        omega
      · exact h rfl
    have hkind : Hyper.Wire.Kind.fromU8 ((packet libs p.key p.protocol seq body).getD 2 0) = some .control := rfl
    have hversion : (packet libs p.key p.protocol seq body).getD 1 0 = p.protocol := rfl
    unfold Hyper.Wire.Session.check
    rw [if_neg hlen, hkind, hversion, hseq]
    dsimp only
    rw [if_neg (fun h => h.1 rfl)]
    rfl
  have htake : (packet libs p.key p.protocol seq body).take Hyper.Wire.headerLen =
      Hyper.Wire.header p.protocol .control seq := List.take_left' hheader
  have hdrop : (packet libs p.key p.protocol seq body).drop Hyper.Wire.headerLen =
      (libs.aead p.key).sealAppendTag (Hyper.Wire.nonce .clientToHost seq)
        (Hyper.Wire.header p.protocol .control seq) body := List.drop_left' hheader
  unfold openWith
  dsimp only
  rw [if_neg hprotocol]
  unfold Hyper.Wire.Session.open_
  rw [hcheck]
  dsimp only
  have hopen : (libs.aead p.key).openInPlace
      (Hyper.Wire.nonce (Hyper.Wire.Session.withVersion .hostToClient p.protocol).send_dir.reverse seq)
      (Hyper.Wire.header p.protocol .control seq) ((libs.aead p.key).sealAppendTag
        (Hyper.Wire.nonce .clientToHost seq) (Hyper.Wire.header p.protocol .control seq) body) = some body :=
    hlaw.opens _ _ _ _
  rw [htake, hdrop, hopen]

/-! ## What the host does with an address's attempt -/

section Host

variable {s : State} {a : Arrival}

theorem secret_beginAttempt (want : Want) : (s.beginAttempt libs host a want).state.secret = s.secret := by
  unfold State.beginAttempt
  dsimp only
  split_ifs
  · rfl
  · rcases State.attempt libs host _ a want with _ | ⟨challenge, p⟩
    · rfl
    · rfl

theorem secret_hello (want : Want) : (s.hello libs host a want).state.secret = s.secret := by
  unfold State.hello
  rcases s.lockout.check a.source.ip (a.clock 0) with wait | ⟨⟩
  · rfl
  dsimp only
  generalize (if fromSecs 1 ≤ a.clock 2 - s.work.1 then (a.clock 0, 0) else s.work) = work
  split_ifs
  · rfl
  · exact secret_beginAttempt want
  · rfl

theorem secret_sealedPacket : (s.sealedPacket libs a).state.secret = s.secret := by
  unfold State.sealedPacket
  rcases s.find a.source with _ | p
  · rfl
  dsimp only
  rcases openWith libs p a.d with ⟨recv, err | ⟨kind, body⟩⟩
  · rfl
  cases kind with
  | control =>
    dsimp only
    rcases Control.parse body with err | _ | c
    · rfl
    · rfl
    · cases c <;> rfl
  | _ => rfl

theorem secret_act (s : State) (e : Event) : (s.act libs host e).state.secret = s.secret := by
  cases e with
  | tick now => rfl
  | datagram a =>
    change (s.handle libs host a).state.secret = s.secret
    unfold State.handle
    split_ifs
    · rfl
    · rcases AuthMsg.parse libs a.d with _ | m
      · rfl
      · cases m with
        | hello nonce spake want => exact secret_hello want
        | _ => rfl
    · exact secret_sealedPacket

theorem find_filter (l : List Pending) {keep : Pending → Bool} (h : ∀ p, p.addr = addr → keep p = true) :
    (l.filter keep).find? (·.addr = addr) = l.find? (·.addr = addr) := by
  induction l with
  | nil => rfl
  | cons p l ih =>
    by_cases haddr : p.addr = addr
    · rw [List.filter_cons_of_pos (h p haddr), List.find?_cons_of_pos (by simpa using haddr),
        List.find?_cons_of_pos (by simpa using haddr)]
    · rw [List.find?_cons_of_neg (by simpa using haddr)]
      rcases hkeep : keep p with _ | _
      · rw [List.filter_cons_of_neg (by simp [hkeep])]
        exact ih
      · rw [List.filter_cons_of_pos hkeep, List.find?_cons_of_neg (by simpa using haddr)]
        exact ih

theorem find_remove_of_ne {source : SocketAddr} (h : source ≠ addr) :
    (s.remove source).find? (·.addr = addr) = s.find addr := by
  refine find_filter _ fun p hp => decide_eq_true ?_
  rw [hp]
  exact h.symm

theorem find_remove_self (s : State) (addr : SocketAddr) : (s.remove addr).find? (·.addr = addr) = none := by
  refine List.find?_eq_none.mpr fun p hp haddr => ?_
  exact of_decide_eq_true (List.mem_filter.mp hp).2 (of_decide_eq_true haddr)

theorem find_note (s : State) (a : Arrival) (addr : SocketAddr) :
    (s.note a).find addr = (s.find addr).map (noted a) := by
  unfold State.find
  rw [pending_note, List.find?_map]
  congr 2
  funext p
  rw [Function.comp_apply, (noted_spec a p).2.1]

theorem Inv.find_of_mem (h : Inv s) {p : Pending} (hp : p ∈ s.pending) : s.find p.addr = some p := by
  have hmem : p ∈ s.pending.filter fun q => !decide (q.addr ≠ p.addr) := List.mem_filter.mpr ⟨hp, by simp⟩
  rw [h.filter_addr] at hmem
  exact Option.mem_toList.mp hmem

theorem find_of_change (hinv : Inv s) {e : Event} {o : Outcome} (h : Change libs host s e o)
    (he : ∀ a, e = .datagram a → a.source ≠ addr) :
    (o.state.find addr = s.find addr ∨
      ∃ now p, e = .tick now ∧ s.find addr = some p ∧ p.deadline < now ∧ o.state.find addr = none) ∧
    ∀ c, o.signed = some c → c.addr ≠ addr := by
  cases h with
  | expired now =>
    refine ⟨?_, fun c hc => absurd hc (Option.some_ne_none c).symm⟩
    rcases hfind : s.find addr with _ | p
    · exact .inl (List.find?_eq_none.mpr fun q hq => List.find?_eq_none.mp hfind q (List.mem_filter.mp hq).1)
    obtain ⟨hp, haddr⟩ := find_spec hfind
    by_cases hdead : p.deadline < now
    · refine .inr ⟨now, p, rfl, rfl, hdead, List.find?_eq_none.mpr fun q hq hqaddr => ?_⟩
      obtain ⟨hq, hkeep⟩ := List.mem_filter.mp hq
      have heq : q = p := hinv.eq_of_addr hq hp ((of_decide_eq_true hqaddr).trans haddr.symm)
      rw [heq, decide_eq_true hdead] at hkeep
      cases hkeep
    · left
      have hinv' : Inv (s.tick now).state := hinv.sublist List.filter_sublist rfl
      have hp' : p ∈ (s.tick now).state.pending := List.mem_filter.mpr ⟨hp, by rw [decide_eq_false hdead]; rfl⟩
      rw [← haddr]
      exact hinv'.find_of_mem hp'
  | kept e o hpending _ _ _ hsigned _ _ =>
    refine ⟨.inl ?_, fun c hc => ?_⟩
    · rw [State.find, hpending]
      rfl
    · rw [hsigned] at hc
      cases hc
  | replaced a o _ _ hpending _ _ _ hsigned _ =>
    refine ⟨.inl ?_, fun c hc => ?_⟩
    · rw [State.find, hpending, find_remove_of_ne (he a rfl)]
    · rw [hsigned] at hc
      cases hc
  | begun a p o _ hpending hbegins _ _ _ _ _ _ hsigned =>
    have hne := he a rfl
    refine ⟨.inl ?_, fun c hc => ?_⟩
    · rw [State.find, hpending, List.find?_cons_of_neg, find_remove_of_ne hne]
      rw [hbegins.addr]
      simpa using hne
    · rw [hsigned] at hc
      cases hc
  | noted a p _ _ _ _ =>
    refine ⟨.inl ?_, fun c hc => absurd hc (Option.some_ne_none c).symm⟩
    rw [find_note]
    rcases hfind : s.find addr with _ | q
    · rfl
    · have haddr : q.addr ≠ a.source := by
        rw [(find_spec hfind).2]
        exact (he a rfl).symm
      rw [Option.map_some, noted, if_neg fun h => haddr h.1]
  | signed a p c o _ _ _ hpending _ _ _ hsigned haddr _ =>
    refine ⟨.inl ?_, fun c' hc => ?_⟩
    · rw [State.find, hpending, find_remove_of_ne (he a rfl)]
    · rw [hsigned] at hc
      cases hc
      rw [haddr]
      exact he a rfl

end Host

/-! ## What every sound run keeps -/

namespace System

variable (libs setup addr) in
/-- A challenge for the last hello arrived or will, with this key and protocol. -/
def Accepted (S : System) (key : List UInt8) (version : UInt8) : Prop :=
  ∃ d ∈ S.toClient, S.Answers libs d ∧ S.client.auth.finish libs d = some key ∧
    ∃ nonce echo spake offer, AuthMsg.parse libs d = some (.challenge nonce echo spake offer) ∧ offer.protocol = version

variable (libs setup addr) in
/-- What ties the host's attempt to the client's last hello. -/
structure Kept (S : System) : Prop where
  attempts : Inv S.host
  secret : S.host.secret = setup.secret
  rounds : ∀ r ∈ S.rounds, ∃ seed nonce want, r = .start libs setup.secret seed nonce want
  current : S.client.auth ∈ S.rounds
  apart : ∀ r ∈ S.rounds, r.nonce = S.client.auth.nonce → r = S.client.auth
  hellos : S.client.phase = .waiting → ∀ d ∈ S.toHost, ∃ r ∈ S.rounds, d = r.hello
  sent : ∀ d ∈ S.toHost, (∃ r ∈ S.rounds, d = r.hello) ∨
    ∃ key version seq body, S.Accepted libs key version ∧ version ≠ 0 ∧ d = packet libs key version seq body
  echoes : ∀ d ∈ S.toClient, ∀ nonce echo spake offer,
    AuthMsg.parse libs d = some (.challenge nonce echo spake offer) → ∃ r ∈ S.rounds, echo = r.nonce.val
  /-- The host's attempt has the key of every challenge that answers the last hello. -/
  agreed : ∀ d ∈ S.toClient, S.Answers libs d → ∀ p, S.host.find addr = some p →
    S.client.auth.finish libs d = some p.key ∧ ∀ nonce echo spake offer,
      AuthMsg.parse libs d = some (.challenge nonce echo spake offer) → offer.protocol = p.protocol
  there : S.Answered libs → S.client.phase ≠ .failed → S.signedIn = false → ∃ p, S.host.find addr = some p
  untested : ∀ p, S.host.find addr = some p → p.tested = false
  unblamed : S.blamed = []
  accepted : ∀ key, S.client.phase.key = some key → ∃ version, S.Accepted libs key version
  pinging : ∀ key send recv id, S.client.phase = .pinging key send recv id →
    S.Accepted libs key send.version ∧ send.version ≠ 0 ∧ send.send_dir = .clientToHost

variable {S : System}

theorem Kept.eq_key (h : S.Kept libs setup addr) {key : List UInt8} {version : UInt8}
    (haccepted : S.Accepted libs key version) {p : Pending} (hp : S.host.find addr = some p) :
    p.key = key ∧ p.protocol = version := by
  obtain ⟨d, hd, hanswers, hfinish, nonce, echo, spake, offer, hparse, hversion⟩ := haccepted
  obtain ⟨hkey, hprotocol⟩ := h.agreed d hd hanswers p hp
  rw [hfinish] at hkey
  exact ⟨(Option.some.inj hkey).symm, (hprotocol _ _ _ _ hparse).symm.trans hversion⟩

theorem isAuth_hello (h : S.Kept libs setup addr) {r : ClientAuth} (hr : r ∈ S.rounds) : isAuth r.hello = true := by
  obtain ⟨seed, nonce, want, rfl⟩ := h.rounds r hr
  exact isAuth_toDatagram (.hello nonce.val (libs.start_a setup.secret seed) want)

theorem Kept.opens (hlaw : Lawful libs) (h : S.Kept libs setup addr) :
    ∀ d ∈ S.toHost, isAuth d = false → ∀ p, S.host.find addr = some p → Opens libs p d := by
  intro d hd hauth p hp
  rcases h.sent d hd with ⟨r, hr, rfl⟩ | ⟨key, version, seq, body, haccepted, hversion, rfl⟩
  · rw [isAuth_hello h hr] at hauth
    cases hauth
  · obtain ⟨rfl, rfl⟩ := h.eq_key haccepted hp
    exact opens_packet hlaw seq body hversion

theorem Kept.agrees (hlaw : Lawful libs) (h : S.Kept libs setup addr) : S.Agreed libs addr where
  unblamed := h.unblamed
  same_key key hkey := by
    obtain ⟨version, haccepted⟩ := h.accepted key hkey
    have hanswered : S.Answered libs := by
      obtain ⟨d, hd, hanswers, -⟩ := haccepted
      exact ⟨d, hd, hanswers⟩
    have halive : S.client.phase ≠ .failed := by
      intro hfailed
      rw [hfailed] at hkey
      cases hkey
    rcases hsigned : S.signedIn with _ | _
    · obtain ⟨p, hp⟩ := h.there hanswered halive hsigned
      exact .inr ⟨p, hp, (h.eq_key haccepted hp).1⟩
    · exact .inl rfl
  opens := h.opens hlaw

theorem Kept.blameless (h : S.Kept libs setup addr) (s' : State) :
    ((ended S.host s').filter fun p => p.tested && p.addr = addr) = [] := by
  refine List.filter_eq_nil_iff.mpr fun p hp hblame => ?_
  rw [Bool.and_eq_true, decide_eq_true_iff] at hblame
  have hfind := h.attempts.find_of_mem (List.mem_filter.mp hp).1
  rw [hblame.2] at hfind
  rw [h.untested p hfind] at hblame
  exact Bool.false_ne_true hblame.1

theorem Kept.hostStep_blamed (h : S.Kept libs setup addr) (e : Event) (own : Bool) :
    (S.hostStep libs host addr e own).blamed = [] := by
  unfold hostStep
  dsimp only
  rw [h.unblamed, h.blameless, List.nil_append, ite_self]

theorem answers_of_quiet {o : Outcome} (hquiet : Quiet libs o) {d : List UInt8} (hd : d ∈ o.sent) :
    ¬ S.Answers libs d := by
  rintro ⟨msg, hparse, hanswers⟩
  cases msg with
  | challenge nonce echo spake offer => exact hquiet d hd nonce echo spake offer hparse
  | _ => cases hanswers

theorem Kept.afterHost (h : S.Kept libs setup addr) (e : Event) (own : Bool)
    (hechoes : ∀ d ∈ (if own then (S.host.act libs host e).sent else []), ∀ nonce echo spake offer,
      AuthMsg.parse libs d = some (.challenge nonce echo spake offer) → ∃ r ∈ S.rounds, echo = r.nonce.val)
    (hagreed : ∀ d ∈ S.toClient ++ (if own then (S.host.act libs host e).sent else []), S.Answers libs d →
      ∀ p, (S.host.act libs host e).state.find addr = some p →
        S.client.auth.finish libs d = some p.key ∧ ∀ nonce echo spake offer,
          AuthMsg.parse libs d = some (.challenge nonce echo spake offer) → offer.protocol = p.protocol)
    (hthere : (∃ d ∈ S.toClient ++ (if own then (S.host.act libs host e).sent else []), S.Answers libs d) →
      S.client.phase ≠ .failed → (S.hostStep libs host addr e own).signedIn = false →
        ∃ p, (S.host.act libs host e).state.find addr = some p)
    (huntested : ∀ p, (S.host.act libs host e).state.find addr = some p → p.tested = false) :
    (S.hostStep libs host addr e own).Kept libs setup addr := by
  have haccepted : ∀ {key version}, S.Accepted libs key version →
      (S.hostStep libs host addr e own).Accepted libs key version := by
    rintro key version ⟨d, hd, hanswers, hfinish⟩
    exact ⟨d, List.mem_append_left _ hd, hanswers, hfinish⟩
  constructor
  case attempts => exact h.attempts.step e
  case secret => exact (secret_act S.host e).trans h.secret
  case rounds => exact h.rounds
  case current => exact h.current
  case apart => exact h.apart
  case hellos => exact h.hellos
  case sent =>
    intro d hd
    rcases h.sent d hd with hr | ⟨key, version, seq, body, hkey, hd⟩
    · exact .inl hr
    · exact .inr ⟨key, version, seq, body, haccepted hkey, hd⟩
  case echoes =>
    intro d hd
    rcases List.mem_append.mp hd with hd | hd
    · exact h.echoes d hd
    · exact hechoes d hd
  case agreed => exact hagreed
  case there => exact hthere
  case untested => exact huntested
  case unblamed => exact h.hostStep_blamed e own
  case accepted =>
    intro key hkey
    obtain ⟨version, hkey⟩ := h.accepted key hkey
    exact ⟨version, haccepted hkey⟩
  case pinging =>
    intro key send recv id hphase
    obtain ⟨hkey, hversion⟩ := h.pinging key send recv id hphase
    exact ⟨haccepted hkey, hversion⟩

theorem Kept.other (h : S.Kept libs setup addr) {e : Event} (he : ∀ a, e = .datagram a → a.source ≠ addr)
    (hsound : ∀ now, e = .tick now → S.Answered libs → S.client.phase ≠ .failed →
      ∀ p, S.host.find addr = some p → now ≤ p.deadline) :
    (S.hostStep libs host addr e false).Kept libs setup addr := by
  have hchange : Change libs host S.host e (S.host.act libs host e) := act_change S.host e
  obtain ⟨hfind, hother⟩ := find_of_change h.attempts hchange he
  have hold : ∀ p, (S.host.act libs host e).state.find addr = some p → S.host.find addr = some p := by
    intro p hp
    rcases hfind with hfind | ⟨_, _, -, -, -, hnone⟩
    · rwa [← hfind]
    · rw [hnone] at hp
      cases hp
  refine h.afterHost e false ?_ ?_ ?_ fun p hp => h.untested p (hold p hp)
  · exact fun d hd => absurd hd List.not_mem_nil
  · intro d hd hanswers p hp
    rw [if_neg Bool.false_ne_true, List.append_nil] at hd
    exact h.agreed d hd hanswers p (hold p hp)
  · intro hanswered halive hsigned
    rw [if_neg Bool.false_ne_true, List.append_nil] at hanswered
    have hunsigned : S.signedIn = false := (Bool.or_eq_false_iff.mp hsigned).1
    obtain ⟨p, hp⟩ := h.there hanswered halive hunsigned
    rcases hfind with hfind | ⟨now, q, he', hq, hdead, -⟩
    · exact ⟨p, hfind.trans hp⟩
    · exact absurd (hsound now he' hanswered halive q hq) (Nat.not_le.mpr hdead)

theorem Kept.finish_of_begins (hlaw : Lawful libs) (h : S.Kept libs setup addr) {a : Arrival} {p : Pending}
    (hd : a.d ∈ S.toHost) {offer : Offer} {challenge : List UInt8}
    (hrespond : hostRespond libs S.host.secret a.seed a.nonce a.d offer = some (challenge, p.key)) :
    (∀ nonce echo spake offer', AuthMsg.parse libs challenge = some (.challenge nonce echo spake offer') →
      offer'.protocol = offer.protocol ∧ ∃ r ∈ S.rounds, echo = r.nonce.val) ∧
    (S.Answers libs challenge → S.client.auth.finish libs challenge = some p.key) := by
  unfold hostRespond at hrespond
  rcases hparse : AuthMsg.parse libs a.d with _ | m
  · rw [hparse] at hrespond
    cases hrespond
  cases m with
  | hello echo hello_spake want =>
    rw [hparse] at hrespond
    dsimp only at hrespond
    obtain ⟨k, hk, hrespond⟩ := Option.bind_eq_some_iff.mp hrespond
    obtain ⟨hchallenge, hkey⟩ := Prod.mk.inj (Option.some.inj hrespond)
    -- The hello is one of the client's.
    have hhello : ∃ r ∈ S.rounds, a.d = r.hello := by
      rcases h.sent a.d hd with hr | ⟨key, version, seq, body, -, -, hpacket⟩
      · exact hr
      · have hnone : AuthMsg.parse libs a.d = none := by
          rw [hpacket]
          exact parse_of_kind (by decide : (4 : UInt8) ≠ authKind)
        rw [hnone] at hparse
        cases hparse
    obtain ⟨r, hr, hhello⟩ := hhello
    obtain ⟨seed, nonce, want', hstart⟩ := h.rounds r hr
    have hback : ∃ want'', AuthMsg.hello echo hello_spake want =
        .hello nonce.val (libs.start_a setup.secret seed) want'' := by
      have hparse' := hparse
      rw [hhello, hstart] at hparse'
      exact parse_hello nonce.property (hlaw.length_a _ _) hparse'
    obtain ⟨want'', hback⟩ := hback
    cases hback
    have hread := fun (m : AuthMsg)
        (hm : AuthMsg.parse libs ((AuthMsg.challenge a.nonce.val nonce.val
          (libs.start_b S.host.secret a.seed) offer).toDatagram libs) = some m) =>
      parse_challenge hlaw a.nonce.property nonce.property (hlaw.length_b S.host.secret a.seed) hm
    rw [hchallenge] at hread
    have hrnonce : r.nonce = nonce := by rw [hstart]; rfl
    refine ⟨fun n e sp offer' hm => ?_, ?_⟩
    · obtain ⟨offer'', heq, hprotocol⟩ := hread _ hm
      cases heq
      exact ⟨hprotocol, r, hr, by rw [hrnonce]⟩
    · rintro ⟨msg, hm, hanswers⟩
      obtain ⟨offer'', rfl, -⟩ := hread _ hm
      have hnonce : nonce = S.client.auth.nonce := Subtype.ext (ctEq_iff.mp hanswers)
      have hcurrent : r = S.client.auth := h.apart r hr (hrnonce.trans hnonce)
      unfold ClientAuth.finish
      rw [hm, Option.bind_eq_bind, Option.bind_some, hanswers]
      dsimp only
      have hagree := hlaw.agree setup.secret seed a.seed
      rw [h.secret] at hk ⊢
      rw [hk] at hagree
      rw [hchallenge, hhello, hstart] at hkey
      rw [← hcurrent, hstart, if_neg (by decide)]
      change (libs.finish_a setup.secret seed (libs.start_b setup.secret a.seed)).bind
        (fun k => some (sessionKey libs k (ClientAuth.start libs setup.secret seed nonce want').hello challenge)) = _
      rw [hagree, Option.bind_some, hkey]
  | _ =>
    rw [hparse] at hrespond
    cases hrespond

theorem Kept.deliver (hlaw : Lawful libs) (h : S.Kept libs setup addr) {a : Arrival} (hsource : a.source = addr)
    (hd : a.d ∈ S.toHost) (hsound : Presents libs S.host a → ¬ S.Answered libs) :
    (S.hostStep libs host addr (.datagram a) true).Kept libs setup addr := by
  have hchange : Change libs host S.host (.datagram a) (S.host.act libs host (.datagram a)) := act_change S.host _
  -- A quiet step that leaves the attempt, or drops it before the last hello is answered or after a sign-in.
  have hquiet : Quiet libs (S.host.act libs host (.datagram a)) →
      ((S.host.act libs host (.datagram a)).state.find addr = S.host.find addr ∨
        (S.host.act libs host (.datagram a)).state.find addr = none ∧
          (¬ S.Answered libs ∨ (S.hostStep libs host addr (.datagram a) true).signedIn = true)) →
      (S.hostStep libs host addr (.datagram a) true).Kept libs setup addr := by
    intro hquiet hfind
    have hold : ∀ p, (S.host.act libs host (.datagram a)).state.find addr = some p → S.host.find addr = some p := by
      intro p hp
      rcases hfind with hfind | ⟨hnone, -⟩
      · rwa [← hfind]
      · rw [hnone] at hp
        cases hp
    have hanswers : ∀ d ∈ S.toClient ++ (if true = true then (S.host.act libs host (.datagram a)).sent else []),
        S.Answers libs d → d ∈ S.toClient := by
      intro d hd hanswers
      rcases List.mem_append.mp hd with hd | hd
      · exact hd
      · rw [if_pos rfl] at hd
        exact absurd hanswers (answers_of_quiet hquiet hd)
    refine h.afterHost _ true ?_ ?_ ?_ fun p hp => h.untested p (hold p hp)
    · intro d hd nonce echo spake offer hparse
      rw [if_pos rfl] at hd
      exact absurd hparse (hquiet d hd nonce echo spake offer)
    · exact fun d hd hans p hp => h.agreed d (hanswers d hd hans) hans p (hold p hp)
    · rintro ⟨d, hd, hans⟩ halive hsigned
      have hanswered : S.Answered libs := ⟨d, hanswers d hd hans, hans⟩
      rcases hfind with hfind | ⟨-, hnot | hsigned'⟩
      · rw [hfind]
        exact h.there hanswered halive (Bool.or_eq_false_iff.mp hsigned).1
      · exact absurd hanswered hnot
      · rw [hsigned'] at hsigned
        cases hsigned
  generalize ho : S.host.act libs host (.datagram a) = o at hchange
  cases hchange with
  | kept e o hpending _ _ _ _ _ hsent =>
    rw [← ho] at hsent hpending
    refine hquiet hsent (.inl ?_)
    rw [State.find, hpending]
    rfl
  | replaced a o _ hpresents hpending _ _ _ _ hsent =>
    rw [← ho] at hsent hpending
    refine hquiet hsent (.inr ⟨?_, .inl (hsound hpresents)⟩)
    rw [State.find, hpending, hsource]
    exact find_remove_self _ _
  | begun a p o _ hpending hbegins htested _ _ _ _ _ _ =>
    have hnot := hsound hbegins.presents
    obtain ⟨offer, challenge, hrespond, hsent, hprotocol⟩ := hbegins.key
    obtain ⟨hread, hfinish⟩ := h.finish_of_begins hlaw hd hrespond
    have hfind : (S.host.act libs host (.datagram a)).state.find addr = some p := by
      rw [State.find, ho, hpending]
      exact List.find?_cons_of_pos (decide_eq_true (hbegins.addr.trans hsource))
    have hsent' : (S.host.act libs host (.datagram a)).sent = [challenge] := hsent
    refine h.afterHost _ true ?_ ?_ ?_ ?_
    · intro d hd nonce echo spake offer' hparse
      rw [if_pos rfl, hsent', List.mem_singleton] at hd
      rw [hd] at hparse
      exact (hread _ _ _ _ hparse).2
    · intro d hd hanswers q hq
      rw [hfind] at hq
      cases hq
      rcases List.mem_append.mp hd with hd | hd
      · exact absurd ⟨d, hd, hanswers⟩ hnot
      · rw [if_pos rfl, hsent', List.mem_singleton] at hd
        subst hd
        exact ⟨hfinish hanswers, fun _ _ _ _ hparse => (hread _ _ _ _ hparse).1.trans hprotocol.symm⟩
    · exact fun _ _ _ => ⟨p, hfind⟩
    · intro q hq
      rw [hfind] at hq
      cases hq
      exact htested
  | noted a p _ hauth hfind hopens =>
    -- What the client seals opens.
    rw [hsource] at hfind
    exact absurd (h.opens hlaw a.d hd hauth p hfind) hopens
  | signed a p c o _ _ _ hpending _ _ _ hsigned haddr hsent =>
    rw [← ho] at hsent hpending hsigned
    refine hquiet hsent (.inr ⟨?_, .inr ?_⟩)
    · rw [State.find, hpending, hsource]
      exact find_remove_self _ _
    · unfold hostStep
      dsimp only
      rw [hsigned, Option.any_some, haddr, hsource, decide_eq_true rfl, Bool.or_true]

theorem Kept.client (h : S.Kept libs setup addr) {c : ConnectDirect} {out : List (List UInt8)}
    (hauth : c.auth = S.client.auth) (halive : c.phase ≠ .failed → S.client.phase ≠ .failed)
    (hwaiting : c.phase = .waiting → S.client.phase = .waiting ∧ out = [])
    (hout : ∀ d ∈ out, ∃ key version seq body, S.Accepted libs key version ∧ version ≠ 0 ∧
      d = packet libs key version seq body)
    (haccepted : ∀ key, c.phase.key = some key → ∃ version, S.Accepted libs key version)
    (hpinging : ∀ key send recv id, c.phase = .pinging key send recv id →
      S.Accepted libs key send.version ∧ send.version ≠ 0 ∧ send.send_dir = .clientToHost) :
    (S.clientStep (c, out)).Kept libs setup addr := by
  have hanswers : ∀ d, (S.clientStep (c, out)).Answers libs d ↔ S.Answers libs d := by
    intro d
    unfold Answers clientStep
    dsimp only
    rw [hauth]
  have hsame : ∀ {key version}, S.Accepted libs key version → (S.clientStep (c, out)).Accepted libs key version := by
    rintro key version ⟨d, hd, hans, hfinish⟩
    refine ⟨d, hd, (hanswers d).mpr hans, ?_⟩
    unfold clientStep
    dsimp only
    rw [hauth]
    exact hfinish
  have hmem : ∀ r ∈ (S.clientStep (c, out)).rounds, r ∈ S.rounds := by
    intro r hr
    rcases List.mem_cons.mp hr with rfl | hr
    · exact hauth ▸ h.current
    · exact hr
  constructor
  case attempts => exact h.attempts
  case secret => exact h.secret
  case rounds => exact fun r hr => h.rounds r (hmem r hr)
  case current => exact List.mem_cons_self
  case apart =>
    intro r hr hnonce
    change r.nonce = c.auth.nonce at hnonce
    change r = c.auth
    rw [hauth] at hnonce ⊢
    exact h.apart r (hmem r hr) hnonce
  case hellos =>
    intro hphase d hd
    obtain ⟨hphase', hnil⟩ := hwaiting hphase
    have hd' : d ∈ S.toHost ++ out := hd
    rw [hnil, List.append_nil] at hd'
    obtain ⟨r, hr, hhello⟩ := h.hellos hphase' d hd'
    exact ⟨r, List.mem_cons_of_mem _ hr, hhello⟩
  case sent =>
    intro d hd
    rcases List.mem_append.mp hd with hd | hd
    · rcases h.sent d hd with ⟨r, hr, hhello⟩ | ⟨key, version, seq, body, hkey, hd⟩
      · exact .inl ⟨r, List.mem_cons_of_mem _ hr, hhello⟩
      · exact .inr ⟨key, version, seq, body, hsame hkey, hd⟩
    · obtain ⟨key, version, seq, body, hkey, hd⟩ := hout d hd
      exact .inr ⟨key, version, seq, body, hsame hkey, hd⟩
  case echoes =>
    intro d hd nonce echo spake offer hparse
    obtain ⟨r, hr, hecho⟩ := h.echoes d hd nonce echo spake offer hparse
    exact ⟨r, List.mem_cons_of_mem _ hr, hecho⟩
  case agreed =>
    intro d hd hans p hp
    change c.auth.finish libs d = _ ∧ _
    rw [hauth]
    exact h.agreed d hd ((hanswers d).mp hans) p hp
  case there =>
    rintro ⟨d, hd, hans⟩ hphase hsigned
    exact h.there ⟨d, hd, (hanswers d).mp hans⟩ (halive hphase) hsigned
  case untested => exact h.untested
  case unblamed => exact h.unblamed
  case accepted =>
    intro key hkey
    obtain ⟨version, hkey⟩ := haccepted key hkey
    exact ⟨version, hsame hkey⟩
  case pinging =>
    intro key send recv id hphase
    obtain ⟨hkey, hversion⟩ := hpinging key send recv id hphase
    exact ⟨hsame hkey, hversion⟩

theorem Kept.fail (h : S.Kept libs setup addr) :
    (S.clientStep ({ S.client with phase := .failed }, [])).Kept libs setup addr :=
  h.client rfl (fun hphase => absurd rfl hphase) (fun hphase => by cases hphase)
    (fun _ hd => absurd hd List.not_mem_nil) (fun _ hkey => by cases hkey) fun _ _ _ _ hphase => by cases hphase

theorem Kept.same (h : S.Kept libs setup addr) : (S.clientStep (S.client, [])).Kept libs setup addr :=
  h.client rfl id (fun hphase => ⟨hphase, rfl⟩) (fun _ hd => absurd hd List.not_mem_nil) h.accepted h.pinging

theorem Kept.not_answers (h : S.Kept libs setup addr) {auth : ClientAuth} (hfresh : ∀ r ∈ S.rounds, r.nonce ≠ auth.nonce)
    {d : List UInt8} (hd : d ∈ S.toClient) {msg : AuthMsg} (hparse : AuthMsg.parse libs d = some msg) :
    auth.answers msg = false := by
  cases msg with
  | challenge nonce echo spake offer =>
    obtain ⟨r, hr, rfl⟩ := h.echoes d hd nonce echo spake offer hparse
    refine Bool.eq_false_of_not_eq_true fun hanswers => hfresh r hr (Subtype.ext ?_)
    exact ctEq_iff.mp hanswers
  | _ => rfl

theorem Kept.attempt (h : S.Kept libs setup addr) (hwaiting : S.client.phase = .waiting) {c : ConnectDirect}
    (hauth : c.auth = S.client.auth) {draw : Draw} (hfresh : ∀ r ∈ S.rounds, r.nonce ≠ draw.nonce) :
    (S.clientStep (c.attempt libs setup draw)).Kept libs setup addr := by
  unfold ConnectDirect.attempt
  split_ifs
  · have hnot : ∀ d ∈ S.toClient, ∀ msg, AuthMsg.parse libs d = some msg →
        (ClientAuth.start libs setup.secret draw.seed draw.nonce c.want).answers msg = false :=
      fun d hd msg hparse => h.not_answers hfresh hd hparse
    have hunanswered : ∀ {d msg} {P : Prop}, d ∈ S.toClient → AuthMsg.parse libs d = some msg →
        (ClientAuth.start libs setup.secret draw.seed draw.nonce c.want).answers msg = true → P := by
      intro d msg P hd hparse hans
      rw [hnot d hd msg hparse] at hans
      cases hans
    constructor
    case attempts => exact h.attempts
    case secret => exact h.secret
    case rounds =>
      intro r hr
      rcases List.mem_cons.mp hr with rfl | hr
      · exact ⟨draw.seed, draw.nonce, c.want, rfl⟩
      · exact h.rounds r hr
    case current => exact List.mem_cons_self
    case apart =>
      intro r hr hnonce
      rcases List.mem_cons.mp hr with rfl | hr
      · rfl
      · exact absurd hnonce (hfresh r hr)
    case hellos =>
      intro _ d hd
      rcases List.mem_append.mp hd with hd | hd
      · obtain ⟨r, hr, hhello⟩ := h.hellos hwaiting d hd
        exact ⟨r, List.mem_cons_of_mem _ hr, hhello⟩
      · exact ⟨_, List.mem_cons_self, List.mem_singleton.mp hd⟩
    case sent =>
      intro d hd
      left
      rcases List.mem_append.mp hd with hd | hd
      · obtain ⟨r, hr, hhello⟩ := h.hellos hwaiting d hd
        exact ⟨r, List.mem_cons_of_mem _ hr, hhello⟩
      · exact ⟨_, List.mem_cons_self, List.mem_singleton.mp hd⟩
    case echoes =>
      intro d hd nonce echo spake offer hparse
      obtain ⟨r, hr, hecho⟩ := h.echoes d hd nonce echo spake offer hparse
      exact ⟨r, List.mem_cons_of_mem _ hr, hecho⟩
    case agreed =>
      rintro d hd ⟨msg, hparse, hans⟩
      exact hunanswered hd hparse hans
    case there =>
      rintro ⟨d, hd, msg, hparse, hans⟩
      exact hunanswered hd hparse hans
    case untested => exact h.untested
    case unblamed => exact h.unblamed
    case accepted =>
      intro key hkey
      cases hkey
    case pinging =>
      intro key send recv id hphase
      cases hphase
  · exact h.client hauth (fun hphase => absurd rfl hphase) (fun hphase => by cases hphase)
      (fun _ hd => absurd hd List.not_mem_nil) (fun _ hkey => by cases hkey) fun _ _ _ _ hphase => by cases hphase

theorem Kept.accept (h : S.Kept libs setup addr) (hwaiting : S.client.phase = .waiting) {d : List UInt8}
    (hd : d ∈ S.toClient) {nonce echo spake : List UInt8} {offer : Offer}
    (hparse : AuthMsg.parse libs d = some (.challenge nonce echo spake offer))
    (hanswers : S.client.auth.answers (.challenge nonce echo spake offer) = true) {key : List UInt8}
    (hfinish : S.client.auth.finish libs d = some key) :
    (S.clientStep (S.client.accept setup key offer, [])).Kept libs setup addr := by
  have haccepted : S.Accepted libs key offer.protocol :=
    ⟨d, hd, ⟨_, hparse, hanswers⟩, hfinish, nonce, echo, spake, offer, hparse, rfl⟩
  have halive : S.client.phase ≠ .failed := by
    rw [hwaiting]
    exact Phase.noConfusion
  unfold ConnectDirect.accept
  split_ifs with hzero hupdate hrange
  · exact h.client rfl (fun _ => halive) (fun hphase => by cases hphase)
      (fun _ hd => absurd hd List.not_mem_nil)
      (fun key' hkey => ⟨_, Option.some.inj hkey ▸ haccepted⟩) fun _ _ _ _ hphase => by cases hphase
  · exact h.fail
  · refine h.client rfl (fun _ => halive) (fun hphase => by cases hphase)
      (fun _ hd => absurd hd List.not_mem_nil)
      (fun key' hkey => ⟨_, Option.some.inj hkey ▸ haccepted⟩) fun key' send recv id hphase => ?_
    cases hphase
    exact ⟨haccepted, hzero, rfl⟩
  · exact h.fail

theorem Kept.receive (h : S.Kept libs setup addr) {d : List UInt8} (hd : d ∈ S.toClient) {draw : Draw}
    (hfresh : ∀ r ∈ S.rounds, r.nonce ≠ draw.nonce) :
    (S.clientStep (S.client.receive libs setup draw d)).Kept libs setup addr := by
  unfold ConnectDirect.receive
  rcases hphase : S.client.phase with _ | ⟨key, send, recv, id⟩ | key | key | _
  · dsimp only
    by_cases hforeign : (foreignVersion d).isSome = true
    · rw [if_pos hforeign]
      exact h.fail
    rw [if_neg hforeign]
    rcases hparse : AuthMsg.parse libs d with _ | m
    · exact h.same
    cases m with
    | hello nonce spake want => exact h.same
    | challenge nonce echo spake offer =>
      dsimp only
      by_cases hanswers : S.client.auth.answers (.challenge nonce echo spake offer) = true
      · rw [if_pos hanswers]
        rcases hfinish : S.client.auth.finish libs d with _ | key
        · exact h.fail
        · exact h.accept hphase hd hparse hanswers hfinish
      · rw [if_neg hanswers]
        exact h.same
    | denied wait => exact h.fail
    | cookie cookie =>
      dsimp only
      split_ifs
      · refine h.attempt hphase ?_ hfresh
        rfl
      · exact h.same
  · obtain ⟨haccepted, hversion, hdir⟩ := h.pinging key send recv id hphase
    have halive : S.client.phase ≠ .failed := by
      rw [hphase]
      exact Phase.noConfusion
    -- The packets it got change what it would accept next, nothing else.
    have hping : ∀ recv', (S.clientStep ({ S.client with phase := .pinging key send recv' id }, [])).Kept libs
        setup addr := by
      intro recv'
      refine h.client rfl (fun _ => halive) (fun hphase => by cases hphase)
        (fun _ hd => absurd hd List.not_mem_nil)
        (fun key' hkey => ⟨_, Option.some.inj hkey ▸ haccepted⟩) fun key' send' recv'' id' hphase => ?_
      cases hphase
      exact ⟨haccepted, hversion, hdir⟩
    have hconnected : (S.clientStep ({ S.client with phase := .connected key }, [])).Kept libs setup addr :=
      h.client rfl (fun _ => halive) (fun hphase => by cases hphase)
        (fun _ hd => absurd hd List.not_mem_nil)
        (fun key' hkey => ⟨_, Option.some.inj hkey ▸ haccepted⟩) fun _ _ _ _ hphase => by cases hphase
    dsimp only
    rcases recv.open_ (libs.aead key) d with ⟨recv', err | ⟨kind, body⟩⟩
    · exact hping recv'
    cases kind with
    | control =>
      dsimp only
      rcases Control.parse body with err | _ | c
      · exact hping recv'
      · exact hping recv'
      · cases c with
        | pong id client_us host_us => exact hconnected
        | _ => exact hping recv'
    | _ => exact hping recv'
  · exact h.same
  · exact h.same
  · exact h.same

theorem Kept.timeout (h : S.Kept libs setup addr) {draw : Draw} (hfresh : ∀ r ∈ S.rounds, r.nonce ≠ draw.nonce) :
    (S.clientStep (S.client.timeout libs setup draw)).Kept libs setup addr := by
  unfold ConnectDirect.timeout
  rcases hphase : S.client.phase with _ | ⟨key, send, recv, id⟩ | key | key | _
  · exact h.attempt hphase rfl hfresh
  · exact h.fail
  · exact h.same
  · exact h.same
  · exact h.same

theorem Kept.ping (h : S.Kept libs setup addr) (client_us : UInt64) :
    (S.clientStep (S.client.ping libs client_us)).Kept libs setup addr := by
  unfold ConnectDirect.ping
  rcases hphase : S.client.phase with _ | ⟨key, send, recv, id⟩ | key | key | _
  · exact h.same
  · obtain ⟨haccepted, hversion, hdir⟩ := h.pinging key send recv id hphase
    refine h.client rfl (fun _ => by rw [hphase]; exact Phase.noConfusion) (fun hphase => by cases hphase)
      (fun d hd => ?_) (fun key' hkey => ⟨_, Option.some.inj hkey ▸ haccepted⟩)
      fun key' send' recv' id' hphase => ?_
    · refine ⟨key, send.version, send.send_seq + 1, (Control.ping (id + 1) client_us).toBytes, haccepted, hversion, ?_⟩
      rw [List.mem_singleton.mp hd, packet, ← hdir]
    · cases hphase
      exact ⟨haccepted, hversion, hdir⟩
  · exact h.same
  · exact h.same
  · exact h.same

theorem Kept.step (hlaw : Lawful libs) (h : S.Kept libs setup addr) (m : Move)
    (hsound : S.Sound libs addr m) : (S.step libs host setup addr m).Kept libs setup addr := by
  cases m with
  | tick now =>
    refine h.other (fun a he => by cases he) fun now' he => ?_
    cases he
    exact hsound
  | deliver a =>
    unfold System.step
    dsimp only
    split_ifs with hd
    · exact h.deliver hlaw rfl hd (hsound hd)
    · exact h
  | other a =>
    unfold System.step
    dsimp only
    split_ifs with hne
    · refine h.other (fun a' he => ?_) fun now he => by cases he
      cases he
      exact hne
    · exact h
  | receive d draw =>
    unfold System.step
    dsimp only
    split_ifs with hd
    · exact h.receive hd hsound
    · exact h
  | timeout draw => exact h.timeout hsound
  | ping client_us => exact h.ping client_us

theorem kept_start (epoch work : ℕ) (want : Want) (draw : Draw) :
    (start libs setup epoch work want draw).Kept libs setup addr where
  attempts := inv_new _ _ _
  secret := rfl
  rounds r hr := by
    rw [List.mem_singleton.mp hr]
    exact ⟨draw.seed, draw.nonce, want, rfl⟩
  current := List.mem_cons_self
  apart r hr _ := List.mem_singleton.mp hr
  hellos _ d hd := ⟨_, List.mem_cons_self, List.mem_singleton.mp hd⟩
  sent d hd := .inl ⟨_, List.mem_cons_self, List.mem_singleton.mp hd⟩
  echoes d hd := absurd hd List.not_mem_nil
  agreed d hd := absurd hd List.not_mem_nil
  there := by
    rintro ⟨d, hd, -⟩
    exact absurd hd List.not_mem_nil
  untested p hp := by cases hp
  unblamed := rfl
  accepted key hkey := by cases hkey
  pinging key send recv id hphase := by cases hphase

end System

/-- In every run of sound moves the host never charges the client, and holds the key of the challenge that the
client accepted, until the client signs in. -/
theorem agreed_of_sound (libs : AuthLibs) (hlaw : Lawful libs) (host : Host) (setup : Setup) (addr : SocketAddr)
    (epoch work : ℕ) (want : Want) (draw : Draw) (moves : List Move)
    (hsound : Along (System.step libs host setup addr) (System.Sound libs addr)
      (.start libs setup epoch work want draw) moves) :
    (run (System.step libs host setup addr) (.start libs setup epoch work want draw) moves).Agreed libs addr :=
  (invariant_along (System.Kept libs setup addr) (System.kept_start epoch work want draw)
    (fun _ m h hm => h.step hlaw m hm) hsound).agrees hlaw

/-! ## Two runs -/

def plainTag (key : List UInt8) : List UInt8 := (key ++ List.replicate 16 0).take 16

theorem length_plainTag (key : List UInt8) : (plainTag key).length = 16 := by
  rw [plainTag, List.length_take, List.length_append, List.length_replicate]
  omega

/-- A cipher with that tag. -/
def plainAead (key : List UInt8) : Hyper.Wire.Aead where
  sealAppendTag _ _ body := body ++ plainTag key
  openInPlace _ _ c :=
    if c.drop (c.length - 16) = plainTag key then some (c.take (c.length - 16)) else none

theorem open_plainAead (key nonce header body : List UInt8) :
    (plainAead key).openInPlace nonce header ((plainAead key).sealAppendTag nonce header body) = some body := by
  unfold plainAead
  dsimp only
  rw [List.length_append, length_plainTag, Nat.add_sub_cancel, List.drop_left, if_pos rfl, List.take_left]

def plainWant : Want := ⟨["h264".toList], 1920, 1080, 60, 1, false, false, false, none, 100, [], [], (4, 4)⟩

def plainLibs : AuthLibs where
  want_to_json w := (w.cookie.getD []).map fun c => UInt8.ofNat c.toNat
  want_of_json b := some { plainWant with cookie := if b = [] then none else some (b.map fun x => Char.ofNat x.toNat) }
  offer_to_json o := [o.protocol]
  offer_of_json b := b.head?.map fun v => { Offer.default with protocol := v }
  hmac m := m ++ [0, 0]
  sha256 m := m
  hkdf salt k := salt.reverse ++ k
  start_a _ seed := seed.take 33
  start_b _ seed := seed.take 33
  finish_a secret seed b := some (secret ++ seed.take 33 ++ b)
  finish_b secret seed a := some (secret ++ a ++ seed.take 33)
  aead := plainAead

theorem lawful_plainLibs : Lawful plainLibs where
  agree _ _ _ := rfl
  length_a _ seed := by
    change (seed.take 33).length < 65536
    rw [List.length_take]
    omega
  length_b _ seed := by
    change (seed.take 33).length < 65536
    rw [List.length_take]
    omega
  opens := open_plainAead
  length_sealed key _ _ body := by
    change (body ++ plainTag key).length = body.length + 16
    rw [List.length_append, length_plainTag]
  protocol o o' h := by
    cases h
    rfl

def plainHost : Host := ⟨(4, 4), [], [], fun _ _ => false⟩

def plainSetup : Setup := ⟨[1], (4, 4), false⟩

def clientAddr : SocketAddr := ⟨outsider, 50000⟩

def draw (n : UInt8) : Draw := ⟨[n], ⟨List.replicate 16 n, rfl⟩⟩

def delivering (i now : ℕ) (n : UInt8) (S : System) : Move :=
  .deliver ⟨S.toHost.getD i [], clientAddr, fun _ => now, [n], (draw n).nonce,
    fun _ => some { Offer.default with codec := "h264".toList }, 0⟩

def receiving (i : ℕ) (n : UInt8) (S : System) : Move := .receive (S.toClient.getD i []) (draw n)

def play (S : System) : List (System → Move) → List Move
  | [] => []
  | f :: fs => f S :: play (S.step plainLibs plainHost plainSetup clientAddr (f S)) fs

def plainStart : System := .start plainLibs plainSetup 0 0 plainWant (draw 1)

/-- The two hellos, the challenge, a ping. -/
def straight : List Move :=
  play plainStart [delivering 0 0 3, receiving 0 2, delivering 1 0 4, receiving 1 5, fun _ => .ping 0,
    fun _ => .tick 1, delivering 2 2 6]

def repeated : List Move :=
  play plainStart [delivering 0 0 3, receiving 0 2, delivering 1 0 4, delivering 1 0 5, receiving 1 6,
    fun _ => .ping 0, delivering 2 0 7, fun _ => .tick (fromSecs 2)]

/-- What is enough for a move to be sound. -/
def checks (S : System) : Move → Bool
  | .tick now => (S.host.find clientAddr).all fun p => decide (now ≤ p.deadline)
  | .deliver a => (AuthMsg.parse plainLibs a.d).isNone ||
      S.toClient.all fun d => (AuthMsg.parse plainLibs d).all fun m => !S.client.auth.answers m
  | .receive _ draw => S.rounds.all fun r => r.nonce != draw.nonce
  | .timeout draw => S.rounds.all fun r => r.nonce != draw.nonce
  | _ => true

theorem sound_of_checks (S : System) (m : Move) (h : checks S m = true) : S.Sound plainLibs clientAddr m := by
  have hfresh : ∀ {draw : Draw}, (S.rounds.all fun r => r.nonce != draw.nonce) = true →
      ∀ r ∈ S.rounds, r.nonce ≠ draw.nonce :=
    fun hall r hr => bne_iff_ne.mp (List.all_eq_true.mp hall r hr)
  cases m with
  | tick now =>
    intro _ _ p hp
    have h : ((S.host.find clientAddr).all fun p => decide (now ≤ p.deadline)) = true := h
    rw [hp, Option.all_some] at h
    exact of_decide_eq_true h
  | deliver a =>
    rintro - ⟨nonce, spake, want, cookie, bucket, hparse, -⟩ ⟨d, hd, msg, hmsg, hanswers⟩
    have hparse' : AuthMsg.parse plainLibs a.d = _ := hparse
    rcases Bool.or_eq_true_iff.mp h with h | h
    · rw [hparse'] at h
      cases h
    · have hnot := List.all_eq_true.mp h d hd
      rw [hmsg, Option.all_some, hanswers] at hnot
      cases hnot
  | receive d draw => exact hfresh h
  | timeout draw => exact hfresh h
  | other a => trivial
  | ping client_us => trivial

/-- The client signs in by the straight run. -/
theorem agreed_of_straight : (run (System.step plainLibs plainHost plainSetup clientAddr) plainStart
    straight).Agreed plainLibs clientAddr :=
  agreed_of_sound plainLibs lawful_plainLibs plainHost plainSetup clientAddr 0 0 plainWant (draw 1) straight
    (Along.mono sound_of_checks (by decide +kernel))

example : (run (System.step plainLibs plainHost plainSetup clientAddr) plainStart straight).signedIn = true := by
  decide +kernel

theorem not_agreed_of_keys {S : System}
    (hkeys : (S.client.phase.key.any fun key => (S.host.find addr).all fun p => p.key != key) = true)
    (hsigned : S.signedIn = false) : ¬ S.Agreed libs addr := by
  intro h
  obtain ⟨key, hkey, hall⟩ := (Option.any_eq_true _ _).mp hkeys
  rcases h.same_key key hkey with hsigned' | ⟨p, hp, rfl⟩
  · rw [hsigned] at hsigned'
    cases hsigned'
  · rw [hp, Option.all_some, bne_self_eq_false] at hall
    cases hall

/-- The client accepts the first challenge, and the host holds the key of the second: the ping does not open, and
the client is charged a failure. -/
theorem not_agreed_of_copy :
    ¬ (run (System.step plainLibs plainHost plainSetup clientAddr) plainStart (repeated.take 5)).Agreed plainLibs
      clientAddr ∧
    ¬ (run (System.step plainLibs plainHost plainSetup clientAddr) plainStart repeated).Agreed plainLibs
      clientAddr := by
  refine ⟨fun h => not_agreed_of_keys (by decide +kernel) (by decide +kernel) h, fun h => ?_⟩
  exact absurd (congrArg List.length h.unblamed) (by decide +kernel)

end Rdpio.Client.SignIn
