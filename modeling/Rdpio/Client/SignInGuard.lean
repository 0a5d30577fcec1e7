import Rdpio.Client.SignIn

/-!
# The sign-in against a hostile network

What a run of the host's sign-in keeps to, whatever datagrams arrive, from whatever address
(`signIn_guarded`).
-/

namespace Rdpio.Client.SignIn

open Lib
open Hyper.Auth
open Hyper.Controls (Control)

variable (libs : AuthLibs) (host : Host)

/-- The attempt's key opens the packet, as one of a kind that a client sends to sign in. -/
def Opens (p : Pending) (d : List UInt8) : Prop :=
  ∃ body, (openWith libs p d).2 = .ok (.control, body) ∨ (openWith libs p d).2 = .ok (.update, body)

/-- The datagram is a hello with a cookie for its own address, of this bucket or the one before. -/
def Presents (s : State) (a : Arrival) : Prop :=
  ∃ nonce spake want cookie bucket, AuthMsg.parse libs a.d = some (.hello nonce spake want) ∧
    want.cookie.bind cookieFromHex = some cookie ∧ cookie = mint libs a.source bucket ∧
      (bucket = (a.clock 1 - s.epoch) / fromSecs 1 / 30 ∨ bucket + 1 = (a.clock 1 - s.epoch) / fromSecs 1 / 30)

/-- The datagram begins an attempt: its key is the one of the challenge that is sent. -/
structure Begins (s : State) (a : Arrival) (p : Pending) : Prop where
  presents : Presents libs s a
  addr : p.addr = a.source
  number : p.number = s.begun
  key : ∃ offer challenge, hostRespond libs s.secret a.seed a.nonce a.d offer = some (challenge, p.key) ∧
    (s.handle libs host a).sent = [challenge] ∧ p.protocol = offer.protocol

/-- A packet that tests the attempt's password: its key can't open it. -/
def Tests (s : State) (e : Event) (number : ℕ) : Prop :=
  ∃ a p, e = .datagram a ∧ foreignVersion a.d = none ∧ isAuth a.d = false ∧ s.find a.source = some p ∧
    p.number = number ∧ ¬ Opens libs p a.d

def ended (s s' : State) : List Pending := s.pending.filter fun p => decide (p.number ∉ s'.pending.map (·.number))

/-! ## What a step does -/

/-- No challenge is sent. -/
def Quiet (o : Outcome) : Prop :=
  ∀ d ∈ o.sent, ∀ nonce echo spake offer, AuthMsg.parse libs d ≠ some (.challenge nonce echo spake offer)

inductive Change (s : State) : Event → Outcome → Prop
  | expired (now : ℕ) : Change s (.tick now) (s.tick now)
  /-- Nothing happens to any attempt. -/
  | kept (e : Event) (o : Outcome) : o.state.pending = s.pending → o.state.lockout = s.lockout →
      o.state.begun = s.begun → o.charged = [] → o.signed = none → (∀ n, ¬ Tests libs s e n) → Quiet libs o →
      Change s e o
  /-- The address's attempt ends, and no other begins. -/
  | replaced (a : Arrival) (o : Outcome) : isAuth a.d = true → Presents libs s a → o.state.pending = s.remove a.source →
      o.charged = ((s.find a.source).toList.filter (·.tested)).map (·.addr.ip) →
      o.state.lockout = s.failAll o.charged (a.clock 0) → o.state.begun = s.begun → o.signed = none →
      Quiet libs o → Change s (.datagram a) o
  | begun (a : Arrival) (p : Pending) (o : Outcome) : isAuth a.d = true →
      o.state.pending = p :: s.remove a.source → Begins libs host s a p → p.tested = false →
      (s.remove a.source).length < maxPending →
      (s.remove a.source).countP (·.addr.ip = a.source.ip) < maxPendingPerIp →
      o.charged = ((s.find a.source).toList.filter (·.tested)).map (·.addr.ip) →
      o.state.lockout = s.failAll o.charged (a.clock 0) → o.state.begun = s.begun + 1 → o.signed = none →
      Change s (.datagram a) o
  /-- A packet does not open. -/
  | noted (a : Arrival) (p : Pending) : foreignVersion a.d = none → isAuth a.d = false →
      s.find a.source = some p → ¬ Opens libs p a.d → Change s (.datagram a) { state := s.note a }
  | signed (a : Arrival) (p : Pending) (c : SignedIn) (o : Outcome) : isAuth a.d = false →
      s.find a.source = some p → Opens libs p a.d → o.state.pending = s.remove a.source →
      o.state.lockout = s.lockout.succeed a.source.ip → o.state.begun = s.begun → o.charged = [] →
      o.signed = some c → c.addr = a.source → Quiet libs o → Change s (.datagram a) o

variable {libs host} {s : State} {a : Arrival}

theorem not_tests_of_auth (h : isAuth a.d = true) (n : ℕ) : ¬ Tests libs s (.datagram a) n := by
  rintro ⟨a', p, he, -, hauth, -⟩
  cases he
  rw [h] at hauth
  cases hauth

theorem quiet_nil {o : Outcome} (h : o.sent = []) : Quiet libs o := by
  intro d hd
  rw [h] at hd
  exact absurd hd List.not_mem_nil

theorem parse_of_kind {d : List UInt8} (h : d.getD 2 0 ≠ authKind) : AuthMsg.parse libs d = none :=
  if_pos (.inr (.inr (.inr h)))

theorem parse_ne_challenge {d : List UInt8} (h : (d.drop 12).getD 0 0 ≠ 2) (nonce echo spake : List UInt8)
    (offer : Offer) : AuthMsg.parse libs d ≠ some (.challenge nonce echo spake offer) := by
  have hlen : Hyper.Wire.headerLen = 12 := rfl
  unfold AuthMsg.parse
  rw [hlen]
  dsimp only
  split_ifs
  · exact fun h => Option.some_ne_none _ h.symm
  · intro heq
    obtain ⟨_, -, hmsg⟩ := Option.map_eq_some_iff.mp heq
    cases hmsg
  · intro heq
    obtain ⟨_, -, hmsg⟩ := Option.map_eq_some_iff.mp heq
    cases hmsg
  · intro heq
    obtain ⟨_, -, heq⟩ := Option.bind_eq_some_iff.mp heq
    obtain ⟨_, -, heq⟩ := Option.bind_eq_some_iff.mp heq
    cases heq
  · exact fun h => Option.some_ne_none _ h.symm

theorem change_of_same {sent : List (List UInt8)} (h : ∀ n, ¬ Tests libs s (.datagram a) n)
    (hquiet : ∀ d ∈ sent, (d.drop 12).getD 0 0 ≠ 2) :
    Change libs host s (.datagram a) { state := s, sent } :=
  .kept _ _ rfl rfl rfl rfl rfl h fun d hd _ _ _ _ => parse_ne_challenge (hquiet d hd) _ _ _ _

theorem ne_challenge_nil : ∀ d ∈ ([] : List (List UInt8)), (d.drop 12).getD 0 0 ≠ 2 :=
  fun _ hd => absurd hd List.not_mem_nil

theorem ne_challenge_denied (wait : UInt16) :
    ∀ d ∈ [(AuthMsg.denied wait).toDatagram libs], (d.drop 12).getD 0 0 ≠ 2 := by
  intro d hd
  rw [List.mem_singleton.mp hd]
  exact (by decide : (3 : UInt8) ≠ 2)

theorem ne_challenge_cookie (cookie : List UInt8) :
    ∀ d ∈ [(AuthMsg.cookie cookie).toDatagram libs], (d.drop 12).getD 0 0 ≠ 2 := by
  intro d hd
  rw [List.mem_singleton.mp hd]
  exact (by decide : (4 : UInt8) ≠ 2)

theorem kind_of_mem_sealAll {aead : Hyper.Wire.Aead} {ps : List (Hyper.Wire.Kind × List UInt8)}
    {send : Hyper.Wire.Session} {d : List UInt8} (h : d ∈ (sealAll aead send ps).2) :
    d.getD 2 0 ≠ authKind := by
  induction ps generalizing send with
  | nil => exact absurd h List.not_mem_nil
  | cons p ps ih =>
    rcases List.mem_cons.mp h with rfl | h
    · obtain ⟨kind, body⟩ := p
      change kind.toU8 ≠ authKind
      cases kind <;> decide
    · exact ih h

theorem quiet_signIn (p : Pending) (recv : Hyper.Wire.Session) (ping : Option (UInt32 × UInt64))
    (first_update : Option (List UInt8)) : Quiet libs (s.signIn libs a p recv ping first_update) := by
  intro d hd nonce echo spake offer hparse
  rw [parse_of_kind (kind_of_mem_sealAll hd)] at hparse
  cases hparse

theorem proved_iff {want : Hyper.Auth.Want} : s.proved libs a want = true ↔
    ∃ cookie bucket, want.cookie.bind cookieFromHex = some cookie ∧ cookie = mint libs a.source bucket ∧
      (bucket = (a.clock 1 - s.epoch) / fromSecs 1 / 30 ∨ bucket + 1 = (a.clock 1 - s.epoch) / fromSecs 1 / 30) := by
  unfold State.proved
  rw [Option.any_eq_true]
  constructor
  · rintro ⟨cookie, hcookie, hcheck⟩
    obtain ⟨bucket, hbucket, hmint⟩ := (checkCookie_iff libs).mp hcheck
    exact ⟨cookie, bucket, hcookie, hmint, hbucket⟩
  · rintro ⟨cookie, bucket, hcookie, hmint, hbucket⟩
    exact ⟨cookie, hcookie, (checkCookie_iff libs).mpr ⟨bucket, hbucket, hmint⟩⟩

theorem attempt_spec {want : Want} {challenge : List UInt8} {p : Pending}
    (h : s.attempt libs host a want = some (challenge, p)) :
    p.addr = a.source ∧ p.number = s.begun ∧ p.tested = false ∧
      ∃ offer, hostRespond libs s.secret a.seed a.nonce a.d offer = some (challenge, p.key) ∧
        p.protocol = offer.protocol := by
  unfold State.attempt at h
  obtain ⟨offer, -, h⟩ := Option.bind_eq_some_iff.mp h
  obtain ⟨codec, -, h⟩ := Option.bind_eq_some_iff.mp h
  obtain ⟨⟨challenge', key⟩, hrespond, h⟩ := Option.bind_eq_some_iff.mp h
  cases h
  exact ⟨rfl, rfl, rfl, offer, hrespond, rfl⟩

theorem beginAttempt_change {t : State} {want : Want} (hauth : isAuth a.d = true)
    (hpresents : Presents libs s a) (ht : t = { s with work := t.work })
    (hhandle : s.handle libs host a = t.beginAttempt libs host a want) :
    Change libs host s (.datagram a) (t.beginAttempt libs host a want) := by
  have hsent : ∀ o, o = t.beginAttempt libs host a want → (s.handle libs host a).sent = o.sent :=
    fun o ho => by rw [hhandle, ho]
  obtain ⟨secret, lockout, epoch, pending, work, begun⟩ := t
  obtain ⟨secret', lockout', epoch', pending', work', begun'⟩ := s
  cases ht
  unfold State.beginAttempt at hsent ⊢
  dsimp only at hsent ⊢
  split_ifs at hsent ⊢ with hfull
  · exact .replaced a _ hauth hpresents rfl rfl rfl rfl rfl (quiet_nil rfl)
  · rcases hattempt : State.attempt libs host _ a want with _ | ⟨challenge, p⟩
    · exact .replaced a _ hauth hpresents rfl rfl rfl rfl rfl (quiet_nil rfl)
    · rw [hattempt] at hsent
      obtain ⟨haddr, hnumber, htested, offer, hkey, hprotocol⟩ := attempt_spec hattempt
      rw [not_or, not_le, not_le] at hfull
      exact .begun a p _ hauth rfl
        ⟨hpresents, haddr, hnumber, offer, challenge, hkey, hsent _ rfl, hprotocol⟩ htested
        hfull.1 hfull.2 rfl rfl rfl rfl

theorem hello_change {nonce spake : List UInt8} {want : Want} (hauth : isAuth a.d = true)
    (hparse : AuthMsg.parse libs a.d = some (.hello nonce spake want))
    (hhandle : s.handle libs host a = s.hello libs host a want) :
    Change libs host s (.datagram a) (s.hello libs host a want) := by
  have htests : ∀ n, ¬ Tests libs s (.datagram a) n := not_tests_of_auth hauth
  unfold State.hello at hhandle ⊢
  rcases hcheck : s.lockout.check a.source.ip (a.clock 0) with wait | ⟨⟩
  · exact change_of_same htests (ne_challenge_denied _)
  rw [hcheck] at hhandle
  dsimp only at hhandle ⊢
  by_cases hproved : s.proved libs a want = true
  · rw [if_pos hproved] at hhandle ⊢
    -- Whether a new second begins does not matter.
    generalize (if fromSecs 1 ≤ a.clock 2 - s.work.1 then (a.clock 0, 0) else s.work) = work at hhandle ⊢
    split_ifs at hhandle ⊢
    · exact .kept _ _ rfl rfl rfl rfl rfl htests (quiet_nil rfl)
    · obtain ⟨cookie, bucket, hcookie, hmint, hbucket⟩ := proved_iff.mp hproved
      exact beginAttempt_change hauth ⟨nonce, spake, want, cookie, bucket, hparse, hcookie, hmint, hbucket⟩ rfl hhandle
  · rw [if_neg hproved]
    exact change_of_same htests (ne_challenge_cookie _)

theorem sealedPacket_change (hforeign : foreignVersion a.d = none) (hauth : isAuth a.d = false) :
    Change libs host s (.datagram a) (s.sealedPacket libs a) := by
  unfold State.sealedPacket
  rcases hfind : s.find a.source with _ | p
  · refine change_of_same ?_ ne_challenge_nil
    rintro n ⟨a', p, he, -, -, hfind', -⟩
    cases he
    rw [hfind] at hfind'
    cases hfind'
  have hnoted : ¬ Opens libs p a.d → Change libs host s (.datagram a) { state := s.note a } :=
    fun hopens => .noted a p hforeign hauth hfind hopens
  -- A packet that opens tests nothing.
  have hopened : Opens libs p a.d → ∀ n, ¬ Tests libs s (.datagram a) n := by
    rintro hopens n ⟨a', p', he, -, -, hfind', -, hnot⟩
    cases he
    rw [hfind] at hfind'
    cases hfind'
    exact hnot hopens
  dsimp only
  rcases hopen : openWith libs p a.d with ⟨recv, result⟩
  have hresult : (openWith libs p a.d).2 = result := by rw [hopen]
  rcases result with err | ⟨kind, body⟩
  · refine hnoted ?_
    rintro ⟨body, h | h⟩
    · rw [hresult] at h
      cases h
    · rw [hresult] at h
      cases h
  by_cases hcontrol : kind = .control
  · subst hcontrol
    have hopens : Opens libs p a.d := ⟨body, .inl hresult⟩
    dsimp only
    rcases Control.parse body with err | _ | c
    · exact change_of_same (hopened hopens) ne_challenge_nil
    · exact change_of_same (hopened hopens) ne_challenge_nil
    · cases c with
      | ping id client_us => exact .signed a p _ _ hauth hfind hopens rfl rfl rfl rfl rfl rfl (quiet_signIn _ _ _ _)
      | _ => exact change_of_same (hopened hopens) ne_challenge_nil
  by_cases hupdate : kind = .update
  · subst hupdate
    exact .signed a p _ _ hauth hfind ⟨body, .inr hresult⟩ rfl rfl rfl rfl rfl rfl (quiet_signIn _ _ _ _)
  have hother : ¬ Opens libs p a.d := by
    rintro ⟨body', h | h⟩
    · rw [hresult] at h
      cases h
      exact hcontrol rfl
    · rw [hresult] at h
      cases h
      exact hupdate rfl
  cases kind with
  | control => exact absurd rfl hcontrol
  | update => exact absurd rfl hupdate
  | _ => exact hnoted hother

theorem act_change (s : State) (e : Event) : Change libs host s e (s.act libs host e) := by
  cases e with
  | tick now => exact .expired now
  | datagram a =>
    change Change libs host s (.datagram a) (s.handle libs host a)
    rcases hforeign : foreignVersion a.d with _ | v
    · rcases hauth : isAuth a.d with _ | _
      · have hhandle : s.handle libs host a = s.sealedPacket libs a := by
          unfold State.handle
          rw [hforeign, hauth]
          rfl
        rw [hhandle]
        exact sealedPacket_change hforeign hauth
      · have htests : ∀ n, ¬ Tests libs s (.datagram a) n := not_tests_of_auth hauth
        rcases hparse : AuthMsg.parse libs a.d with _ | m
        · have hhandle : s.handle libs host a = { state := s } := by
            unfold State.handle
            rw [hforeign, hauth, hparse]
            rfl
          rw [hhandle]
          exact change_of_same htests ne_challenge_nil
        cases m with
        | hello nonce spake want =>
          have hhandle : s.handle libs host a = s.hello libs host a want := by
            unfold State.handle
            rw [hforeign, hauth, hparse]
            rfl
          rw [hhandle]
          exact hello_change hauth hparse hhandle
        | _ =>
          have hhandle : s.handle libs host a = { state := s } := by
            unfold State.handle
            rw [hforeign, hauth, hparse]
            rfl
          rw [hhandle]
          exact change_of_same htests ne_challenge_nil
    · have hauth : isAuth a.d = true := by
        unfold foreignVersion at hforeign
        split_ifs at hforeign with h
        exact (Bool.and_eq_true _ _ ▸ h : _ ∧ _).1
      have hhandle : s.handle libs host a = { state := s, sent := [(AuthMsg.denied 0).toDatagram libs] } := by
        unfold State.handle
        rw [hforeign]
        rfl
      rw [hhandle]
      exact change_of_same (not_tests_of_auth hauth) (ne_challenge_denied _)

/-! ## Attempts keep apart -/

/-- What holds of the attempts in every state. -/
structure Inv (s : State) : Prop where
  numbers : (s.pending.map (·.number)).Nodup
  begun : ∀ p ∈ s.pending, p.number < s.begun
  addrs : (s.pending.map (·.addr)).Nodup
  few : s.pending.length ≤ maxPending
  few_of_ip : ∀ ip, s.pending.countP (·.addr.ip = ip) ≤ maxPendingPerIp

theorem inv_new (secret : List UInt8) (epoch work : ℕ) : Inv (State.new secret epoch work) where
  numbers := List.nodup_nil
  begun _ hp := absurd hp List.not_mem_nil
  addrs := List.nodup_nil
  few := Nat.zero_le _
  few_of_ip _ := Nat.zero_le _

theorem Inv.sublist {s s' : State} (h : Inv s) (hp : s'.pending.Sublist s.pending)
    (hbegun : s'.begun = s.begun) : Inv s' where
  numbers := h.numbers.sublist (hp.map _)
  begun p hmem := hbegun ▸ h.begun p (hp.subset hmem)
  addrs := h.addrs.sublist (hp.map _)
  few := hp.length_le.trans h.few
  few_of_ip ip := hp.countP_le.trans (h.few_of_ip ip)

theorem noted_spec (a : Arrival) (p : Pending) : (noted a p).number = p.number ∧ (noted a p).addr = p.addr ∧
    (noted a p).key = p.key ∧ ((noted a p).tested = true ↔ p.tested = true ∨ p.addr = a.source) := by
  unfold noted
  split_ifs with h
  · exact ⟨rfl, rfl, rfl, iff_of_true rfl (.inr h.1)⟩
  · refine ⟨rfl, rfl, rfl, ⟨.inl, ?_⟩⟩
    rintro (htested | haddr)
    · exact htested
    · exact Bool.eq_true_of_not_eq_false fun hfalse => h ⟨haddr, hfalse⟩

theorem pending_note (s : State) (a : Arrival) : (s.note a).pending = s.pending.map (noted a) := rfl

theorem map_noted {α : Type} (s : State) (a : Arrival) (f : Pending → α) (h : ∀ p, f (noted a p) = f p) :
    (s.note a).pending.map f = s.pending.map f := by
  rw [pending_note, List.map_map]
  exact List.map_congr_left fun p _ => h p

theorem Inv.step (h : Inv s) (e : Event) : Inv (s.step libs host e) := by
  have hchange : Change libs host s e (s.act libs host e) := act_change s e
  unfold State.step
  generalize s.act libs host e = o at hchange
  cases hchange with
  | expired now => exact h.sublist List.filter_sublist rfl
  | kept e o hpending _ hbegun _ _ _ _ => exact h.sublist (by rw [hpending]) hbegun
  | replaced a o _ _ hpending _ _ hbegun _ _ =>
    refine h.sublist ?_ hbegun
    rw [hpending]
    exact List.filter_sublist
  | begun a p o _ hpending hbegins _ hroom hroomIp _ _ hbegun _ =>
    have hold : (s.remove a.source).Sublist s.pending := List.filter_sublist
    constructor
    · rw [hpending, List.map_cons, List.nodup_cons, hbegins.number]
      refine ⟨fun hmem => ?_, h.numbers.sublist (hold.map _)⟩
      obtain ⟨q, hq, hnumber⟩ := List.mem_map.mp hmem
      have := h.begun q (hold.subset hq)
      omega
    · intro q hq
      rw [hpending] at hq
      rw [hbegun]
      rcases List.mem_cons.mp hq with rfl | hq
      · rw [hbegins.number]
        exact Nat.lt_succ_self _
      · exact Nat.lt_succ_of_lt (h.begun q (hold.subset hq))
    · rw [hpending, List.map_cons, List.nodup_cons, hbegins.addr]
      refine ⟨fun hmem => ?_, h.addrs.sublist (hold.map _)⟩
      obtain ⟨q, hq, haddr⟩ := List.mem_map.mp hmem
      exact of_decide_eq_true (List.mem_filter.mp hq).2 haddr
    · rw [hpending, List.length_cons]
      exact hroom
    · intro ip
      rw [hpending]
      by_cases hip : p.addr.ip = ip
      · rw [List.countP_cons_of_pos (by simpa using hip)]
        rw [← hip, hbegins.addr]
        exact hroomIp
      · rw [List.countP_cons_of_neg (by simpa using hip)]
        exact hold.countP_le.trans (h.few_of_ip ip)
  | noted a p _ _ _ _ =>
    have hnumbers := map_noted s a (·.number) fun p => (noted_spec a p).1
    have haddrs := map_noted s a (·.addr) fun p => (noted_spec a p).2.1
    constructor
    · exact hnumbers ▸ h.numbers
    · intro q hq
      obtain ⟨q0, hq0, rfl⟩ := List.mem_map.mp hq
      rw [(noted_spec a q0).1]
      exact h.begun q0 hq0
    · exact haddrs ▸ h.addrs
    · rw [pending_note, List.length_map]
      exact h.few
    · intro ip
      have hcount : ∀ l : List Pending, l.countP (·.addr.ip = ip) = (l.map (·.addr)).countP (·.ip = ip) := by
        intro l
        rw [List.countP_map]
        rfl
      rw [hcount, haddrs, ← hcount]
      exact h.few_of_ip ip
  | signed a p c o _ _ _ hpending _ hbegun _ _ _ _ =>
    refine h.sublist ?_ hbegun
    rw [hpending]
    exact List.filter_sublist

theorem Inv.eq_of_number (h : Inv s) {p q : Pending} (hp : p ∈ s.pending) (hq : q ∈ s.pending)
    (hnumber : p.number = q.number) : p = q := List.inj_on_of_nodup_map h.numbers hp hq hnumber

theorem Inv.eq_of_addr (h : Inv s) {p q : Pending} (hp : p ∈ s.pending) (hq : q ∈ s.pending)
    (haddr : p.addr = q.addr) : p = q := List.inj_on_of_nodup_map h.addrs hp hq haddr

theorem find_spec {addr : SocketAddr} {p : Pending} (h : s.find addr = some p) : p ∈ s.pending ∧ p.addr = addr := by
  refine ⟨List.mem_of_find?_eq_some h, ?_⟩
  have haddr := List.find?_some h
  exact of_decide_eq_true haddr

theorem mem_of_change {e : Event} {o : Outcome} (h : Change libs host s e o) {p : Pending}
    (hp : p ∈ o.state.pending) :
    (∃ q ∈ s.pending, q.number = p.number ∧ q.addr = p.addr ∧ q.key = p.key) ∨
      ∃ a, e = .datagram a ∧ Begins libs host s a p := by
  have hold : ∀ {q}, q ∈ s.pending → q = p → (∃ q ∈ s.pending, q.number = p.number ∧ q.addr = p.addr ∧ q.key = p.key) ∨
        ∃ a, e = .datagram a ∧ Begins libs host s a p := by
    rintro q hq rfl
    exact .inl ⟨q, hq, rfl, rfl, rfl⟩
  cases h with
  | expired now => exact hold (List.mem_filter.mp hp).1 rfl
  | kept e o hpending _ _ _ _ _ _ =>
    rw [hpending] at hp
    exact hold hp rfl
  | replaced a o _ _ hpending _ _ _ _ _ =>
    rw [hpending] at hp
    exact hold (List.mem_filter.mp hp).1 rfl
  | begun a p' o _ hpending hbegins _ _ _ _ _ _ _ =>
    rw [hpending] at hp
    rcases List.mem_cons.mp hp with rfl | hp
    · exact .inr ⟨a, rfl, hbegins⟩
    · exact hold (List.mem_filter.mp hp).1 rfl
  | noted a p' _ _ _ _ =>
    obtain ⟨q, hq, rfl⟩ := List.mem_map.mp hp
    obtain ⟨hnumber, haddr, hkey, -⟩ := noted_spec a q
    exact .inl ⟨q, hq, hnumber.symm, haddr.symm, hkey.symm⟩
  | signed a p' c o _ _ _ hpending _ _ _ _ _ _ =>
    rw [hpending] at hp
    exact hold (List.mem_filter.mp hp).1 rfl

theorem Inv.number_of_tests (h : Inv s) {e : Event} {n : ℕ} (ht : Tests libs s e n) : n < s.begun := by
  obtain ⟨a, p, -, -, -, hfind, rfl, -⟩ := ht
  exact h.begun p (find_spec hfind).1

theorem tested_of_change (hinv : Inv s) {e : Event} {o : Outcome} (h : Change libs host s e o) {p : Pending}
    (hp : p ∈ o.state.pending) :
    p.tested = true ↔ (∃ q ∈ s.pending, q.number = p.number ∧ q.tested = true) ∨ Tests libs s e p.number := by
  have hold : p ∈ s.pending → ¬ Tests libs s e p.number →
      (p.tested = true ↔ (∃ q ∈ s.pending, q.number = p.number ∧ q.tested = true) ∨ Tests libs s e p.number) := by
    intro hmem htests
    rw [or_iff_left htests]
    constructor
    · exact fun htested => ⟨p, hmem, rfl, htested⟩
    · rintro ⟨q, hq, hnumber, htested⟩
      rwa [hinv.eq_of_number hq hmem hnumber] at htested
  cases h with
  | expired now =>
    refine hold (List.mem_filter.mp hp).1 ?_
    rintro ⟨a, q, he, -⟩
    cases he
  | kept e o hpending _ _ _ _ htests _ =>
    rw [hpending] at hp
    exact hold hp (htests _)
  | replaced a o hauth _ hpending _ _ _ _ _ =>
    rw [hpending] at hp
    exact hold (List.mem_filter.mp hp).1 (not_tests_of_auth hauth _)
  | begun a p' o hauth hpending hbegins htested _ _ _ _ _ _ =>
    have htests : ∀ n, ¬ Tests libs s (.datagram a) n := not_tests_of_auth hauth
    rw [hpending] at hp
    rcases List.mem_cons.mp hp with rfl | hp
    · rw [htested, or_iff_left (htests _)]
      refine iff_of_false Bool.false_ne_true ?_
      rintro ⟨q, hq, hnumber, -⟩
      have := hinv.begun q hq
      rw [hnumber, hbegins.number] at this
      exact lt_irrefl _ this
    · exact hold (List.mem_filter.mp hp).1 (htests _)
  | noted a p' hforeign hauth hfind hopens =>
    obtain ⟨q, hq, rfl⟩ := List.mem_map.mp hp
    obtain ⟨hnumber, -, -, htested⟩ := noted_spec a q
    obtain ⟨hp', haddr'⟩ := find_spec hfind
    rw [htested, hnumber]
    refine or_congr ?_ ?_
    · constructor
      · exact fun h => ⟨q, hq, rfl, h⟩
      · rintro ⟨q', hq', hnumber', h⟩
        rwa [hinv.eq_of_number hq' hq hnumber'] at h
    · constructor
      · intro haddr
        have heq : p' = q := hinv.eq_of_addr hp' hq (haddr'.trans haddr.symm)
        exact ⟨a, p', rfl, hforeign, hauth, hfind, by rw [heq], hopens⟩
      · rintro ⟨a', q', he, -, -, hfind', hnumber', -⟩
        cases he
        rw [hfind] at hfind'
        cases hfind'
        rw [← hinv.eq_of_number hp' hq hnumber']
        exact haddr'
  | signed a p' c o hauth hfind hopens hpending _ _ _ _ _ _ =>
    rw [hpending] at hp
    refine hold (List.mem_filter.mp hp).1 ?_
    rintro ⟨a', q, he, -, -, hfind', -, hnot⟩
    cases he
    rw [hfind] at hfind'
    cases hfind'
    exact hnot hopens

theorem ended_of_filter (h : Inv s) (s' : State) {keep : Pending → Bool} (fresh : List Pending)
    (hpending : s'.pending = fresh ++ s.pending.filter keep) (hfresh : ∀ p ∈ fresh, s.begun ≤ p.number) :
    ended s s' = s.pending.filter fun p => !keep p := by
  refine List.filter_congr fun p hp => ?_
  rw [hpending]
  rcases hkeep : keep p with _ | _
  · refine decide_eq_true fun hmem => ?_
    obtain ⟨q, hq, hnumber⟩ := List.mem_map.mp hmem
    rcases List.mem_append.mp hq with hq | hq
    · have := hfresh q hq
      have := h.begun p hp
      omega
    · obtain ⟨hmem, hkeep'⟩ := List.mem_filter.mp hq
      rw [h.eq_of_number hmem hp hnumber, hkeep] at hkeep'
      cases hkeep'
  · refine decide_eq_false (not_not.mpr (List.mem_map.mpr ⟨p, ?_, rfl⟩))
    exact List.mem_append_right _ (List.mem_filter.mpr ⟨hp, hkeep⟩)

theorem Inv.filter_addr (h : Inv s) (addr : SocketAddr) :
    (s.pending.filter fun p => !decide (p.addr ≠ addr)) = (s.find addr).toList := by
  have hnodup := h.addrs
  unfold State.find
  generalize s.pending = ps at hnodup ⊢
  induction ps with
  | nil => rfl
  | cons p ps ih =>
    rw [List.map_cons, List.nodup_cons] at hnodup
    by_cases haddr : p.addr = addr
    · rw [List.filter_cons_of_pos (by simpa using haddr), List.find?_cons_of_pos (by simpa using haddr)]
      have hrest : (ps.filter fun p => !decide (p.addr ≠ addr)) = [] := by
        refine List.filter_eq_nil_iff.mpr fun q hq hqaddr => hnodup.1 ?_
        have hqaddr' : q.addr = addr := by simpa using hqaddr
        exact List.mem_map.mpr ⟨q, hq, hqaddr'.trans haddr.symm⟩
      rw [hrest]
      rfl
    · rw [List.filter_cons_of_neg (by simpa using haddr), List.find?_cons_of_neg (by simpa using haddr)]
      exact ih hnodup.2

theorem charged_of_change (hinv : Inv s) {e : Event} {o : Outcome} (h : Change libs host s e o) :
    (o.signed = none → o.charged = ((ended s o.state).filter (·.tested)).map (·.addr.ip) ∧
      ∃ now, o.state.lockout = s.failAll o.charged now) ∧
    ∀ c, o.signed = some c → o.charged = [] ∧ o.state.lockout = s.lockout.succeed c.addr.ip ∧
      ∀ p ∈ ended s o.state, p.addr = c.addr := by
  cases h with
  | expired now =>
    refine ⟨fun _ => ⟨?_, now, rfl⟩, fun c hc => absurd hc (Option.some_ne_none c).symm⟩
    rw [ended_of_filter hinv (s.tick now).state [] rfl fun p hp => absurd hp List.not_mem_nil, List.filter_filter]
    unfold State.tick
    dsimp only
    congr 1
    refine List.filter_congr fun p _ => ?_
    rw [Bool.not_not, Bool.and_comm]
  | kept e o hpending hlockout _ hcharged hsigned _ _ =>
    refine ⟨fun _ => ⟨?_, 0, by rw [hcharged, hlockout]; rfl⟩, fun c hc => ?_⟩
    · have hended : ended s o.state = [] := by
        refine List.filter_eq_nil_iff.mpr fun p hp hnot => of_decide_eq_true hnot ?_
        rw [hpending]
        exact List.mem_map_of_mem hp
      rw [hcharged, hended]
      rfl
    · rw [hsigned] at hc
      cases hc
  | replaced a o _ _ hpending hcharged hlockout _ hsigned _ =>
    refine ⟨fun _ => ⟨?_, _, hlockout⟩, fun c hc => ?_⟩
    · rw [hcharged, ended_of_filter hinv o.state [] hpending fun p hp => absurd hp List.not_mem_nil,
        hinv.filter_addr]
    · rw [hsigned] at hc
      cases hc
  | begun a p o _ hpending hbegins _ _ _ hcharged hlockout _ hsigned =>
    refine ⟨fun _ => ⟨?_, _, hlockout⟩, fun c hc => ?_⟩
    · have hfresh : ∀ q ∈ [p], s.begun ≤ q.number := fun q hq => by
        rw [List.mem_singleton.mp hq, hbegins.number]
      rw [hcharged, ended_of_filter hinv o.state [p] hpending hfresh, hinv.filter_addr]
    · rw [hsigned] at hc
      cases hc
  | noted a p _ _ _ _ =>
    refine ⟨fun _ => ⟨?_, 0, rfl⟩, fun c hc => absurd hc (Option.some_ne_none c).symm⟩
    have hended : ended s (s.note a) = [] := by
      refine List.filter_eq_nil_iff.mpr fun q hq hnot => of_decide_eq_true hnot ?_
      rw [map_noted s a (·.number) fun p => (noted_spec a p).1]
      exact List.mem_map_of_mem hq
    rw [hended]
    rfl
  | signed a p c o _ hfind _ hpending hlockout _ hcharged hsigned haddr _ =>
    refine ⟨fun hnone => ?_, fun c' hc' => ?_⟩
    · rw [hsigned] at hnone
      cases hnone
    · rw [hsigned] at hc'
      cases hc'
      refine ⟨hcharged, by rw [haddr, hlockout], fun q hq => ?_⟩
      rw [ended_of_filter hinv o.state [] hpending fun p hp => absurd hp List.not_mem_nil,
        hinv.filter_addr, hfind] at hq
      rw [List.mem_singleton.mp hq, haddr]
      exact (find_spec hfind).2

variable (libs host)

abbrev after (start : State) (es : List Event) : State := run (State.step libs host) start es

variable {libs host} {start : State} {es : List Event}

theorem inv_after (hstart : Inv start) (es : List Event) : Inv (after libs host start es) :=
  invariant_run Inv hstart (fun _ e h => h.step e) es

theorem begins_of_mem (hstart : start.pending = []) (es : List Event) :
    ∀ p ∈ (after libs host start es).pending, ∃ pre a post q, es = pre ++ .datagram a :: post ∧
      Begins libs host (after libs host start pre) a q ∧ q.number = p.number ∧ q.addr = p.addr ∧ q.key = p.key := by
  induction es using List.reverseRecOn with
  | nil =>
    intro p hp
    have hp : p ∈ start.pending := hp
    rw [hstart] at hp
    exact absurd hp List.not_mem_nil
  | append_singleton es e ih =>
    intro p hp
    unfold after at hp
    rw [run_concat] at hp
    rcases mem_of_change (act_change _ e) hp with ⟨q, hq, hnumber, haddr, hkey⟩ | ⟨a, rfl, hbegins⟩
    · obtain ⟨pre, a, post, q', rfl, hbegins, hnumber', haddr', hkey'⟩ := ih q hq
      refine ⟨pre, a, post ++ [e], q', ?_, hbegins, hnumber'.trans hnumber, haddr'.trans haddr, hkey'.trans hkey⟩
      rw [List.append_assoc]
      rfl
    · exact ⟨es, a, [], p, rfl, hbegins, rfl, rfl, rfl⟩

variable (libs host start) in
/-- Some packet of the run tested the attempt. -/
def Tested (es : List Event) (number : ℕ) : Prop :=
  ∃ pre e post, es = pre ++ e :: post ∧ Tests libs (after libs host start pre) e number

theorem tested_concat (es : List Event) (e : Event) (n : ℕ) : Tested libs host start (es ++ [e]) n ↔
    Tested libs host start es n ∨ Tests libs (after libs host start es) e n := by
  constructor
  · rintro ⟨pre, e', post, hes, htests⟩
    rcases List.eq_nil_or_concat post with rfl | ⟨post, e'', rfl⟩
    · obtain ⟨rfl, he⟩ := List.append_inj' hes rfl
      cases he
      exact .inr htests
    · have hes' : es ++ [e] = (pre ++ e' :: post) ++ [e''] := by
        rw [hes, List.concat_eq_append, List.append_assoc, List.cons_append]
      exact .inl ⟨pre, e', post, (List.append_inj' hes' rfl).1, htests⟩
  · rintro (⟨pre, e', post, rfl, htests⟩ | htests)
    · exact ⟨pre, e', post ++ [e], by rw [List.append_assoc, List.cons_append], htests⟩
    · exact ⟨es, e, [], rfl, htests⟩

theorem begun_le_step (s : State) (e : Event) : s.begun ≤ (s.step libs host e).begun := by
  have hchange : Change libs host s e (s.act libs host e) := act_change s e
  unfold State.step
  generalize s.act libs host e = o at hchange
  cases hchange with
  | expired now => exact le_refl _
  | kept e o _ _ hbegun _ _ _ _ => exact hbegun.ge
  | replaced a o _ _ _ _ _ hbegun _ _ => exact hbegun.ge
  | begun a p o _ _ _ _ _ _ _ _ hbegun _ =>
    rw [hbegun]
    exact Nat.le_succ _
  | noted a p _ _ _ _ => exact le_refl _
  | signed a p c o _ _ _ _ _ hbegun _ _ _ _ => exact hbegun.ge

theorem number_of_tested (hstart : Inv start) (es : List Event) (n : ℕ)
    (h : Tested libs host start es n) : n < (after libs host start es).begun := by
  induction es using List.reverseRecOn with
  | nil =>
    obtain ⟨pre, e, post, hes, -⟩ := h
    exact absurd hes (by simp)
  | append_singleton es e ih =>
    have hle : (after libs host start es).begun ≤ ((after libs host start es).step libs host e).begun :=
      begun_le_step _ e
    unfold after
    rw [run_concat]
    rcases (tested_concat es e n).mp h with h | h
    · exact (ih h).trans_le hle
    · exact ((inv_after hstart es).number_of_tests h).trans_le hle

theorem tested_iff (hstart : Inv start) (hnone : start.pending = []) (es : List Event) :
    ∀ p ∈ (after libs host start es).pending, p.tested = true ↔ Tested libs host start es p.number := by
  induction es using List.reverseRecOn with
  | nil =>
    intro p hp
    have hp : p ∈ start.pending := hp
    rw [hnone] at hp
    exact absurd hp List.not_mem_nil
  | append_singleton es e ih =>
    intro p hp
    unfold after at hp
    rw [run_concat] at hp
    have hinv : Inv (after libs host start es) := inv_after hstart es
    have hchange : Change libs host (after libs host start es) e _ := act_change _ e
    rw [tested_of_change hinv hchange hp, tested_concat]
    refine or_congr_left' fun htests => ?_
    constructor
    · rintro ⟨q, hq, hnumber, htested⟩
      rw [← hnumber]
      exact (ih q hq).mp htested
    · intro htested
      -- The attempt is an old one: it was tested before.
      rcases mem_of_change hchange hp with ⟨q, hq, hnumber, -, -⟩ | ⟨a, -, hbegins⟩
      · exact ⟨q, hq, hnumber, (ih q hq).mpr (hnumber ▸ htested)⟩
      · have hlt := number_of_tested hstart es p.number htested
        rw [hbegins.number] at hlt
        exact absurd hlt (lt_irrefl _)

variable (libs host start) in
/-- What a sign-in that heard `es` keeps to at the event `e`. -/
structure Guarded (es : List Event) (e : Event) : Prop where
  /-- Who signs in presented a cookie for its own address in a hello, which began the attempt whose key opens
  the packet. -/
  signed : ∀ c, ((after libs host start es).act libs host e).signed = some c →
    ∃ pre a post q a' p, es = pre ++ .datagram a :: post ∧ a.source = c.addr ∧
      Begins libs host (after libs host start pre) a q ∧ e = .datagram a' ∧ a'.source = c.addr ∧
        (after libs host start es).find c.addr = some p ∧ p.number = q.number ∧ p.key = q.key ∧ Opens libs p a'.d
  /-- A hello without a good cookie changes nothing. -/
  unproved : ∀ a, e = .datagram a → isAuth a.d = true → ¬ Presents libs (after libs host start es) a →
      (after libs host start es).step libs host e = after libs host start es
  few : (after libs host start es).pending.length ≤ maxPending
  few_of_ip : ∀ ip, (after libs host start es).pending.countP (·.addr.ip = ip) ≤ maxPendingPerIp
  /-- The attempts that end without a sign-in and were tested are charged, each once, to their addresses; nothing
  else is, and a charge is a failure of the lockout. -/
  charged : ((after libs host start es).act libs host e).signed = none →
    ((after libs host start es).act libs host e).charged =
      ((ended (after libs host start es) ((after libs host start es).step libs host e)).filter
        (·.tested)).map (·.addr.ip) ∧
      ∃ now, ((after libs host start es).step libs host e).lockout =
        (after libs host start es).failAll ((after libs host start es).act libs host e).charged now
  uncharged : ∀ c, ((after libs host start es).act libs host e).signed = some c →
    ((after libs host start es).act libs host e).charged = [] ∧
      ∀ p ∈ ended (after libs host start es) ((after libs host start es).step libs host e), p.addr = c.addr
  /-- An attempt is charged for if and only if a packet tested it. -/
  tested : ∀ p ∈ (after libs host start es).pending, p.tested = true ↔ Tested libs host start es p.number

theorem opens_of_signed {e : Event} {o : Outcome} (h : Change libs host s e o) {c : SignedIn}
    (hc : o.signed = some c) :
    ∃ a p, e = .datagram a ∧ a.source = c.addr ∧ s.find c.addr = some p ∧ Opens libs p a.d := by
  cases h with
  | expired now => cases hc
  | kept e o _ _ _ _ hsigned _ _ =>
    rw [hsigned] at hc
    cases hc
  | replaced a o _ _ _ _ _ _ hsigned _ =>
    rw [hsigned] at hc
    cases hc
  | begun a p o _ _ _ _ _ _ _ _ _ hsigned =>
    rw [hsigned] at hc
    cases hc
  | noted a p _ _ _ _ => cases hc
  | signed a p c' o _ hfind hopens _ _ _ _ hsigned haddr _ =>
    rw [hsigned] at hc
    cases hc
    exact ⟨a, p, rfl, haddr.symm, haddr ▸ hfind, hopens⟩

theorem handle_of_not_presents (hauth : isAuth a.d = true) (h : ¬ Presents libs s a) :
    (s.handle libs host a).state = s := by
  unfold State.handle
  split_ifs
  · rfl
  rcases hparse : AuthMsg.parse libs a.d with _ | m
  · rfl
  cases m with
  | hello nonce spake want =>
    have hproved : ¬ s.proved libs a want = true := by
      intro hproved
      obtain ⟨cookie, bucket, hcookie, hmint, hbucket⟩ := proved_iff.mp hproved
      exact h ⟨nonce, spake, want, cookie, bucket, hparse, hcookie, hmint, hbucket⟩
    dsimp only
    unfold State.hello
    rcases s.lockout.check a.source.ip (a.clock 0) with wait | ⟨⟩
    · rfl
    · dsimp only
      rw [if_neg hproved]
  | _ => rfl

/-- Whatever a sign-in has heard, and hears next. -/
theorem signIn_guarded (libs : AuthLibs) (host : Host) (secret : List UInt8) (epoch work : ℕ)
    (es : List Event) (e : Event) : Guarded libs host (.new secret epoch work) es e := by
  have hstart := inv_new secret epoch work
  have hinv : Inv (after libs host (.new secret epoch work) es) := inv_after hstart es
  have hchange : Change libs host (after libs host (.new secret epoch work) es) e _ := act_change _ e
  constructor
  case signed =>
    intro c hc
    obtain ⟨a', p, rfl, hsource', hfind, hopens⟩ := opens_of_signed hchange hc
    obtain ⟨hp, haddr⟩ := find_spec hfind
    obtain ⟨pre, a, post, q, hes, hbegins, hnumber, haddr', hkey⟩ := begins_of_mem rfl es p hp
    have hsource : a.source = c.addr := by rw [← hbegins.addr, haddr', haddr]
    exact ⟨pre, a, post, q, a', p, hes, hsource, hbegins, rfl, hsource', hfind, hnumber.symm, hkey.symm, hopens⟩
  case unproved =>
    rintro a rfl hauth hpresents
    exact handle_of_not_presents hauth hpresents
  case few => exact hinv.few
  case few_of_ip => exact hinv.few_of_ip
  case charged => exact (charged_of_change hinv hchange).1
  case uncharged =>
    intro c hc
    obtain ⟨hcharged, -, hended⟩ := (charged_of_change hinv hchange).2 c hc
    exact ⟨hcharged, hended⟩
  case tested => exact tested_iff hstart rfl es

end Rdpio.Client.SignIn
