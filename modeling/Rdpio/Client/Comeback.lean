import Rdpio.Client.ConnectDirect

/-!
# A client that comes back

`Comeback`, `comeback` and `take_returning` of `crates/rdp-client/src/hyper_direct.rs`: an auth datagram that
reaches the receive thread of a stream may end it, and is then the sign-in's.
-/

namespace Rdpio.Client.Comeback

open Lib Hyper.Auth SignIn

structure Sent where
  number : ℕ
  d : List UInt8
  source : SocketAddr

structure Stream where
  own : ℕ
  peer : SocketAddr
  returning : Option Sent

def comeback (libs : AuthLibs) (fastreconnect : Bool) (now_s : ℕ) (g : Sent) (st : Stream) :
    Stream × List (List UInt8) :=
  if g.source.ip ≠ st.peer.ip ∨ st.returning.isSome ∨ fastreconnect = false then (st, [])
  else
    match AuthMsg.parse libs g.d with
    | some (.hello _ _ want) =>
      if (want.cookie.bind cookieFromHex).any fun k => checkCookie libs g.source k now_s then
        ({ st with returning := some g }, [])
      else (st, [(AuthMsg.cookie (makeCookie libs g.source now_s)).toDatagram libs])
    | _ => (st, [])

structure World where
  /-- The client's sign-in that is under way. -/
  sign_in : ℕ
  sent : List Sent
  host : State
  /-- The client's sign-in whose hello began each attempt of the host's, the first attempt first. -/
  begunBy : List ℕ
  stream : Option Stream

inductive Move where
  /-- The client begins another sign-in. -/
  | signIn
  /-- The client sends a datagram in its sign-in. -/
  | send (d : List UInt8) (source : SocketAddr)
  /-- The `i`th of the client's datagrams arrives, for the first time or again. -/
  | arrive (i : ℕ) (a : Arrival) (fastreconnect : Bool)
  /-- A packet of the stream's client opens, from whatever address. -/
  | move (peer : SocketAddr)
  /-- The stream ends, for whatever reason. -/
  | finish (a : Arrival)
  | tick (now : ℕ)

namespace World

variable (libs : AuthLibs) (host : Host) (w : World)

def nowS (a : Arrival) : ℕ := (a.clock 0 - w.host.epoch) / fromSecs 1

def handle (g : Sent) (a : Arrival) : World :=
  let o := w.host.handle libs host { a with d := g.d, source := g.source }
  let begunBy := if o.state.begun = w.host.begun then w.begunBy else w.begunBy ++ [g.number]
  let own := (w.host.find g.source).map fun p => begunBy.getD p.number 0
  { w with
    host := o.state
    begunBy
    stream := o.signed.bind fun c => if c.update_only then none else own.map fun own => ⟨own, c.addr, none⟩ }

def step : Move → World
  | .signIn => { w with sign_in := w.sign_in + 1 }
  | .send d source => { w with sent := w.sent ++ [⟨w.sign_in, d, source⟩] }
  | .arrive i a fastreconnect =>
    match w.sent[i]?, w.stream with
    | some g, some st =>
      if isAuth g.d then { w with stream := some (comeback libs fastreconnect (w.nowS a) g st).1 } else w
    | some g, none => w.handle libs host g a
    | none, _ => w
  | .move peer => { w with stream := w.stream.map fun st => { st with peer := peer } }
  | .finish a =>
    match w.stream.bind Stream.returning with
    -- What ended the stream is the first that the sign-in gets.
    | some g => { w with host := (w.host.tick (a.clock 0)).state, stream := none }.handle libs host g a
    | none => { w with stream := none }
  | .tick now => if w.stream.isSome then w else { w with host := (w.host.tick now).state }

def start (secret : List UInt8) (epoch work : ℕ) : World := ⟨0, [], .new secret epoch work, [], none⟩

/-- Whatever ends a stream is a hello that its client sent in a later sign-in than the stream's own. -/
def Returned : Prop :=
  ∀ st g, w.stream = some st → st.returning = some g →
    g ∈ w.sent ∧ (∃ nonce spake want, AuthMsg.parse libs g.d = some (.hello nonce spake want)) ∧ st.own < g.number

end World

structure Passes (libs : AuthLibs) (fastreconnect : Bool) (now_s : ℕ) (g : Sent) (st : Stream) : Prop where
  source : g.source.ip = st.peer.ip
  first : st.returning = none
  switch : fastreconnect = true
  hello : ∃ nonce spake want bucket, AuthMsg.parse libs g.d = some (.hello nonce spake want) ∧
    want.cookie.bind cookieFromHex = some (mint libs g.source bucket) ∧
    (bucket = now_s / cookieBucketS ∨ bucket + 1 = now_s / cookieBucketS)

def World.Late (libs : AuthLibs) (w : World) : Move → Prop
  | .arrive i a fastreconnect =>
    ∃ g st, w.sent[i]? = some g ∧ w.stream = some st ∧ g.number ≤ st.own ∧ Passes libs fastreconnect (w.nowS a) g st
  | _ => False

section

variable {libs : AuthLibs} {host : Host} {fastreconnect : Bool} {now_s : ℕ} {g : Sent} {st : Stream}

theorem any_checkCookie_iff {cookie : Option (List UInt8)} :
    (cookie.any fun k => checkCookie libs g.source k now_s) = true ↔
      ∃ bucket, cookie = some (mint libs g.source bucket) ∧
        (bucket = now_s / cookieBucketS ∨ bucket + 1 = now_s / cookieBucketS) := by
  rw [Option.any_eq_true]
  refine ⟨fun ⟨k, hk, hcheck⟩ => ?_, fun ⟨bucket, hk, hbucket⟩ => ?_⟩
  · obtain ⟨bucket, hbucket, rfl⟩ := (checkCookie_iff libs).mp hcheck
    exact ⟨bucket, hk, hbucket⟩
  · exact ⟨_, hk, (checkCookie_iff libs).mpr ⟨bucket, hbucket, rfl⟩⟩

theorem comeback_of_passes (h : Passes libs fastreconnect now_s g st) :
    (comeback libs fastreconnect now_s g st).1 = { st with returning := some g } := by
  obtain ⟨nonce, spake, want, bucket, hparse, hcookie, hbucket⟩ := h.hello
  have hcheck := any_checkCookie_iff.mpr ⟨bucket, hcookie, hbucket⟩
  have hcond : ¬ (g.source.ip ≠ st.peer.ip ∨ st.returning.isSome ∨ fastreconnect = false) := by
    simp [h.source, h.first, h.switch]
  rw [comeback, if_neg hcond, hparse]
  dsimp only
  rw [if_pos hcheck]

theorem comeback_of_not_passes (h : ¬ Passes libs fastreconnect now_s g st) :
    (comeback libs fastreconnect now_s g st).1 = st := by
  unfold comeback
  by_cases hcond : g.source.ip ≠ st.peer.ip ∨ st.returning.isSome ∨ fastreconnect = false
  · rw [if_pos hcond]
  · rw [if_neg hcond]
    split
    · rename_i nonce spake want hparse
      rw [if_neg]
      intro hcheck
      obtain ⟨bucket, hcookie, hbucket⟩ := any_checkCookie_iff.mp hcheck
      simp only [not_or, not_not, Bool.not_eq_true, Option.isSome_eq_false_iff, Option.isNone_iff_eq_none,
        Bool.not_eq_false] at hcond
      exact h ⟨hcond.1, hcond.2.1, hcond.2.2, nonce, spake, want, bucket, hparse, hcookie, hbucket⟩
    · rfl

theorem isAuth_of_parse {d : List UInt8} {m : AuthMsg} (h : AuthMsg.parse libs d = some m) : isAuth d = true := by
  unfold AuthMsg.parse at h
  split at h
  · cases h
  · rename_i hcond
    simp only [not_or, not_le, not_not] at hcond
    unfold isAuth
    rw [Bool.and_eq_true, Bool.and_eq_true, beq_iff_eq, beq_iff_eq, decide_eq_true_eq]
    exact ⟨⟨hcond.1, hcond.2.1⟩, hcond.2.2.2⟩

/-! ## Steps -/

variable {w : World}

theorem World.handle_fresh (g : Sent) (a : Arrival) (st : Stream) (h : (w.handle libs host g a).stream = some st) :
    st.returning = none := by
  obtain ⟨c, -, hc⟩ := Option.bind_eq_some_iff.mp h
  split at hc
  · cases hc
  · obtain ⟨own, -, rfl⟩ := Option.map_eq_some_iff.mp hc
    rfl

theorem World.returned_of_fresh (h : ∀ st, w.stream = some st → st.returning = none) : w.Returned libs :=
  fun st g hst hg => absurd ((h st hst).symm.trans hg) (Option.some_ne_none g).symm

theorem World.returned_comeback_iff (hw : w.Returned libs) (hst : w.stream = some st) (hg : g ∈ w.sent) :
    World.Returned libs { w with stream := some (comeback libs fastreconnect now_s g st).1 } ↔
      ¬ (g.number ≤ st.own ∧ Passes libs fastreconnect now_s g st) := by
  by_cases hpasses : Passes libs fastreconnect now_s g st
  · rw [comeback_of_passes hpasses, and_iff_left hpasses, not_le]
    refine ⟨fun h => (h _ g rfl rfl).2.2, fun hlater st' g' hst' hg' => ?_⟩
    cases hst'
    cases hg'
    obtain ⟨nonce, spake, want, _, hparse, -⟩ := hpasses.hello
    exact ⟨hg, ⟨nonce, spake, want, hparse⟩, hlater⟩
  · rw [comeback_of_not_passes hpasses]
    refine ⟨fun _ h => hpasses h.2, fun _ st' g' hst' => ?_⟩
    exact hw st' g' (hst.trans hst')

theorem World.step_returned_iff (hw : w.Returned libs) (m : Move) :
    (w.step libs host m).Returned libs ↔ ¬ w.Late libs m := by
  cases m with
  | signIn => exact iff_of_true hw id
  | send d source =>
    refine iff_of_true (fun st g hst hg => ?_) id
    obtain ⟨hmem, hrest⟩ := hw st g hst hg
    exact ⟨List.mem_append_left _ hmem, hrest⟩
  | arrive i a fastreconnect =>
    rcases hg : w.sent[i]? with _ | g
    · have hstep : w.step libs host (.arrive i a fastreconnect) = w := by
        simp only [World.step, hg]
      rw [hstep]
      refine iff_of_true hw ?_
      rintro ⟨g, _, hg', -⟩
      exact absurd (hg.symm.trans hg') (Option.some_ne_none g).symm
    rcases hst : w.stream with _ | st
    · have hstep : w.step libs host (.arrive i a fastreconnect) = w.handle libs host g a := by
        simp only [World.step, hg, hst]
      rw [hstep]
      refine iff_of_true (World.returned_of_fresh (World.handle_fresh g a)) ?_
      rintro ⟨_, st, -, hst', -⟩
      exact absurd (hst.symm.trans hst') (Option.some_ne_none st).symm
    have hlate : w.Late libs (.arrive i a fastreconnect) ↔
        g.number ≤ st.own ∧ Passes libs fastreconnect (w.nowS a) g st := by
      refine ⟨fun ⟨g', st', hg', hst', h⟩ => ?_, fun h => ⟨g, st, hg, hst, h⟩⟩
      cases hg.symm.trans hg'
      cases hst.symm.trans hst'
      exact h
    rw [hlate]
    by_cases hauth : isAuth g.d = true
    · have hstep : w.step libs host (.arrive i a fastreconnect) =
          { w with stream := some (comeback libs fastreconnect (w.nowS a) g st).1 } := by
        simp only [World.step, hg, hst, if_pos hauth]
      rw [hstep]
      exact World.returned_comeback_iff hw hst (List.mem_of_getElem? hg)
    · have hstep : w.step libs host (.arrive i a fastreconnect) = w := by
        simp only [World.step, hg, hst, if_neg hauth]
      rw [hstep]
      refine iff_of_true hw fun h => hauth ?_
      obtain ⟨_, _, _, _, hparse, -⟩ := h.2.hello
      exact isAuth_of_parse hparse
  | move peer =>
    refine iff_of_true (fun st g hst hg => ?_) id
    obtain ⟨st', hst', rfl⟩ := Option.map_eq_some_iff.mp hst
    exact hw st' g hst' hg
  | finish a =>
    refine iff_of_true (World.returned_of_fresh fun st hst => ?_) id
    unfold World.step at hst
    dsimp only at hst
    split at hst
    · exact World.handle_fresh _ a st hst
    · cases hst
  | tick now =>
    refine iff_of_true ?_ id
    by_cases hst : w.stream.isSome = true
    · have hstep : w.step libs host (.tick now) = w := if_pos hst
      rwa [hstep]
    · have hstep : w.step libs host (.tick now) = { w with host := (w.host.tick now).state } := if_neg hst
      rw [hstep]
      exact hw

end

/-- Throughout a run, whatever ends a stream is a hello of a later sign-in, if and only if no late hello of the
stream's own sign-in, or of an earlier one, arrives while its cookie is still good. -/
theorem returned_iff (libs : AuthLibs) (host : Host) (secret : List UInt8) (epoch work : ℕ) (moves : List Move) :
    (∀ done, done <+: moves → (run (World.step libs host) (.start secret epoch work) done).Returned libs) ↔
      Along (World.step libs host) (fun w m => ¬ w.Late libs m) (.start secret epoch work) moves :=
  always_iff_along (I := World.Returned libs) (fun _ m hw => World.step_returned_iff hw m)
    (World.returned_of_fresh fun _ h => absurd h.symm (Option.some_ne_none _)) moves

def arriving (i now : ℕ) (n : UInt8) (_ : World) : Move :=
  .arrive i ⟨[], clientAddr, fun _ => now, [n], (draw n).nonce,
    fun _ => some { Offer.default with codec := "h264".toList }, 0⟩ true

/-- The client's hello, with the cookie of its address. -/
def helloing (_ : World) : Move :=
  .send ((AuthMsg.hello (draw 1).nonce.val [1] { plainWant with
    cookie := some (cookieToHex (makeCookie plainLibs clientAddr 0)) }).toDatagram plainLibs) clientAddr

def pinging (w : World) : Move :=
  let key := ((w.host.find clientAddr).map (·.key)).getD []
  .send ((Hyper.Wire.Session.withVersion .clientToHost 4).seal (plainLibs.aead key) .control
    (Hyper.Controls.Control.ping 0 0).toBytes).2 clientAddr

def script (w : World) : List (World → Move) → List Move
  | [] => []
  | f :: fs => f w :: script (w.step plainLibs plainHost (f w)) fs

def repeatedHello : List Move :=
  script (.start [1] 0 0) [fun _ => .signIn, helloing, arriving 0 0 3, pinging, arriving 1 0 4, arriving 0 0 5]

theorem World.not_returned_of_own {libs : AuthLibs} {w : World}
    (h : (w.stream.any fun st => st.returning.any fun g => decide (g.number ≤ st.own)) = true) :
    ¬ w.Returned libs := by
  intro hw
  obtain ⟨st, hst, hreturning⟩ := (Option.any_eq_true _ _).mp h
  obtain ⟨g, hg, hown⟩ := (Option.any_eq_true _ _).mp hreturning
  exact absurd (of_decide_eq_true hown) (not_le.mpr (hw st g hst hg).2.2)

/-- The copy of the hello that opened the stream ends it. -/
theorem ended_by_copy : ¬ (run (World.step plainLibs plainHost) (.start [1] 0 0) repeatedHello).Returned plainLibs :=
  World.not_returned_of_own (by decide +kernel)

end Rdpio.Client.Comeback
