import Rdpio.Client.HeldKeys
import Rdpio.Hyper.Auth
import Rdpio.Hyper.Replay

/-!
# The host's receive loop

`receive_loop` and `Shared::send` of `crates/rdp-client/src/hyper_host.rs`, as far as the client's address and
its input go.
-/

namespace Rdpio.Client.HostReceive

open Lib
open Hyper.Wire (Session Aead Kind seqOf replayWindow)
open Hyper.Input (InputReceiver InputEvent)
open HeldKeys (Held)
open Hyper.Auth (SocketAddr)

structure Loop where
  recv : Session
  send : Session
  peer : SocketAddr
  input : InputReceiver
  held : Held
  injected : List InputEvent
  taken : List (UInt64 × SocketAddr)

def Loop.inputReceived (l : Loop) (body : List UInt8) : Loop :=
  let received := l.input.receive body
  { l with
    input := received.1
    held := received.2.foldl Held.note l.held
    injected := l.injected ++ received.2 }

/-- The loop's body for a datagram and its source. -/
def Loop.step (aead : Aead) (l : Loop) (p : List UInt8 × SocketAddr) : Loop :=
  -- The client signing in again: the comeback's to answer.
  if Hyper.Auth.isAuth p.1 then l
  else
    match l.recv.open_ aead p.1 with
    | (_, .error _) => l
    | (recv, .ok (kind, body)) =>
      let l := { l with recv, peer := p.2, taken := l.taken ++ [(seqOf p.1, p.2)] }
      if kind = .input then l.inputReceived body else l

/-- `Shared::send`: the packet, and where it goes. -/
def Loop.sent (l : Loop) (aead : Aead) (kind : Kind) (body : List UInt8) : Loop × List UInt8 × SocketAddr :=
  let sealed := l.send.seal aead kind body
  ({ l with send := sealed.1 }, sealed.2, l.peer)

def Loop.leave (l : Loop) : List InputEvent := l.injected ++ l.held.releaseAll

def openedBefore (aead : Aead) (version : UInt8) (earlier : List (List UInt8)) : Session :=
  earlier.foldl (fun s d => (s.open_ aead d).1) (Session.withVersion .hostToClient version)

def Loop.start (aead : Aead) (version : UInt8) (earlier : List (List UInt8)) (send : Session)
    (signed : SocketAddr) : Loop :=
  ⟨openedBefore aead version earlier, send, signed, .new, {}, [], []⟩

/-! ## What a datagram does -/

/-- A datagram the loop drops, or leaves to the comeback. -/
def Loop.Refuses (aead : Aead) (l : Loop) (p : List UInt8 × SocketAddr) : Prop :=
  Hyper.Auth.isAuth p.1 = true ∨ ∃ e, (l.recv.open_ aead p.1).2 = .error e

theorem Loop.step_cases (aead : Aead) (l : Loop) (p : List UInt8 × SocketAddr) : l.Refuses aead p ∧ l.step aead p = l ∨
      ¬ l.Refuses aead p ∧ l.recv.fresh (seqOf p.1) = true ∧
        (l.step aead p).recv = l.recv.accept (seqOf p.1) ∧ (l.step aead p).peer = p.2 ∧
        (l.step aead p).taken = l.taken ++ [(seqOf p.1, p.2)] := by
  unfold Loop.step Loop.Refuses
  split_ifs with hauth
  · exact .inl ⟨.inl hauth, rfl⟩
  · rcases l.recv.open_cases aead p.1 with ⟨e, he, -⟩ | ⟨⟨kind, body⟩, hr, hfresh⟩
    · refine .inl ⟨.inr ⟨e, by rw [he]⟩, ?_⟩
      rw [he]
    · refine .inr ⟨?_, hfresh, ?_⟩
      · rintro (h | ⟨e, h⟩)
        · exact hauth h
        · rw [hr] at h
          cases h
      · rw [hr]
        dsimp only
        split_ifs <;> exact ⟨rfl, rfl, rfl⟩

structure Loop.Inv (before : List UInt64) (signed : SocketAddr) (l : Loop) : Prop where
  refines : l.recv.Refines (before ++ l.taken.map Prod.fst)
  nodup : (before ++ l.taken.map Prod.fst).Nodup
  near : ∀ pre q post, l.taken = pre ++ q :: post → ∀ r ∈ pre, r.1.toNat - q.1.toNat < replayWindow
  peer : l.peer = (l.taken.getLast?.map Prod.snd).getD signed

theorem Loop.Inv.step {before : List UInt64} {signed : SocketAddr} {l : Loop} (h : l.Inv before signed)
    (aead : Aead) (p : List UInt8 × SocketAddr) : (l.step aead p).Inv before signed := by
  rcases l.step_cases aead p with ⟨-, hsame⟩ | ⟨-, hfresh, hrecv, hpeer, htaken⟩
  · rwa [hsame]
  · obtain ⟨hnew, hnear⟩ := (h.refines.fresh_iff _).mp hfresh
    have hnumbers : before ++ (l.step aead p).taken.map Prod.fst = before ++ l.taken.map Prod.fst ++ [seqOf p.1] := by
      rw [htaken, List.map_append, ← List.append_assoc]
      rfl
    constructor
    · rw [hnumbers, hrecv]
      exact h.refines.accept hfresh
    · rw [hnumbers]
      exact List.Nodup.append h.nodup (List.nodup_singleton _) (List.disjoint_singleton.mpr hnew)
    · intro pre q post hsplit r hr
      rw [htaken] at hsplit
      rcases List.eq_nil_or_concat post with rfl | ⟨post, last, rfl⟩
      · -- The one just taken: within the window of the highest number, so of any.
        obtain ⟨rfl, hq⟩ := List.append_inj' hsplit rfl
        obtain rfl := List.singleton_inj.mp hq
        have hmem : r.1 ∈ before ++ l.taken.map Prod.fst := List.mem_append_right _ (List.mem_map_of_mem hr)
        have hany : l.recv.recv_any = true := h.refines.any.mpr (List.ne_nil_of_mem hmem)
        have htop := UInt64.le_iff_toNat_le.mp (h.refines.le_top _ hmem)
        have := hnear hany
        dsimp only
        omega
      · rw [List.concat_eq_append, ← List.cons_append, ← List.append_assoc] at hsplit
        exact h.near pre q post (List.append_inj' hsplit rfl).1 r hr
    · rw [hpeer, htaken, List.getLast?_concat]
      rfl

theorem exists_refines_openedBefore (aead : Aead) (version : UInt8) (earlier : List (List UInt8)) :
    ∃ before : List UInt64, (openedBefore aead version earlier).Refines before ∧ before.Nodup := by
  unfold openedBefore
  induction earlier using List.reverseRecOn with
  | nil => exact ⟨[], Session.refines_withVersion _ _, List.nodup_nil⟩
  | append_singleton earlier d ih =>
    obtain ⟨before, hrefines, hnodup⟩ := ih
    rw [List.foldl_append]
    generalize earlier.foldl _ _ = s at hrefines ⊢
    rcases s.open_cases aead d with ⟨e, he, -⟩ | ⟨r, hr, hfresh⟩
    · exact ⟨before, by simpa [he] using hrefines, hnodup⟩
    · refine ⟨before ++ [seqOf d], by simpa [hr] using hrefines.accept hfresh, ?_⟩
      have hnew := ((hrefines.fresh_iff _).mp hfresh).1
      exact List.Nodup.append hnodup (List.nodup_singleton _) (List.disjoint_singleton.mpr hnew)

/-- In every run, whatever is offered from wherever: the host sends to the source of the packet taken last, or
where there was none to the address that signed in. -/
theorem peer_follows (aead : Aead) (version : UInt8) (earlier : List (List UInt8)) (send : Session)
    (signed : SocketAddr) (ps : List (List UInt8 × SocketAddr)) :
    let l := run (Loop.step aead) (Loop.start aead version earlier send signed) ps
    (∀ kind body, (l.sent aead kind body).2.2 = (l.taken.getLast?.map Prod.snd).getD signed) ∧
    (l.taken.map Prod.fst).Nodup ∧
    (∀ pre q post, l.taken = pre ++ q :: post → ∀ r ∈ pre, r.1.toNat - q.1.toNat ≤ 1023) ∧
    (∀ p, l.Refuses aead p → l.step aead p = l) ∧
    (∀ p, ¬ l.Refuses aead p → (l.step aead p).taken = l.taken ++ [(seqOf p.1, p.2)]) ∧
    ((l.taken.map Prod.fst).Pairwise (· < ·) → ∀ top ∈ l.taken, (∀ r ∈ l.taken, r.1 ≤ top.1) →
        ∀ kind body, (l.sent aead kind body).2.2 = top.2) := by
  intro l
  obtain ⟨before, hrefines, hnodup⟩ := exists_refines_openedBefore aead version earlier
  have hstart : (Loop.start aead version earlier send signed).Inv before signed :=
    ⟨by simpa [Loop.start] using hrefines, by simpa [Loop.start] using hnodup,
      fun pre q post h => by simp [Loop.start] at h, rfl⟩
  have h : l.Inv before signed := invariant_run _ hstart (fun _ p h => h.step aead p) ps
  refine ⟨fun _ _ => h.peer, (List.nodup_append.mp h.nodup).2.1,
    fun pre q post hsplit r hr => Nat.le_of_lt_succ (h.near pre q post hsplit r hr), fun p hp => ?_,
    fun p hp => ?_, fun hsorted top htop hhighest _ _ => ?_⟩
  · exact (l.step_cases aead p).elim (fun h => h.2) fun h => absurd hp h.1
  · exact (l.step_cases aead p).elim (fun h => absurd h.1 hp) fun h => h.2.2.2.2
  · -- The highest one is the last one.
    change l.peer = top.2
    rw [h.peer]
    rcases List.eq_nil_or_concat l.taken with hnil | ⟨firsts, last, hlast⟩
    · rw [hnil] at htop
      cases htop
    · rw [List.concat_eq_append] at hlast
      rw [hlast, List.getLast?_concat]
      rw [hlast, List.mem_append, List.mem_singleton] at htop
      rcases htop with htop | rfl
      · rw [hlast, List.map_append, List.pairwise_append] at hsorted
        have hlt := hsorted.2.2 _ (List.mem_map_of_mem htop) last.1 (List.mem_singleton_self _)
        have hle := hhighest last (by simp [hlast])
        exact absurd hlt (UInt64.not_lt.mpr hle)
      · rfl

def clearAead : Aead := ⟨fun _ _ body => body ++ List.replicate 16 0, fun _ _ c => some (c.take (c.length - 16))⟩

/-- Two packets of the client's, each sealed once, from two addresses, delivered in the other order: the host sends to
the first one's source, not to the source of the highest number. -/
theorem peer_moves_back :
    let client := Session.withVersion .clientToHost 200
    let first := client.seal clearAead .input []
    let second := first.1.seal clearAead .input []
    let old : SocketAddr := ⟨.v4 0x0A000001, 50000⟩
    let new : SocketAddr := ⟨.v4 0x0A000002, 50000⟩
    let start := Loop.start clearAead 200 [] (.withVersion .hostToClient 200) old
    let l := run (Loop.step clearAead) start [(second.2, new), (first.2, old)]
    l.taken = [(2, new), (1, old)] ∧ (l.sent clearAead .input []).2.2 ≠ new := by
  decide +kernel

theorem tracks_run (aead : Aead) {l : Loop} (h : l.held.Tracks l.injected) (ps : List (List UInt8 × SocketAddr)) :
    (run (Loop.step aead) l ps).held.Tracks (run (Loop.step aead) l ps).injected := by
  refine invariant_run (fun l : Loop => l.held.Tracks l.injected) h (fun l p h => ?_) ps
  unfold Loop.step
  split_ifs
  · exact h
  · split
    · exact h
    · dsimp only
      split_ifs
      · exact h.noteAll _
      · exact h

/-- In every run of the client's loop: after a loss of the focus nothing is down in what was pushed, and a
secure attention sequence comes only while Ctrl and Alt both are. -/
theorem nothing_stuck : (∀ (ts : List HeldKeys.Taken) (t : HeldKeys.Taken), t.raw = .focusLost →
      HeldKeys.AllUp (run HeldKeys.Loop.step {} (ts ++ [t])).pushed) ∧
    (∀ ts : List HeldKeys.Taken, HeldKeys.Guarded (run HeldKeys.Loop.step {} ts).pushed) ∧
    (∀ (ts between : List HeldKeys.Taken) (press last : HeldKeys.Taken), press.raw = .key 0x4F true true →
      let l := run HeldKeys.Loop.step {} ts
      (l.step press).pushed = l.pushed ++ [.secureAttention] →
      (∀ t ∈ between, HeldKeys.Between t) → ¬ HeldKeys.Between last →
      ∃ more more', (run HeldKeys.Loop.step l (press :: between)).pushed = l.pushed ++ .secureAttention :: more ∧
        (run HeldKeys.Loop.step l (press :: between ++ [last])).pushed = l.pushed ++ .secureAttention :: more ++ more' ∧
        ∀ ev ∈ more ++ more', HeldKeys.ofEnd ev = false) ∧
    ∀ (aead : Aead) (version : UInt8) (earlier : List (List UInt8)) (send : Session) (signed : SocketAddr)
      (ps : List (List UInt8 × SocketAddr)),
      HeldKeys.AllUp (run (Loop.step aead) (Loop.start aead version earlier send signed) ps).leave := by
  refine ⟨fun ts t ht => ?_, fun ts => (HeldKeys.Loop.inv_run ts).guarded,
    ?_, fun aead version earlier send signed ps => ?_⟩
  · rw [run_concat, HeldKeys.Loop.step, if_pos ht]
    exact (HeldKeys.Loop.inv_run ts).tracks.releaseAll
  · intro ts between press last hpress l hsas hbetween hlast
    have hswallows := HeldKeys.Loop.swallows_of_attention hpress hsas
    obtain ⟨hlater, more, hpushed, hmore⟩ := hswallows.run hbetween
    obtain ⟨more', hpushed', hmore'⟩ := hlater.last hlast
    have hfirst : (run HeldKeys.Loop.step l (press :: between)).pushed = l.pushed ++ .secureAttention :: more := by
      rw [run_cons, hpushed, hsas, List.append_assoc]
      rfl
    refine ⟨more, more', hfirst, ?_, fun ev hev => ?_⟩
    · rw [run_concat, run_cons, hpushed', ← run_cons (s := l), hfirst]
    · exact (List.mem_append.mp hev).elim (hmore ev) (hmore' ev)
  · exact (tracks_run aead (l := Loop.start aead version earlier send signed) Held.tracks_nil ps).releaseAll

/-- Ctrl, Alt and End, the focus lost, and End released: the client pushes an End up. -/
theorem end_after_focus_loss :
    let view : HeldKeys.View := ⟨0, 0, 1920, 1080⟩
    let take : HeldKeys.RawInput → HeldKeys.Taken := fun raw => ⟨raw, view, false⟩
    (run HeldKeys.Loop.step {} ([.key 0x1D false true, .key 0x38 false true, .key 0x4F true true, .focusLost,
      .key 0x4F true false].map take)).pushed =
      [.key 0x1D false true, .key 0x38 false true, .secureAttention, .key 0x1D false false, .key 0x38 false false,
        .key 0x4F true false] := by
  decide +kernel

end Rdpio.Client.HostReceive
