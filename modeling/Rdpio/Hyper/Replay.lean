import Mathlib.Data.Vector.Basic
import Rdpio.Lib.Bits
import Rdpio.Lib.Loops
import Rdpio.Lib.Run
import Rdpio.Lib.Serial
import Rdpio.Hyper.Wire

/-!
# The replay window

What the window is for is a set: the sequence numbers accepted so far.
-/

namespace Rdpio.Hyper.Wire

open Lib

/-- Bit `i` of a bitmap. -/
def seen (window : Vector UInt64 windowWords) (i : ℕ) : Bool := (window[i / 64]?.getD 0).toNat.testBit (i % 64)

@[simp]
theorem seen_replicate (i : ℕ) : seen (Vector.replicate windowWords 0) i = false := by
  unfold seen
  rw [Vector.getElem?_replicate]
  split_ifs <;> exact Nat.zero_testBit _

theorem seen_eq (window : Vector UInt64 windowWords) (i : ℕ) :
    ((window[i / 64]?.getD 0 &&& 1 <<< UInt64.ofNat (i % 64)) == 0) = !seen window i := by
  have h := and_bit64_ne_zero (window[i / 64]?.getD 0) (Nat.mod_lt i (by decide : 0 < 64))
  unfold seen
  rw [Bool.eq_iff_iff, beq_iff_eq, Bool.not_eq_true', ← not_iff_not, Bool.not_eq_false]
  exact h

theorem seen_setIfInBounds (window : Vector UInt64 windowWords) {b i : ℕ} (hb : b < replayWindow) :
    seen (window.setIfInBounds (b / 64)
      (window[b / 64]?.getD 0 ||| 1 <<< UInt64.ofNat (b % 64))) i = (seen window i || b = i) := by
  have hword : b / 64 < windowWords := by
    have : windowWords = 16 := rfl
    have : replayWindow = 1024 := rfl
    omega
  unfold seen
  rw [Vector.getElem?_setIfInBounds]
  by_cases hw : b / 64 = i / 64
  · rw [if_pos hw, if_pos (hw ▸ hword), Option.getD_some, hw, testBit_or_bit64 _ (Nat.mod_lt b (by decide))]
    congr 1
    rw [decide_eq_decide]
    omega
  · rw [if_neg hw]
    have hne : ¬b = i := fun h => hw (by rw [h])
    simp [hne]

theorem testBit_shiftLeft64 (x : UInt64) {b r : ℕ} (hb : b < 64) (hr : r < 64) :
    (x <<< UInt64.ofNat b).toNat.testBit r = (decide (b ≤ r) && x.toNat.testBit (r - b)) := by
  rw [UInt64.toNat_shiftLeft, UInt64.toNat_ofNat', Nat.mod_eq_of_lt (a := b) (by omega),
    Nat.mod_eq_of_lt hb, Nat.testBit_mod_two_pow, Nat.testBit_shiftLeft]
  simp [hr]

theorem testBit_shiftRight64 (x : UInt64) {b : ℕ} (hb : b < 64) (r : ℕ) :
    (x >>> UInt64.ofNat b).toNat.testBit r = x.toNat.testBit (b + r) := by
  rw [UInt64.toNat_shiftRight, UInt64.toNat_ofNat', Nat.mod_eq_of_lt (a := b) (by omega),
    Nat.mod_eq_of_lt hb, Nat.testBit_shiftRight]

def shiftedWord (words bits : ℕ) (old : Vector UInt64 windowWords) (w : ℕ) : UInt64 :=
  let v := if words ≤ w then old[w - words]?.getD 0 <<< UInt64.ofNat bits else 0
  if 0 < bits ∧ words < w then v ||| old[w - words - 1]?.getD 0 >>> UInt64.ofNat (64 - bits) else v

theorem foldl_shiftWord (words bits : ℕ) (old : Vector UInt64 windowWords) {n : ℕ}
    (hn : n ≤ windowWords) (w : ℕ) :
    ((List.range' (windowWords - n) n).reverse.foldl (shiftWord words bits) old)[w]? =
      if windowWords - n ≤ w ∧ w < windowWords then some (shiftedWord words bits old w)
      else old[w]? := by
  induction n generalizing w with
  | zero => rw [if_neg (by omega)]; rfl
  | succ n ih =>
    have hrange : List.range' (windowWords - (n + 1)) (n + 1) =
        (windowWords - (n + 1)) :: List.range' (windowWords - n) n := by
      rw [List.range'_succ, show windowWords - (n + 1) + 1 = windowWords - n by omega]
    rw [hrange, List.reverse_cons, List.foldl_append, List.foldl_cons, List.foldl_nil]
    have hold : ∀ i ≤ windowWords - (n + 1), ((List.range' (windowWords - n) n).reverse.foldl
        (shiftWord words bits) old)[i]? = old[i]? := by
      intro i hi
      rw [ih (by omega), if_neg (by omega)]
    have hnew := fun i => ih (by omega) i
    generalize (List.range' (windowWords - n) n).reverse.foldl (shiftWord words bits) old = window at hold hnew ⊢
    unfold shiftWord
    dsimp only
    rw [Vector.getElem?_setIfInBounds]
    by_cases hw : windowWords - (n + 1) = w
    · have hin : windowWords - (n + 1) ≤ w ∧ w < windowWords := by omega
      rw [if_pos hw, if_pos (by omega : windowWords - (n + 1) < windowWords), if_pos hin, hw,
        hold _ (by omega), hold _ (by omega)]
      rfl
    · rw [if_neg hw, hnew]
      by_cases hin : windowWords - n ≤ w ∧ w < windowWords
      · rw [if_pos hin, if_pos (by omega)]
      · rw [if_neg hin, if_neg (by omega)]

theorem seen_shift (s : Session) (n : ℕ) {i : ℕ} (hi : i < replayWindow) :
    seen (s.shift n).recv_window i = (decide (n ≤ i) && seen s.recv_window (i - n)) := by
  have hwin : replayWindow = 1024 := rfl
  have hwords : windowWords = 16 := rfl
  unfold Session.shift
  split_ifs with hn
  · rw [seen_replicate, decide_eq_false (by omega), Bool.false_and]
  have hfold := foldl_shiftWord (n / 64) (n % 64) s.recv_window (Nat.le_refl windowWords) (i / 64)
  rw [Nat.sub_self, ← List.range_eq_range', if_pos (by omega)] at hfold
  unfold seen
  dsimp only
  rw [hfold, Option.getD_some]
  unfold shiftedWord
  dsimp only
  have hbits : n % 64 < 64 := Nat.mod_lt n (by decide)
  have hr : i % 64 < 64 := Nat.mod_lt i (by decide)
  -- The bit comes from the word `n / 64` below, or from the one before it.
  by_cases hge : n / 64 ≤ i / 64
  · rw [if_pos hge]
    by_cases hin : n % 64 ≤ i % 64
    · have hni : n ≤ i := by omega
      have hdiv : (i - n) / 64 = i / 64 - n / 64 := by omega
      have hmod : (i - n) % 64 = i % 64 - n % 64 := by omega
      rw [decide_eq_true hni, Bool.true_and, hdiv, hmod]
      split_ifs with hcarry
      · rw [UInt64.toNat_or, Nat.testBit_or, testBit_shiftLeft64 _ hbits hr,
          testBit_shiftRight64 _ (by omega), decide_eq_true hin, Bool.true_and,
          Nat.testBit_lt_two_pow (i := 64 - n % 64 + i % 64), Bool.or_false]
        exact (UInt64.toNat_lt _).trans_le (Nat.pow_le_pow_right (by decide) (by omega))
      · rw [testBit_shiftLeft64 _ hbits hr, decide_eq_true hin, Bool.true_and]
    · by_cases hgt : n / 64 < i / 64
      · have hni : n ≤ i := by omega
        have hdiv : (i - n) / 64 = i / 64 - n / 64 - 1 := by omega
        have hmod : (i - n) % 64 = 64 - n % 64 + i % 64 := by omega
        rw [decide_eq_true hni, Bool.true_and, hdiv, hmod, if_pos ⟨by omega, hgt⟩, UInt64.toNat_or,
          Nat.testBit_or, testBit_shiftLeft64 _ hbits hr, testBit_shiftRight64 _ (by omega),
          decide_eq_false hin, Bool.false_and, Bool.false_or]
      · have hni : ¬n ≤ i := by omega
        rw [decide_eq_false hni, Bool.false_and, if_neg (by omega), testBit_shiftLeft64 _ hbits hr,
          decide_eq_false hin, Bool.false_and]
  · have hni : ¬n ≤ i := by omega
    rw [if_neg hge, if_neg (by omega), decide_eq_false hni, Bool.false_and]
    exact Nat.zero_testBit _

/-! ## The window refines the set accepted -/

structure Session.Refines (s : Session) (accepted : List UInt64) : Prop where
  any : s.recv_any = true ↔ accepted ≠ []
  top_mem : s.recv_any = true → s.recv_top ∈ accepted
  le_top : ∀ q ∈ accepted, q ≤ s.recv_top
  seen_iff : s.recv_any = true → ∀ i < replayWindow,
    (seen s.recv_window i = true ↔ i ≤ s.recv_top.toNat ∧ UInt64.ofNat (s.recv_top.toNat - i) ∈ accepted)

theorem Session.refines_withVersion (dir : Direction) (version : UInt8) :
    (Session.withVersion dir version).Refines [] where
  any := by simp [Session.withVersion]
  top_mem h := by simp [Session.withVersion] at h
  le_top q hq := absurd hq List.not_mem_nil
  seen_iff h := by simp [Session.withVersion] at h

theorem toNat_sub64 {a b : UInt64} (h : b ≤ a) : (a - b).toNat = a.toNat - b.toNat := UInt64.toNat_sub_of_le a b h

theorem Session.Refines.fresh_iff {s : Session} {accepted : List UInt64} (h : s.Refines accepted)
    (seq : UInt64) : s.fresh seq = true ↔
      seq ∉ accepted ∧ (s.recv_any = true → s.recv_top.toNat - seq.toNat < replayWindow) := by
  unfold Session.fresh
  cases hany : s.recv_any with
  | false =>
    have hnil : accepted = [] := by
      by_contra hne
      rw [h.any.mpr hne] at hany
      exact absurd hany (by decide)
    simp [hnil]
  | true =>
    by_cases hlt : s.recv_top < seq
    · have hnat := UInt64.lt_iff_toNat_lt.mp hlt
      have hnot : seq ∉ accepted := fun hmem => by
        have := UInt64.le_iff_toNat_le.mp (h.le_top seq hmem)
        omega
      have hpos : s.recv_top.toNat - seq.toNat < replayWindow := by
        rw [Nat.sub_eq_zero_of_le (by omega)]
        decide
      simp [hlt, hnot, hpos]
    · have hle : seq ≤ s.recv_top := UInt64.not_lt.mp hlt
      have hnat := UInt64.le_iff_toNat_le.mp hle
      simp only [hlt, Bool.not_true, decide_false, Bool.or_self, Bool.false_eq_true, if_false, seen_eq,
        toNat_sub64 hle, Bool.and_eq_true, decide_eq_true_eq, Bool.not_eq_true', true_imp_iff]
      rw [and_comm, and_congr_left]
      intro hback
      have hiff := h.seen_iff hany _ hback
      have hseq : UInt64.ofNat (s.recv_top.toNat - (s.recv_top.toNat - seq.toNat)) = seq := by
        rw [Nat.sub_sub_self hnat, UInt64.ofNat_toNat]
      rw [hseq] at hiff
      rw [← Bool.not_eq_true, hiff]
      exact ⟨fun hn hmem => hn ⟨Nat.sub_le _ _, hmem⟩, fun hn hmem => hn hmem.2⟩

theorem Session.Refines.mark {s : Session} {accepted : List UInt64} {seq : UInt64}
    (hany : s.recv_any = true) (htop : s.recv_top ∈ accepted ++ [seq]) (hseq : seq ≤ s.recv_top)
    (hle : ∀ q ∈ accepted, q ≤ s.recv_top)
    (hnear : (s.recv_top - seq).toNat < replayWindow)
    (hseen : ∀ i < replayWindow, (seen s.recv_window i = true ↔
      i ≤ s.recv_top.toNat ∧ UInt64.ofNat (s.recv_top.toNat - i) ∈ accepted)) :
    let back := (s.recv_top - seq).toNat
    let word := s.recv_window[back / 64]?.getD 0 ||| 1 <<< UInt64.ofNat (back % 64)
    Session.Refines { s with recv_window := s.recv_window.setIfInBounds (back / 64) word }
      (accepted ++ [seq]) := by
  intro back word
  refine ⟨by simp [hany], fun _ => htop, ?_, fun _ i hi => ?_⟩
  · intro q hq
    rcases List.mem_append.mp hq with hq | hq
    · exact hle q hq
    · rw [List.mem_singleton.mp hq]
      exact hseq
  · have hnat := UInt64.le_iff_toNat_le.mp hseq
    have hback : back = s.recv_top.toNat - seq.toNat := toNat_sub64 hseq
    change seen (s.recv_window.setIfInBounds (back / 64) word) i = true ↔
      i ≤ s.recv_top.toNat ∧ UInt64.ofNat (s.recv_top.toNat - i) ∈ accepted ++ [seq]
    rw [seen_setIfInBounds _ hnear, Bool.or_eq_true, hseen i hi, decide_eq_true_eq, List.mem_append,
      List.mem_singleton, and_or_left]
    refine or_congr_right ?_
    constructor
    · rintro rfl
      rw [toNat_sub64 hseq, Nat.sub_sub_self hnat, UInt64.ofNat_toNat]
      exact ⟨Nat.sub_le _ _, rfl⟩
    · rintro ⟨hle, heq⟩
      have hto := congrArg UInt64.toNat heq
      rw [UInt64.toNat_ofNat', Nat.mod_eq_of_lt ((Nat.sub_le _ _).trans_lt (UInt64.toNat_lt _))] at hto
      omega

theorem Session.Refines.accept {s : Session} {accepted : List UInt64} (h : s.Refines accepted)
    {seq : UInt64} (hfresh : s.fresh seq = true) : (s.accept seq).Refines (accepted ++ [seq]) := by
  obtain ⟨-, hnear⟩ := (h.fresh_iff seq).mp hfresh
  unfold Session.accept
  cases hany : s.recv_any with
  | false =>
    -- The first packet.
    have hnil : accepted = [] := by
      by_contra hne
      rw [h.any.mpr hne] at hany
      exact absurd hany (by decide)
    subst hnil
    refine Session.Refines.mark rfl (List.mem_singleton_self seq) (UInt64.le_refl seq)
      (fun q hq => absurd hq List.not_mem_nil) ?_ fun i _ => ?_
    · change (seq - seq).toNat < replayWindow
      rw [UInt64.sub_self]
      decide
    · simp
  | true =>
    rw [Bool.not_true, if_neg (by decide)]
    by_cases hlt : s.recv_top < seq
    · -- A new highest number: the bitmap is aged first.
      have hnat := UInt64.lt_iff_toNat_lt.mp hlt
      have hsub := toNat_sub64 (UInt64.le_of_lt hlt)
      rw [if_pos hlt]
      refine Session.Refines.mark (s := { s.shift (seq - s.recv_top).toNat with recv_top := seq })
        ?_ (List.mem_append_right _ (List.mem_singleton_self seq)) (UInt64.le_refl seq) ?_ ?_ ?_
      · change (s.shift _).recv_any = true
        unfold Session.shift
        split_ifs <;> exact hany
      · exact fun q hq => UInt64.le_trans (h.le_top q hq) (UInt64.le_of_lt hlt)
      · change (seq - seq).toNat < replayWindow
        rw [UInt64.sub_self]
        decide
      · intro i hi
        change seen (s.shift (seq - s.recv_top).toNat).recv_window i = true ↔
          i ≤ seq.toNat ∧ UInt64.ofNat (seq.toNat - i) ∈ accepted
        rw [seen_shift s _ hi, hsub, Bool.and_eq_true, decide_eq_true_eq]
        by_cases hni : seq.toNat - s.recv_top.toNat ≤ i
        · rw [h.seen_iff hany _ (by omega),
            show s.recv_top.toNat - (i - (seq.toNat - s.recv_top.toNat)) = seq.toNat - i by omega]
          refine ⟨fun hs => ⟨by omega, hs.2.2⟩, fun hs => ⟨hni, by omega, hs.2⟩⟩
        · refine ⟨fun hs => absurd hs.1 hni, fun hs => absurd (h.le_top _ hs.2) ?_⟩
          rw [UInt64.le_iff_toNat_le, UInt64.toNat_ofNat',
            Nat.mod_eq_of_lt ((Nat.sub_le _ _).trans_lt (UInt64.toNat_lt _))]
          omega
    · -- A late packet.
      rw [if_neg hlt]
      have hle : seq ≤ s.recv_top := UInt64.not_lt.mp hlt
      refine Session.Refines.mark hany (List.mem_append_left _ (h.top_mem hany)) hle h.le_top ?_ (h.seen_iff hany)
      rw [toNat_sub64 hle]
      exact hnear hany

/-! ## Runs -/

structure World where
  peer : Session
  session : Session
  sealed : List (List UInt8)
  accepted : List (List UInt8)

inductive Action where
  | sealPeer (kind : Kind) (body : List UInt8)
  | sealOwn (kind : Kind) (body : List UInt8)
  | offer (datagram : List UInt8)
  | offerInPlace (datagram : List UInt8)

def World.opened (w : World) (datagram : List UInt8)
    (r : Session × Except OpenError (Kind × List UInt8)) : World :=
  { w with
    session := r.1
    accepted := if r.2.isOk then w.accepted ++ [datagram] else w.accepted }

def World.step (aead : Aead) (w : World) : Action → World
  | .sealPeer kind body =>
    let p := w.peer.seal aead kind body
    { w with peer := p.1, sealed := w.sealed ++ [p.2] }
  | .sealOwn kind body => { w with session := (w.session.seal aead kind body).1 }
  | .offer datagram => w.opened datagram (w.session.open_ aead datagram)
  | .offerInPlace datagram => w.opened datagram (w.session.openInPlace aead datagram)

def World.new (dir : Direction) (version peerVersion : UInt8) : World :=
  ⟨Session.withVersion dir.reverse peerVersion, Session.withVersion dir version, [], []⟩

def World.after (aead : Aead) (dir : Direction) (version peerVersion : UInt8) (as : List Action) : World :=
  run (World.step aead) (World.new dir version peerVersion) as

def World.numbers (w : World) : List UInt64 := w.accepted.map seqOf

theorem Session.fresh_of_check {s : Session} {datagram : List UInt8} {kind : Kind} {seq : UInt64}
    (h : s.check datagram = .ok (kind, seq)) : seq = seqOf datagram ∧ s.fresh seq = true := by
  unfold Session.check at h
  split at h
  · simp at h
  · split at h
    · simp at h
    · split_ifs at h with hversion hfresh
      rw [Except.ok.injEq, Prod.mk.injEq] at h
      rw [← h.2]
      exact ⟨rfl, by simpa using hfresh⟩

theorem Session.open_cases (s : Session) (aead : Aead) (datagram : List UInt8) :
    (∃ e, s.open_ aead datagram = (s, .error e) ∧ (e = .replay → s.check datagram = .error .replay)) ∨
    ∃ r, s.open_ aead datagram = (s.accept (seqOf datagram), .ok r) ∧ s.fresh (seqOf datagram) = true := by
  unfold Session.open_
  split
  · next e he => exact .inl ⟨e, rfl, fun h => by rw [he, h]⟩
  · next kind seq hok =>
    obtain ⟨rfl, hfresh⟩ := Session.fresh_of_check hok
    split
    · exact .inl ⟨.auth, rfl, fun h => absurd h (by decide)⟩
    · next body _ => exact .inr ⟨(kind, body), rfl, hfresh⟩

/-- The window refines the set of numbers accepted, each of them accepted once. -/
structure World.Inv (w : World) : Prop where
  refines : w.session.Refines w.numbers
  nodup : w.numbers.Nodup

theorem World.Inv.opened {w : World} (h : w.Inv) (aead : Aead) (datagram : List UInt8) :
    (w.opened datagram (w.session.open_ aead datagram)).Inv := by
  rcases w.session.open_cases aead datagram with ⟨e, he, -⟩ | ⟨r, hr, hfresh⟩
  · rw [he]
    exact h
  · rw [hr]
    have hnumbers : (w.opened datagram (w.session.accept (seqOf datagram), .ok r)).numbers =
        w.numbers ++ [seqOf datagram] := by
      simp [World.opened, World.numbers, Except.isOk, Except.toBool]
    constructor
    · rw [hnumbers]
      exact h.refines.accept hfresh
    · rw [hnumbers]
      refine List.Nodup.append h.nodup (List.nodup_singleton _) ?_
      rw [List.disjoint_singleton]
      exact ((h.refines.fresh_iff _).mp hfresh).1

theorem World.inv_after (aead : Aead) (dir : Direction) (version peerVersion : UInt8)
    (as : List Action) : (World.after aead dir version peerVersion as).Inv := by
  have hnew : (World.new dir version peerVersion).Inv := ⟨Session.refines_withVersion dir version, List.nodup_nil⟩
  refine invariant_run World.Inv hnew ?_ as
  intro w a h
  cases a with
  | sealPeer kind body => exact ⟨h.refines, h.nodup⟩
  | sealOwn kind body => exact ⟨⟨h.refines.any, h.refines.top_mem, h.refines.le_top, h.refines.seen_iff⟩, h.nodup⟩
  | offer datagram => exact h.opened aead datagram
  | offerInPlace datagram => exact h.opened aead datagram

/-- Whatever a session is offered: it accepts each datagram, sealed or not, at most once, and no two with
one number; it refuses none as a replay that was not accepted and whose number is at most 1023 behind
the highest one accepted; what it refuses leaves it as it was; and the window is the set of the numbers
accepted, from the highest one down. -/
theorem replay_window (aead : Aead) (dir : Direction) (version peerVersion : UInt8)
    (as : List Action) :
    let w := World.after aead dir version peerVersion as
    (∀ datagram ∈ w.sealed, w.accepted.count datagram ≤ 1) ∧ w.numbers.Nodup ∧
    (∀ datagram, seqOf datagram ∉ w.numbers → (∀ q ∈ w.numbers, q.toNat - (seqOf datagram).toNat ≤ 1023) →
      (w.session.open_ aead datagram).2 ≠ .error .replay ∧
      (w.session.openInPlace aead datagram).2 ≠ .error .replay) ∧
    (∀ datagram e, ((w.session.open_ aead datagram).2 = .error e → (w.session.open_ aead datagram).1 = w.session) ∧
      ((w.session.openInPlace aead datagram).2 = .error e → (w.session.openInPlace aead datagram).1 = w.session)) ∧
    w.session.Refines w.numbers := by
  intro w
  have h : w.Inv := World.inv_after aead dir version peerVersion as
  have hrefused : ∀ datagram e, (w.session.open_ aead datagram).2 = .error e →
      (w.session.open_ aead datagram).1 = w.session := by
    intro datagram e he
    rcases w.session.open_cases aead datagram with ⟨e', he', -⟩ | ⟨r, hr, -⟩
    · rw [he']
    · rw [hr] at he
      exact absurd he (by simp)
  have hkept : ∀ datagram, seqOf datagram ∉ w.numbers → (∀ q ∈ w.numbers, q.toNat - (seqOf datagram).toNat ≤ 1023) →
      (w.session.open_ aead datagram).2 ≠ .error .replay := by
    intro datagram hnot hnear hreplay
    have hfresh : w.session.fresh (seqOf datagram) = true :=
      (h.refines.fresh_iff _).mpr ⟨hnot, fun hany => Nat.lt_succ_of_le (hnear _ (h.refines.top_mem hany))⟩
    rcases w.session.open_cases aead datagram with ⟨e, he, hcheck⟩ | ⟨r, hr, -⟩
    · rw [he, Except.error.injEq] at hreplay
      have hstale := hcheck hreplay
      unfold Session.check at hstale
      split at hstale
      · simp at hstale
      · split at hstale
        · simp at hstale
        · split_ifs at hstale with hversion hold
          · simp at hstale
          · rw [hfresh] at hold
            exact absurd hold (by decide)
    · rw [hr] at hreplay
      exact absurd hreplay (by simp)
  refine ⟨fun datagram _ => ?_, h.nodup, fun d hnot hnear => ⟨hkept d hnot hnear, hkept d hnot hnear⟩,
    fun d e => ⟨hrefused d e, hrefused d e⟩, h.refines⟩
  exact List.nodup_iff_count_le_one.mp (List.Nodup.of_map seqOf h.nodup) datagram

end Rdpio.Hyper.Wire
