import Mathlib.Algebra.Group.Nat.Even
import Mathlib.Data.List.AList

/-!
# Sign-in lockout

`Lockout` of `crates/rdp-hyper/src/auth.rs`: failed attempts are counted per source address, five of them block it, and a full table of blocked addresses sends further ones to one overflow entry.
-/

namespace Rdpio.Hyper.Auth

def fromSecs (s : ℕ) : ℕ := s * 1000000000

def freeFailures : ℕ := 5

def maxTracked : ℕ := 4096

def firstBlock : ℕ := fromSecs 30

def maxBlock : ℕ := fromSecs 3600

abbrev Strikes := ℕ × Option ℕ

def blockFor (n : ℕ) : ℕ := min (firstBlock * 2^(min (n - freeFailures) 10)) maxBlock

def strike (e : Strikes) (now : ℕ) : Strikes :=
  let n := e.1 + 1
  (n, if freeFailures ≤ n then some (now + blockFor n) else e.2)

variable {Ip : Type*} [DecidableEq Ip]

/-- Failed-attempt accounting per source address. -/
structure Lockout (Ip : Type*) where
  by_ip : AList fun _ : Ip => Strikes
  overflow : Strikes

namespace Lockout

def new : Lockout Ip := ⟨∅, (0, none)⟩

def full (l : Lockout Ip) : Bool := maxTracked ≤ l.by_ip.entries.length

/-- The entry that `ip` is looked up in. -/
def entry (l : Lockout Ip) (ip : Ip) : Option Strikes :=
  (l.by_ip.lookup ip).or (if l.full then some l.overflow else none)

/-- The time left, if `ip` is blocked. -/
def check (l : Lockout Ip) (ip : Ip) (now : ℕ) : Except ℕ Unit :=
  match l.entry ip with
  | some (_, some until_) => if now < until_ then .error (until_ - now) else .ok ()
  | _ => .ok ()

def retainBlocked (l : Lockout Ip) (now : ℕ) : Lockout Ip :=
  { l with by_ip := ⟨l.by_ip.entries.filter fun e => e.2.2.any (now < ·),
      l.by_ip.nodupKeys.sublist List.filter_sublist⟩ }

/-- One more failure in the entry of `ip`. -/
def strikeIp (l : Lockout Ip) (ip : Ip) (now : ℕ) : Lockout Ip :=
  { l with by_ip := l.by_ip.insert ip (strike ((l.by_ip.lookup ip).getD (0, none)) now) }

def fail (l : Lockout Ip) (ip : Ip) (now : ℕ) : Lockout Ip :=
  if l.full && ip ∉ l.by_ip then
    let l := l.retainBlocked now
    if l.full then { l with overflow := strike l.overflow now } else l.strikeIp ip now
  else l.strikeIp ip now

def succeed (l : Lockout Ip) (ip : Ip) : Lockout Ip := { l with by_ip := l.by_ip.erase ip }

end Lockout

inductive IpAddr where
  | v4 (bits : UInt32)
  | v6 (bits : BitVec 128)
deriving DecidableEq

/-- What an address does. -/
inductive Action (Ip : Type*) where
  | fail (ip : Ip)
  | succeed (ip : Ip)

structure Watch (Ip : Type*) where
  lockout : Lockout Ip
  failures : ℕ
  last : ℕ

def Lockout.act (l : Lockout Ip) (now : ℕ) : Action Ip → Lockout Ip
  | .fail x => l.fail x now
  | .succeed x => l.succeed x

def Watch.step (ip : Ip) (w : Watch Ip) (now : ℕ) (a : Action Ip) : Watch Ip :=
  let l := w.lockout.act now a
  if ip ∉ l.by_ip then ⟨l, 0, w.last⟩
  else
    match a with
    | .fail x => if x = ip then ⟨l, w.failures + 1, now⟩ else ⟨l, w.failures, w.last⟩
    | .succeed _ => ⟨l, w.failures, w.last⟩

inductive Run (ip : Ip) : Watch Ip → ℕ → Watch Ip → ℕ → Prop
  | refl (w : Watch Ip) (t : ℕ) : Run ip w t w t
  | wait {w w' : Watch Ip} {t t' now : ℕ} : Run ip w t w' t' → t' ≤ now → Run ip w t w' now
  | act {w w' : Watch Ip} {t t' now : ℕ} (a : Action Ip) : Run ip w t w' t' → t' ≤ now →
      (∀ x, a = .succeed x → w'.lockout.check x now = .ok ()) →
      Run ip w t (w'.step ip now a) now

theorem blockFor_le_succ (n : ℕ) : blockFor n ≤ blockFor (n + 1) := by
  unfold blockFor
  have hexp : min (n - freeFailures) 10 ≤ min (n + 1 - freeFailures) 10 := by omega
  have hpow := Nat.mul_le_mul_left firstBlock (Nat.pow_le_pow_right (show 0 < 2 by decide) hexp)
  omega

/-- An entry whose last failure was no later than `t`. -/
def Sound (t : ℕ) (e : Strikes) : Prop := ∀ u ∈ e.2, u ≤ t + blockFor e.1

theorem Sound.mono {t t' : ℕ} {e : Strikes} (h : Sound t e) (ht : t ≤ t') : Sound t' e := by
  intro u hu
  have := h u hu
  omega

theorem strike_of_few {e : Strikes} {now : ℕ} (h : e.1 + 1 < freeFailures) : strike e now = (e.1 + 1, e.2) := by
  simp only [strike, if_neg (Nat.not_le.mpr h)]

theorem strike_of_enough {e : Strikes} {now : ℕ} (h : freeFailures ≤ e.1 + 1) :
    strike e now = (e.1 + 1, some (now + blockFor (e.1 + 1))) := by
  simp only [strike, if_pos h]

theorem Sound.strike {t now : ℕ} {e : Strikes} (h : Sound t e) (ht : t ≤ now) : Sound now (strike e now) := by
  intro u hu
  by_cases hn : freeFailures ≤ e.1 + 1
  · rw [strike_of_enough hn] at hu ⊢
    exact Nat.le_of_eq (Option.mem_some_iff.mp hu).symm
  · rw [strike_of_few (Nat.not_le.mp hn)] at hu ⊢
    have hu' : u ≤ t + blockFor e.1 := h u hu
    have hle := blockFor_le_succ e.1
    change u ≤ now + blockFor (e.1 + 1)
    omega

/-- A block that lasts until `u` or longer. -/
def BlockedTo (u : ℕ) (e : Strikes) : Prop := ∃ u' ∈ e.2, u ≤ u'

theorem BlockedTo.strike {t now u : ℕ} {e : Strikes} (h : BlockedTo u e) (hs : Sound t e)
    (ht : t ≤ now) : BlockedTo u (strike e now) := by
  obtain ⟨u', hu', hle⟩ := h
  by_cases hn : freeFailures ≤ e.1 + 1
  · rw [strike_of_enough hn]
    refine ⟨_, rfl, ?_⟩
    have := hs u' hu'
    have := blockFor_le_succ e.1
    omega
  · rw [strike_of_few (Nat.not_le.mp hn)]
    exact ⟨u', hu', hle⟩

namespace Lockout

variable {l : Lockout Ip} {ip x : Ip} {now : ℕ}

theorem lookup_retainBlocked (l : Lockout Ip) (ip : Ip) (now : ℕ) : (l.retainBlocked now).by_ip.lookup ip =
      (l.by_ip.lookup ip).filter fun e => e.2.any (now < ·) := by
  ext e
  rw [Option.filter_eq_some_iff, ← Option.mem_def, ← Option.mem_def, AList.mem_lookup_iff, AList.mem_lookup_iff]
  exact List.mem_filter

theorem lookup_strikeIp_self (l : Lockout Ip) (ip : Ip) (now : ℕ) : (l.strikeIp ip now).by_ip.lookup ip =
      some (strike ((l.by_ip.lookup ip).getD (0, none)) now) := AList.lookup_insert _

theorem lookup_strikeIp_of_ne (l : Lockout Ip) (h : ip ≠ x) :
    (l.strikeIp x now).by_ip.lookup ip = l.by_ip.lookup ip := AList.lookup_insert_ne h

theorem lookup_fail_self {e : Strikes} (h : l.by_ip.lookup ip = some e) :
    (l.fail ip now).by_ip.lookup ip = some (strike e now) := by
  have hmem : ip ∈ l.by_ip := AList.lookup_isSome.mp (by rw [h]; rfl)
  unfold fail
  rw [if_neg (by simp [hmem]), lookup_strikeIp_self, h]
  rfl

theorem lookup_fail_fresh (now : ℕ) (h : l.by_ip.lookup ip = none) : (l.fail ip now).by_ip.lookup ip = none ∨
      (l.fail ip now).by_ip.lookup ip = some (strike (0, none) now) := by
  have hret : (l.retainBlocked now).by_ip.lookup ip = none := by
    rw [lookup_retainBlocked, h]
    rfl
  unfold fail
  dsimp only
  split_ifs
  · exact .inl hret
  · exact .inr (by rw [lookup_strikeIp_self, hret]; rfl)
  · exact .inr (by rw [lookup_strikeIp_self, h]; rfl)

theorem lookup_fail_of_ne (l : Lockout Ip) (now : ℕ) (h : ip ≠ x) : (l.fail x now).by_ip.lookup ip = l.by_ip.lookup ip ∨
      (l.fail x now).by_ip.lookup ip = (l.by_ip.lookup ip).filter fun e => e.2.any (now < ·) := by
  unfold fail
  dsimp only
  split_ifs
  · exact .inr (lookup_retainBlocked l ip now)
  · exact .inr (by rw [lookup_strikeIp_of_ne _ h, lookup_retainBlocked])
  · exact .inl (lookup_strikeIp_of_ne l h)

theorem lookup_of_act (l : Lockout Ip) {a : Action Ip} {e : Strikes} (ha : a ≠ .fail ip)
    (h : (l.act now a).by_ip.lookup ip = some e) : l.by_ip.lookup ip = some e := by
  cases a with
  | succeed x =>
    by_cases hx : ip = x
    · subst hx
      rw [act, succeed, AList.lookup_erase] at h
      cases h
    · rwa [act, succeed, AList.lookup_erase_ne hx] at h
  | fail x =>
    have hx : ip ≠ x := fun hx => ha (by rw [hx])
    rcases l.lookup_fail_of_ne now hx with h' | h'
    · rwa [act, h'] at h
    · rw [act, h', Option.filter_eq_some_iff] at h
      exact h.1

theorem overflow_act (l : Lockout Ip) (now : ℕ) (a : Action Ip) :
    (l.act now a).overflow = l.overflow ∨ (l.act now a).overflow = strike l.overflow now := by
  cases a with
  | succeed x => exact .inl rfl
  | fail x =>
    unfold act fail
    dsimp only
    split_ifs
    · exact .inr rfl
    · exact .inl rfl
    · exact .inl rfl

theorem entry_own {e : Strikes} (h : l.by_ip.lookup ip = some e) : l.entry ip = some e := by
  rw [entry, h, Option.some_or]

theorem entry_overflow (h : ip ∉ l.by_ip) (hfull : l.full) : l.entry ip = some l.overflow := by
  rw [entry, AList.lookup_eq_none.mpr h, Option.none_or, if_pos hfull]

theorem check_of_blockedTo {e : Strikes} {u : ℕ} (h : l.entry ip = some e) (hb : BlockedTo u e)
    (hu : now < u) : ∃ r, l.check ip now = .error r := by
  obtain ⟨n, until_⟩ := e
  obtain ⟨u', hu', hle⟩ := hb
  cases hu'
  refine ⟨u' - now, ?_⟩
  unfold check
  rw [h]
  exact if_pos (by omega)

theorem blockedTo_of_check {r : ℕ} (h : l.check ip now = .error r) :
    ∃ e, l.entry ip = some e ∧ BlockedTo (now + r) e := by
  unfold check at h
  split at h
  · next n u he =>
    refine ⟨_, he, u, rfl, ?_⟩
    split_ifs at h with hlt
    cases h
    omega
  · cases h

end Lockout

/-! ## Runs keep the block -/

/-- What is known of the watched address at time `t`. -/
structure Watch.Inv (ip : Ip) (w : Watch Ip) (t : ℕ) : Prop where
  own : ∀ e, w.lockout.by_ip.lookup ip = some e → Sound t e
  overflow : Sound t w.lockout.overflow
  failures : ∀ e, w.lockout.by_ip.lookup ip = some e → e.1 = w.failures
  last : ∀ e, w.lockout.by_ip.lookup ip = some e → freeFailures ≤ w.failures → e.2 = some (w.last + blockFor w.failures)
  fresh : w.lockout.by_ip.lookup ip = none → w.failures = 0

variable {ip : Ip} {w w' : Watch Ip} {t t' now : ℕ}

namespace Watch

theorem step_of_none {a : Action Ip} (h : (w.lockout.act now a).by_ip.lookup ip = none) :
    w.step ip now a = ⟨w.lockout.act now a, 0, w.last⟩ :=
  if_pos (AList.lookup_eq_none.mp h)

theorem step_fail_self {e : Strikes} (h : (w.lockout.fail ip now).by_ip.lookup ip = some e) :
    w.step ip now (.fail ip) = ⟨w.lockout.fail ip now, w.failures + 1, now⟩ := by
  have hmem : ip ∈ (w.lockout.fail ip now).by_ip := AList.lookup_isSome.mp (by rw [h]; rfl)
  exact (if_neg (not_not.mpr hmem)).trans (if_pos rfl)

theorem step_other {a : Action Ip} {e : Strikes} (ha : a ≠ .fail ip)
    (h : (w.lockout.act now a).by_ip.lookup ip = some e) :
    w.step ip now a = ⟨w.lockout.act now a, w.failures, w.last⟩ := by
  have hmem : ip ∈ (w.lockout.act now a).by_ip := AList.lookup_isSome.mp (by rw [h]; rfl)
  refine (if_neg (not_not.mpr hmem)).trans ?_
  cases a with
  | succeed x => rfl
  | fail x => exact if_neg fun hx => ha (by rw [hx])

theorem lockout_step (ip : Ip) (w : Watch Ip) (now : ℕ) (a : Action Ip) :
    (w.step ip now a).lockout = w.lockout.act now a := by
  cases h : (w.lockout.act now a).by_ip.lookup ip with
  | none => rw [step_of_none h]
  | some e =>
    by_cases ha : a = .fail ip
    · subst ha
      rw [step_fail_self h]
      rfl
    · rw [step_other ha h]

theorem Inv.struck (ht : t ≤ now) {e : Strikes} {l : Lockout Ip} {n : ℕ} (hs : Sound t e)
    (hn : e.1 = n) (hover : Sound now l.overflow)
    (hl : l.by_ip.lookup ip = some (strike e now)) : Inv ip ⟨l, n + 1, now⟩ now where
  own e' he' := by
    rw [hl] at he'
    cases he'
    exact hs.strike ht
  overflow := hover
  failures e' he' := by
    rw [hl] at he'
    cases he'
    rw [← hn]
    rfl
  last e' he' hfree := by
    rw [hl] at he'
    cases he'
    subst hn
    rw [strike_of_enough hfree]
  fresh h := by rw [hl] at h; cases h

theorem Inv.step (hi : w.Inv ip t) (ht : t ≤ now) (a : Action Ip) : (w.step ip now a).Inv ip now := by
  have hover : Sound now (w.lockout.act now a).overflow := by
    rcases w.lockout.overflow_act now a with h | h
    · rw [h]
      exact hi.overflow.mono ht
    · rw [h]
      exact hi.overflow.strike ht
  cases hl : (w.lockout.act now a).by_ip.lookup ip with
  | none =>
    rw [step_of_none hl]
    constructor
    case overflow => exact hover
    case fresh => exact fun _ => rfl
    all_goals intro e he; rw [hl] at he; cases he
  | some e =>
    by_cases ha : a = .fail ip
    · subst ha
      rw [step_fail_self hl]
      cases hold : w.lockout.by_ip.lookup ip with
      | some e0 => exact Inv.struck ht (hi.own e0 hold) (hi.failures e0 hold) hover (Lockout.lookup_fail_self hold)
      | none =>
        have hstrike := (Lockout.lookup_fail_fresh now hold).resolve_left
          fun h => by rw [Lockout.act, h] at hl; cases hl
        exact Inv.struck ht (fun u hu => by cases hu) (hi.fresh hold).symm hover hstrike
    · rw [step_other ha hl]
      have hold := w.lockout.lookup_of_act ha hl
      constructor
      case own => exact fun e' he' => (hi.own e' (by rwa [hold, ← hl])).mono ht
      case overflow => exact hover
      case failures => exact fun e' he' => hi.failures e' (by rwa [hold, ← hl])
      case last => exact fun e' he' => hi.last e' (by rwa [hold, ← hl])
      case fresh => exact fun h => by rw [hl] at h; cases h

theorem Inv.step_blocked (hi : w.Inv ip t) (ht : t ≤ now) {a : Action Ip}
    (hok : ∀ x, a = .succeed x → w.lockout.check x now = .ok ()) {u : ℕ} (hu : now < u) {e : Strikes}
    (he : w.lockout.by_ip.lookup ip = some e) (hb : BlockedTo u e) :
    ∃ e', (w.lockout.act now a).by_ip.lookup ip = some e' ∧ BlockedTo u e' := by
  cases a with
  | succeed x =>
    have hx : ip ≠ x := by
      rintro rfl
      obtain ⟨r, hr⟩ := Lockout.check_of_blockedTo (Lockout.entry_own he) hb hu
      rw [hok ip rfl] at hr
      cases hr
    exact ⟨e, by rw [Lockout.act, Lockout.succeed, AList.lookup_erase_ne hx, he], hb⟩
  | fail x =>
    by_cases hx : ip = x
    · subst hx
      exact ⟨_, Lockout.lookup_fail_self he, hb.strike (hi.own e he) ht⟩
    · rcases w.lockout.lookup_fail_of_ne now hx with h | h
      · exact ⟨e, by rw [Lockout.act, h, he], hb⟩
      · -- The purge keeps what blocks.
        obtain ⟨u', hu', hle⟩ := hb
        refine ⟨e, ?_, u', hu', hle⟩
        rw [Lockout.act, h, he, Option.filter_some, if_pos]
        rw [hu']
        exact decide_eq_true (by omega)

end Watch

theorem Run.inv (h : Run ip w t w' t') (hi : w.Inv ip t) : w'.Inv ip t' := by
  induction h with
  | refl => exact hi
  | wait h ht ih =>
    have hi' := ih hi
    exact ⟨fun e he => (hi'.own e he).mono ht, hi'.overflow.mono ht, hi'.failures, hi'.last, hi'.fresh⟩
  | act a h ht hok ih => exact (ih hi).step ht a

theorem Run.own_blocked (h : Run ip w t w' t') (hi : w.Inv ip t) {u : ℕ} (hu : t' < u) {e : Strikes}
    (he : w.lockout.by_ip.lookup ip = some e) (hb : BlockedTo u e) :
    ∃ e', w'.lockout.by_ip.lookup ip = some e' ∧ BlockedTo u e' := by
  induction h with
  | refl => exact ⟨e, he, hb⟩
  | wait h ht ih => exact ih hi (by omega)
  | act a h ht hok ih =>
    obtain ⟨e', he', hb'⟩ := ih hi (by omega)
    rw [Watch.lockout_step]
    exact (h.inv hi).step_blocked ht hok hu he' hb'

theorem Run.overflow_blocked (h : Run ip w t w' t') (hi : w.Inv ip t) {u : ℕ}
    (hb : BlockedTo u w.lockout.overflow) : BlockedTo u w'.lockout.overflow := by
  induction h with
  | refl => exact hb
  | wait h ht ih => exact ih hi
  | act a h ht hok ih =>
    rw [Watch.lockout_step]
    rcases Lockout.overflow_act _ _ a with h' | h'
    · rw [h']
      exact ih hi
    · rw [h']
      exact (ih hi).strike (h.inv hi).overflow ht

def Watch.start (t0 : ℕ) : Watch Ip := ⟨.new, 0, t0⟩

theorem Watch.inv_start (ip : Ip) (t0 : ℕ) : (Watch.start t0).Inv ip t0 where
  own e he := by cases he
  overflow u hu := by cases hu
  failures e he := by cases he
  last e he := by cases he
  fresh _ := rfl

def outsider : IpAddr := .v4 0xc0a80707

def tenNet (i : ℕ) : IpAddr := .v4 (UInt32.ofNat (0x0a000000 + i))

theorem tenNet_inj {i j : ℕ} (hi : i < maxTracked) (hj : j < maxTracked) (h : tenNet i = tenNet j) : i = j := by
  have h' := congrArg UInt32.toNat (IpAddr.v4.inj h)
  unfold maxTracked at hi hj
  rw [UInt32.toNat_ofNat', UInt32.toNat_ofNat'] at h'
  omega

/-- A table of the first `n` of them, each blocked by five failures at time 0. -/
structure Crowd (n : ℕ) (m : AList fun _ : IpAddr => Strikes) : Prop where
  length_eq : m.entries.length = n
  mem : ∀ x, x ∈ m ↔ ∃ i < n, x = tenNet i
  blocked : ∀ e ∈ m.entries, e.2 = (5, some (fromSecs 30))

theorem Crowd.notMem {n : ℕ} {m : AList fun _ : IpAddr => Strikes} (h : Crowd n m)
    (hn : n < maxTracked) : tenNet n ∉ m := by
  intro hmem
  obtain ⟨i, hi, heq⟩ := (h.mem _).mp hmem
  have := tenNet_inj hn (by omega) heq
  omega

theorem Crowd.insert {n : ℕ} {m : AList fun _ : IpAddr => Strikes} (h : Crowd n m)
    (hn : n < maxTracked) : Crowd (n + 1) (m.insert (tenNet n) (5, some (fromSecs 30))) where
  length_eq := by
    rw [AList.entries_insert_of_notMem (h.notMem hn), List.length_cons, h.length_eq]
  mem x := by
    rw [AList.mem_insert, h.mem]
    constructor
    · rintro (rfl | ⟨i, hi, rfl⟩)
      · exact ⟨n, by omega, rfl⟩
      · exact ⟨i, by omega, rfl⟩
    · rintro ⟨i, hi, rfl⟩
      by_cases hin : i = n
      · exact .inl (by rw [hin])
      · exact .inr ⟨i, by omega, rfl⟩
  blocked e he := by
    rw [AList.entries_insert_of_notMem (h.notMem hn)] at he
    rcases List.mem_cons.mp he with rfl | he
    · rfl
    · exact h.blocked e he

theorem fail_five {l : Lockout IpAddr} {x : IpAddr} (hx : x ∉ l.by_ip) (hroom : ¬ l.full) :
    ((((l.fail x 0).fail x 0).fail x 0).fail x 0).fail x 0 =
      { l with by_ip := l.by_ip.insert x (5, some (fromSecs 30)) } := by
  have hfirst : l.fail x 0 = { l with by_ip := l.by_ip.insert x (1, none) } := by
    rw [Lockout.fail, if_neg (by simp [hroom]), Lockout.strikeIp, AList.lookup_eq_none.mpr hx]
    rfl
  have hnext : ∀ e : Strikes, ({ l with by_ip := l.by_ip.insert x e } : Lockout IpAddr).fail x 0 =
      { l with by_ip := l.by_ip.insert x (strike e 0) } := by
    intro e
    have hmem : x ∈ l.by_ip.insert x e := (AList.mem_insert _).mpr (.inl rfl)
    rw [Lockout.fail, if_neg (by simp [hmem]), Lockout.strikeIp, AList.lookup_insert, AList.insert_insert]
    rfl
  rw [hfirst, hnext, hnext, hnext, hnext]
  rfl

section

variable {m : AList fun _ : IpAddr => Strikes}

theorem Crowd.full (h : Crowd maxTracked m) (e : Strikes) : (⟨m, e⟩ : Lockout IpAddr).full = true :=
  decide_eq_true (Nat.le_of_eq h.length_eq.symm)

theorem Crowd.fail_fresh (h : Crowd maxTracked m) {x : IpAddr} (hx : x ∉ m) (e : Strikes) :
    (⟨m, e⟩ : Lockout IpAddr).fail x 0 = ⟨m, strike e 0⟩ := by
  have hkeep : (⟨m, e⟩ : Lockout IpAddr).retainBlocked 0 = ⟨m, e⟩ := by
    unfold Lockout.retainBlocked
    congr 1
    apply AList.ext
    refine List.filter_eq_self.mpr fun e he => ?_
    rw [h.blocked e he]
    rfl
  have hcond : ((⟨m, e⟩ : Lockout IpAddr).full && decide (x ∉ m)) = true := by
    rw [h.full, Bool.true_and]
    exact decide_eq_true hx
  rw [Lockout.fail, if_pos hcond, hkeep]
  exact if_pos (h.full e)

end

theorem Run.exists_fail {ip : IpAddr} {w w' : Watch IpAddr} {t now : ℕ} (h : Run ip w t w' now)
    (x : IpAddr) : ∃ w'', Run ip w t w'' now ∧ w''.lockout = w'.lockout.fail x now :=
  ⟨_, h.act (.fail x) (Nat.le_refl _) (fun _ h => by cases h), Watch.lockout_step _ _ _ _⟩

theorem Run.exists_crowd (ip : IpAddr) {n : ℕ} (hn : n ≤ maxTracked) :
    ∃ w m, Run ip (.start 0) 0 w 0 ∧ w.lockout = ⟨m, (0, none)⟩ ∧ Crowd n m := by
  induction n with
  | zero =>
    refine ⟨_, ∅, .refl _ _, rfl, rfl, fun x => ?_, fun e he => absurd he List.not_mem_nil⟩
    simp
  | succ n ih =>
    obtain ⟨w0, m, h0, hl0, hm⟩ := ih (by omega)
    obtain ⟨w1, h1, hl1⟩ := h0.exists_fail (tenNet n)
    obtain ⟨w2, h2, hl2⟩ := h1.exists_fail (tenNet n)
    obtain ⟨w3, h3, hl3⟩ := h2.exists_fail (tenNet n)
    obtain ⟨w4, h4, hl4⟩ := h3.exists_fail (tenNet n)
    obtain ⟨w5, h5, hl5⟩ := h4.exists_fail (tenNet n)
    refine ⟨w5, _, h5, ?_, hm.insert hn⟩
    have hroom : ¬ (⟨m, (0, none)⟩ : Lockout IpAddr).full := by
      rw [Lockout.full, hm.length_eq]
      exact fun h => absurd (of_decide_eq_true h) (Nat.not_le.mpr hn)
    rw [hl5, hl4, hl3, hl2, hl1, hl0, fail_five (hm.notMem hn) hroom]

theorem Crowd.outsider_notMem {m : AList fun _ : IpAddr => Strikes} (h : Crowd maxTracked m) : outsider ∉ m := by
  intro hmem
  obtain ⟨i, hi, heq⟩ := (h.mem _).mp hmem
  have h' := congrArg UInt32.toNat (IpAddr.v4.inj heq)
  unfold maxTracked at hi
  rw [UInt32.toNat_ofNat'] at h'
  have hbits : (0xc0a80707 : UInt32).toNat = 0xc0a80707 := rfl
  omega

theorem Run.exists_blocked : ∃ w m, Run outsider (.start 0) 0 w 0 ∧
    w.lockout = ⟨m, (6, some (fromSecs 60))⟩ ∧ Crowd maxTracked m := by
  obtain ⟨w0, m, h0, hl0, hm⟩ := Run.exists_crowd outsider (Nat.le_refl maxTracked)
  obtain ⟨w1, h1, hl1⟩ := h0.exists_fail outsider
  obtain ⟨w2, h2, hl2⟩ := h1.exists_fail outsider
  obtain ⟨w3, h3, hl3⟩ := h2.exists_fail outsider
  obtain ⟨w4, h4, hl4⟩ := h3.exists_fail outsider
  obtain ⟨w5, h5, hl5⟩ := h4.exists_fail outsider
  obtain ⟨w6, h6, hl6⟩ := h5.exists_fail outsider
  refine ⟨w6, m, h6, ?_, hm⟩
  rw [hl6, hl5, hl4, hl3, hl2, hl1, hl0]
  repeat rw [hm.fail_fresh hm.outsider_notMem]
  rfl

end Rdpio.Hyper.Auth
