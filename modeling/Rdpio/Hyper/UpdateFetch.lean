import Mathlib.Algebra.BigOperators.Group.Finset.Basic
import Mathlib.Data.Nat.ModEq
import Rdpio.Hyper.Update
import Rdpio.Lib.Run

/-!
# A download

The scan of `Fetch.poll` goes round the chunks from the cursor and looks at none twice.
-/

namespace Rdpio.Hyper.Update

open Lib

def chunksOf : UpdateMsg → List ℕ
  | .get first count => List.range' first.toNat count.toNat
  | _ => []

def Scan.pending (s : Scan) : List ℕ := (s.out ++ requestOf s.run).flatMap chunksOf

/-- What holds of a scan that has looked at `s.scanned` chunks from the cursor on. -/
structure Scan.Sound (f : Fetch) (now budget : ℕ) (s : Scan) : Prop where
  count : s.pending.length = s.count
  count_le : s.count ≤ budget
  length : s.asked.length = f.asked.length
  visited : ∀ i ∈ s.pending, ∃ k < s.scanned, i = (f.cursor + k) % f.got.length
  due : ∀ i ∈ s.pending, i < f.got.length ∧ f.got.getD i false = false ∧
    longAgo now resendAfter (f.asked.getD i none) = true ∧ s.asked.getD i none = some now
  kept : ∀ i, i ∉ s.pending → s.asked.getD i none = f.asked.getD i none
  gets : ∀ m ∈ s.out ++ requestOf s.run, ∃ first count, m = .get first count ∧ count ≤ maxGet

section
variable {f : Fetch} {now budget : ℕ} {s : Scan}

theorem not_mem_pending (h : s.Sound f now budget) (hscanned : s.scanned < f.got.length) :
    (f.cursor + s.scanned) % f.got.length ∉ s.pending := by
  intro hmem
  obtain ⟨k, hk, heq⟩ := h.visited _ hmem
  have hmod : s.scanned ≡ k [MOD f.got.length] := Nat.ModEq.add_left_cancel' f.cursor heq
  have := Nat.ModEq.eq_of_lt_of_lt hmod hscanned (hk.trans hscanned)
  omega

theorem pending_ask (s : Scan) {i : ℕ} (hi : i < 2^32) (now : ℕ) : (s.ask i now).pending = s.pending ++ [i] := by
  have hnat : (UInt32.ofNat i).toNat = i := UInt32.toNat_ofNat_of_lt' hi
  have hone : chunksOf (.get (UInt32.ofNat i) 1) = [i] := by
    rw [chunksOf, hnat]
    rfl
  rw [Scan.ask, Scan.pending]
  dsimp only
  rcases hrun : s.run with _ | ⟨first, count⟩
  · dsimp only
    rw [Scan.pending, hrun, requestOf, requestOf, List.append_nil, List.flatMap_append, List.flatMap_singleton, hone]
  · dsimp only
    split_ifs with h
    · -- The run grows by the chunk right behind it.
      obtain ⟨hnext, hmax⟩ := h
      have hcount : (count + 1).toNat = count.toNat + 1 := by
        have : count.toNat < 256 := hmax
        rw [UInt16.toNat_add]
        change (count.toNat + 1) % 65536 = _
        omega
      rw [Scan.pending, hrun, requestOf, requestOf, List.flatMap_append, List.flatMap_append,
        List.append_assoc, List.flatMap_singleton, List.flatMap_singleton, chunksOf, chunksOf, hcount,
        List.range'_1_concat, hnext]
    · rw [Scan.pending, hrun, requestOf, requestOf, List.flatMap_append, List.flatMap_singleton, hone]

theorem asked_ask (s : Scan) (i now : ℕ) :
    (s.ask i now).asked = s.asked.set i (some now) ∧ (s.ask i now).count = s.count + 1 ∧
      (s.ask i now).scanned = s.scanned := by
  rw [Scan.ask]
  dsimp only
  split
  · split_ifs <;> exact ⟨rfl, rfl, rfl⟩
  · exact ⟨rfl, rfl, rfl⟩

theorem gets_ask {s : Scan} (i now : ℕ)
    (h : ∀ m ∈ s.out ++ requestOf s.run, ∃ first count, m = .get first count ∧ count ≤ maxGet) :
    ∀ m ∈ (s.ask i now).out ++ requestOf (s.ask i now).run,
      ∃ first count, m = .get first count ∧ count ≤ maxGet := by
  intro m hm
  rw [Scan.ask] at hm
  dsimp only at hm
  rcases hrun : s.run with _ | ⟨first, count⟩
  · rw [hrun] at hm
    dsimp only at hm
    rcases List.mem_append.mp hm with hm | hm
    · exact h m (by rw [hrun]; exact hm)
    · exact ⟨_, _, List.mem_singleton.mp hm, by decide⟩
  · rw [hrun] at hm
    dsimp only at hm
    split_ifs at hm with hgrow
    · rcases List.mem_append.mp hm with hm | hm
      · exact h m (List.mem_append_left _ hm)
      · refine ⟨_, _, List.mem_singleton.mp hm, ?_⟩
        have hcount : count.toNat < 256 := hgrow.2
        rw [UInt16.le_iff_toNat_le, UInt16.toNat_add]
        change (count.toNat + 1) % 65536 ≤ 256
        omega
    · rcases List.mem_append.mp hm with hm | hm
      · exact h m (by rw [hrun]; exact hm)
      · exact ⟨_, _, List.mem_singleton.mp hm, by decide⟩

theorem Scan.Sound.one (h : s.Sound f now budget) (hlen : f.asked.length = f.got.length)
    (hsmall : f.got.length ≤ 2^32) (hscanned : s.scanned < f.got.length) (hbudget : s.count < budget) :
    (f.scanOne now s).Sound f now budget := by
  obtain ⟨i, hi⟩ : ∃ i, i = (f.cursor + s.scanned) % f.got.length := ⟨_, rfl⟩
  have hlt : i < f.got.length := by
    rw [hi]
    exact Nat.mod_lt _ (by omega)
  have hnew : i ∉ s.pending := by
    rw [hi]
    exact not_mem_pending h hscanned
  have hseen : ∀ j ∈ s.pending, ∃ k < s.scanned + 1, j = (f.cursor + k) % f.got.length := by
    intro j hj
    obtain ⟨k, hk, heq⟩ := h.visited j hj
    exact ⟨k, hk.trans (Nat.lt_succ_self _), heq⟩
  -- A chunk not yet asked for in this scan still has its time from before it.
  rw [Fetch.scanOne, ← hi, h.kept i hnew]
  split_ifs with hdue
  · rw [Bool.and_eq_true, Bool.not_eq_true'] at hdue
    obtain ⟨hmissing, hlong⟩ := hdue
    obtain ⟨t, ht⟩ : ∃ t : Scan, t = { s with scanned := s.scanned + 1 } := ⟨_, rfl⟩
    rw [← ht]
    have htp : t.pending = s.pending := by rw [ht]; rfl
    have hta : t.asked = s.asked := by rw [ht]
    obtain ⟨hasked, hcount, hscan⟩ := asked_ask t i now
    have hpending : (t.ask i now).pending = s.pending ++ [i] := by
      rw [pending_ask t (hlt.trans_le hsmall), htp]
    have hget : ∀ j, (t.ask i now).asked.getD j none =
        if j = i then some now else s.asked.getD j none := by
      intro j
      rw [hasked, hta, List.getD_eq_getElem?_getD, List.getElem?_set, List.getD_eq_getElem?_getD]
      by_cases hj : j = i
      · have hlt' : i < s.asked.length := by rw [h.length, hlen]; exact hlt
        rw [if_pos hj.symm, if_pos hlt', if_pos hj]
        rfl
      · rw [if_neg (Ne.symm hj), if_neg hj]
    constructor
    case count => rw [hpending, hcount, List.length_append, h.count, ht]; rfl
    case count_le =>
      rw [hcount, ht]
      exact hbudget
    case length => rw [hasked, List.length_set, hta, h.length]
    case visited =>
      intro j hj
      rw [hscan, ht]
      rw [hpending] at hj
      rcases List.mem_append.mp hj with hj | hj
      · exact hseen j hj
      · exact ⟨s.scanned, Nat.lt_succ_self _, by rw [List.mem_singleton.mp hj, hi]⟩
    case due =>
      intro j hj
      rw [hpending] at hj
      rw [hget j]
      rcases List.mem_append.mp hj with hj | hj
      · have hne : j ≠ i := fun h => hnew (h ▸ hj)
        rw [if_neg hne]
        exact h.due j hj
      · rw [List.mem_singleton.mp hj, if_pos rfl]
        exact ⟨hlt, hmissing, hlong, rfl⟩
    case kept =>
      intro j hj
      rw [hpending, List.mem_append, List.mem_singleton, not_or] at hj
      rw [hget j, if_neg hj.2]
      exact h.kept j hj.1
    case gets =>
      refine gets_ask i now ?_
      rw [ht]
      exact h.gets
  · exact ⟨h.count, h.count_le, h.length, hseen, h.due, h.kept, h.gets⟩

theorem Scan.Sound.scan (h : s.Sound f now budget) (hlen : f.asked.length = f.got.length)
    (hsmall : f.got.length ≤ 2^32) {left : ℕ} (hleft : s.scanned + left ≤ f.got.length) :
    (f.scan now budget left s).Sound f now budget := by
  induction left generalizing s with
  | zero => exact h
  | succ left ih =>
    rw [Fetch.scan]
    split_ifs with hbudget
    · have hscanned : (f.scanOne now s).scanned = s.scanned + 1 := by
        rw [Fetch.scanOne]
        split_ifs
        · exact (asked_ask _ _ _).2.2
        · rfl
      exact ih (h.one hlen hsmall (by omega) hbudget) (by omega)
    · exact h

end

theorem Fetch.poll_asks (f : Fetch) (hlen : f.asked.length = f.got.length) (hsmall : f.got.length ≤ 2^32)
    (now budget : ℕ) :
    let asks := (f.poll now budget).2.flatMap chunksOf
    asks.length ≤ budget ∧ (∀ i ∈ asks, i < f.got.length ∧ f.got.getD i false = false ∧
        longAgo now resendAfter (f.asked.getD i none) = true) ∧
      (∀ m ∈ (f.poll now budget).2, ∀ first count, m = .get first count → count ≤ maxGet) ∧
      (f.poll now budget).1.asked.length = f.asked.length ∧
      (∀ i ∈ asks, (f.poll now budget).1.asked.getD i none = some now) ∧
      (∀ i, i ∉ asks → (f.poll now budget).1.asked.getD i none = f.asked.getD i none) ∧
      (f.finished = true ∨ f.manifest = none → asks = []) := by
  unfold Fetch.poll
  by_cases hfinished : f.finished = true
  · rw [if_pos hfinished]
    simp
  · rw [if_neg hfinished]
    rcases hm : f.manifest with _ | m
    · dsimp only
      split_ifs <;> simp [chunksOf]
    · dsimp only
      have hstart : ({ asked := f.asked } : Scan).Sound f now budget :=
        ⟨rfl, Nat.zero_le _, rfl, (by rintro i ⟨⟩), (by rintro i ⟨⟩), fun i _ => rfl, (by rintro m ⟨⟩)⟩
      have hsound := hstart.scan hlen hsmall (Nat.le_of_eq (Nat.zero_add f.got.length))
      refine ⟨?_, fun i hi => ?_, fun m hm first count heq => ?_, hsound.length, fun i hi => ?_,
        fun i hi => hsound.kept i hi, fun h => ?_⟩
      · change (Scan.pending _).length ≤ budget
        rw [hsound.count]
        exact hsound.count_le
      · obtain ⟨hlt, hmissing, hlong, -⟩ := hsound.due i hi
        exact ⟨hlt, hmissing, hlong⟩
      · obtain ⟨first', count', heq', hle⟩ := hsound.gets m hm
        rw [heq'] at heq
        cases heq
        exact hle
      · exact (hsound.due i hi).2.2.2
      · rcases h with h | h
        · exact absurd h hfinished
        · cases h

/-! ## The download, whatever comes -/

/-! ## The download -/

structure Genuine (libs : Libs) (key : List UInt8) (our : Text × Text) (p : Package) : Prop where
  signed : verified libs key p.signed = .ok p.manifest
  product : p.manifest.product = product
  size_le : p.manifest.size ≤ maxSize
  newer : p.manifest.newerThan our.1 our.2 = true
  length : p.exe.length = p.manifest.size.toNat
  hash : sha256Hex libs p.exe = p.manifest.sha256

/-- Bytes of chunk `i`: the last one is short. -/
def Manifest.chunkLen (m : Manifest) (i : ℕ) : ℕ := min (m.size.toNat - i * chunk) chunk

def Manifest.received (m : Manifest) (got : List Bool) : ℕ :=
  ∑ i ∈ Finset.range got.length, if got.getD i false then m.chunkLen i else 0

/-- What holds of a download after any messages. -/
structure Fetch.Inv (libs : Libs) (f : Fetch) : Prop where
  missing : f.got.count false = f.missing
  asked : f.asked.length = f.got.length
  unknown : f.manifest = none → f.got = []
  known : ∀ m, f.manifest = some m → m.newerThan f.our.1 f.our.2 = true ∧ f.got.length = divCeil m.size.toNat chunk ∧
    ∃ bytes, verified libs f.key bytes = .ok m ∧ (f.finished = false → f.signed = some bytes)
  state : ∀ version got size, f.state = .downloading version got size →
    ∃ m, f.manifest = some m ∧ got = m.received f.got
  package : ∀ p, f.package = some p → Genuine libs f.key f.our p

theorem verified_ok {libs : Libs} {key bytes : List UInt8} {m : Manifest}
    (h : verified libs key bytes = .ok m) : m.product = product ∧ m.size ≤ maxSize := by
  unfold verified at h
  rcases hparse : Signed.parse libs bytes with e | s
  · rw [hparse] at h
    cases h
  · rw [hparse] at h
    dsimp only at h
    unfold Signed.verifyWith at h
    rcases hsig : libs.base64Decode s.signature with _ | sig
    · rw [hsig] at h
      cases h
    · rw [hsig] at h
      dsimp only at h
      split_ifs at h
      rcases hm : libs.manifestFromStr s.manifest with _ | m'
      · rw [hm] at h
        cases h
      · rw [hm] at h
        dsimp only at h
        split_ifs at h with hproduct hsize
        cases h
        exact ⟨not_not.mp hproduct, UInt64.not_lt.mp hsize⟩

theorem Fetch.Inv.small {libs : Libs} {f : Fetch} (h : f.Inv libs) : f.got.length ≤ 2^32 := by
  rcases hm : f.manifest with _ | m
  · rw [h.unknown hm]
    exact Nat.zero_le _
  · obtain ⟨-, hlen, bytes, hbytes, -⟩ := h.known m hm
    have hsize : m.size.toNat ≤ 268435456 := (verified_ok hbytes).2
    rw [hlen, divCeil, chunk]
    omega

theorem count_set_true {got : List Bool} {i : ℕ} (hi : i < got.length) (h : got.getD i false = false) :
    (got.set i true).count false + 1 = got.count false := by
  induction got generalizing i with
  | nil => cases hi
  | cons b got ih =>
    cases i with
    | zero =>
      change b = false at h
      subst h
      simp
    | succ i =>
      have hrest := ih (Nat.lt_of_succ_lt_succ hi) h
      rw [List.set_cons_succ, List.count_cons, List.count_cons]
      omega

theorem getD_set_true (got : List Bool) {i : ℕ} (hi : i < got.length) (j : ℕ) :
    (got.set i true).getD j false = if j = i then true else got.getD j false := by
  rw [List.getD_eq_getElem?_getD, List.getElem?_set, List.getD_eq_getElem?_getD]
  by_cases hj : j = i
  · rw [if_pos hj.symm, if_pos hi, if_pos hj]
    rfl
  · rw [if_neg (Ne.symm hj), if_neg hj]

theorem Manifest.received_set (m : Manifest) {got : List Bool} {i : ℕ} (hi : i < got.length)
    (h : got.getD i false = false) : m.received (got.set i true) = m.received got + m.chunkLen i := by
  have hmem : i ∈ Finset.range got.length := Finset.mem_range.mpr hi
  rw [received, received, List.length_set, ← Finset.add_sum_erase _ _ hmem,
    ← Finset.add_sum_erase _ _ hmem, getD_set_true got hi, if_pos rfl, if_pos rfl, h,
    if_neg Bool.false_ne_true, Nat.zero_add, Nat.add_comm]
  congr 1
  refine Finset.sum_congr rfl fun j hj => ?_
  rw [getD_set_true got hi, if_neg (Finset.ne_of_mem_erase hj)]

theorem Manifest.received_replicate (m : Manifest) (n : ℕ) : m.received (List.replicate n false) = 0 := by
  refine Finset.sum_eq_zero fun i _ => ?_
  have h : (List.replicate n false).getD i false = false := by
    rw [List.getD_eq_getElem?_getD, List.getElem?_replicate]
    split_ifs <;> rfl
  rw [h, if_neg Bool.false_ne_true]

section
variable {libs : Libs} {f : Fetch}

theorem Fetch.Inv.finish (h : f.Inv libs) {m : Manifest} (hm : f.manifest = some m)
    (hopen : f.finished = false) : (f.finish libs m).Inv libs := by
  obtain ⟨hnewer, hlen, bytes, hbytes, hsigned⟩ := h.known m hm
  rw [Fetch.finish]
  split_ifs with his
  · rw [Manifest.isOf, Bool.and_eq_true, decide_eq_true_eq, decide_eq_true_eq] at his
    constructor
    case missing => exact h.missing
    case asked => exact h.asked
    case unknown => exact h.unknown
    case known =>
      intro m' hm'
      obtain ⟨hnewer', hlen', bytes', hbytes', -⟩ := h.known m' hm'
      exact ⟨hnewer', hlen', bytes', hbytes', by rintro ⟨⟩⟩
    case state => rintro version got size ⟨⟩
    case package =>
      intro p hp
      cases hp
      have hget : f.signed.getD [] = bytes := by rw [hsigned hopen]; rfl
      obtain ⟨hproduct, hsize⟩ := verified_ok hbytes
      exact ⟨by rw [hget]; exact hbytes, hproduct, hsize, hnewer, his.1, his.2⟩
  · refine { h with known := ?known, state := ?state }
    case known =>
      intro m' hm'
      obtain ⟨hnewer', hlen', bytes', hbytes', -⟩ := h.known m' hm'
      exact ⟨hnewer', hlen', bytes', hbytes', by rintro ⟨⟩⟩
    case state => rintro version got size ⟨⟩

theorem Fetch.Inv.fail (h : f.Inv libs) (why : Text) : ({ f with state := .failed why } : Fetch).Inv libs := by
  refine { h with known := ?known, state := ?state }
  case known =>
    intro m hm
    obtain ⟨hnewer, hlen, bytes, hbytes, -⟩ := h.known m hm
    exact ⟨hnewer, hlen, bytes, hbytes, by rintro ⟨⟩⟩
  case state => rintro version got size ⟨⟩

theorem Fetch.Inv.onManifest (h : f.Inv libs) (bytes : List UInt8) : (f.onManifest libs bytes).Inv libs := by
  unfold Fetch.onManifest
  rcases hv : verified libs f.key bytes with e | m
  · exact h.fail _
  · dsimp only
    split_ifs with hnewer hzero
    all_goals try exact h.fail _
    all_goals
      have hbegun : ({ f with
          data := List.replicate m.size.toNat 0
          got := List.replicate (divCeil m.size.toNat chunk) false
          asked := List.replicate (divCeil m.size.toNat chunk) none
          missing := divCeil m.size.toNat chunk
          state := .downloading m.version 0 m.size.toNat
          signed := some bytes
          manifest := some m } : Fetch).Inv libs := by
        constructor
        case missing => simp
        case asked => simp
        case unknown => rintro ⟨⟩
        case known =>
          intro m' hm'
          cases hm'
          exact ⟨hnewer, List.length_replicate, bytes, hv, fun _ => rfl⟩
        case state =>
          intro version got size hstate
          cases hstate
          exact ⟨m, rfl, (m.received_replicate _).symm⟩
        case package => exact h.package
    · exact hbegun.finish rfl rfl
    · exact hbegun

theorem Fetch.finished_of_more {f g : Fetch} {n : ℕ} (h : g.state = f.state.more n) : g.finished = f.finished := by
  rw [Fetch.finished, Fetch.finished, h]
  cases f.state <;> rfl

theorem Fetch.Inv.onChunk (h : f.Inv libs) (hopen : f.finished = false) (index : UInt32)
    (data : List UInt8) : (f.onChunk libs index data).Inv libs := by
  unfold Fetch.onChunk
  rcases hm : f.manifest with _ | m
  · exact h
  · dsimp only
    split_ifs with hout hlen hzero
    · exact h
    · exact h
    all_goals
      -- The chunk was missing, so there is one less.
      obtain ⟨hlt, hnew⟩ := not_or.mp hout
      rw [Nat.not_le] at hlt
      rw [Bool.not_eq_true] at hnew
      have hmore : ({ f with
          data := splice f.data (index.toNat * chunk) data
          got := f.got.set index.toNat true
          missing := f.missing - 1
          state := f.state.more (min (m.size.toNat - index.toNat * chunk) chunk)
          manifest := some m } : Fetch).Inv libs := by
        constructor
        case missing =>
          have hcount := count_set_true hlt hnew
          rw [h.missing] at hcount
          change (f.got.set index.toNat true).count false = f.missing - 1
          omega
        case asked =>
          change f.asked.length = (f.got.set index.toNat true).length
          rw [List.length_set, h.asked]
        case unknown => rintro ⟨⟩
        case known =>
          intro m' hm'
          cases hm'
          obtain ⟨hnewer', hlen', bytes', hbytes', hsigned'⟩ := h.known m hm
          refine ⟨hnewer', ?_, bytes', hbytes', fun _ => hsigned' hopen⟩
          change (f.got.set index.toNat true).length = _
          rw [List.length_set, hlen']
        case state =>
          intro version got size hstate
          change f.state.more _ = _ at hstate
          rcases hs : f.state with _ | ⟨version', got', size'⟩ | _ | why
          all_goals rw [hs] at hstate; cases hstate
          obtain ⟨m', hm', hgot'⟩ := h.state _ _ _ hs
          rw [hm] at hm'
          cases hm'
          refine ⟨m, rfl, ?_⟩
          change got' + _ = m.received (f.got.set index.toNat true)
          rw [m.received_set hlt hnew, hgot', Manifest.chunkLen]
        case package => exact h.package
    · exact hmore.finish rfl ((Fetch.finished_of_more rfl).trans hopen)
    · exact hmore

theorem Fetch.Inv.onMsg (h : f.Inv libs) (msg : UpdateMsg) : (f.onMsg libs msg).Inv libs := by
  unfold Fetch.onMsg
  by_cases hfinished : f.finished = true
  · rw [if_pos hfinished]
    exact h
  · rw [if_neg hfinished]
    rw [Bool.not_eq_true] at hfinished
    cases msg with
    | unavailable => exact h.fail _
    | manifest bytes =>
      dsimp only
      split_ifs
      · exact h.onManifest bytes
      · exact h
    | chunk index data => exact h.onChunk hfinished index data
    | getManifest => exact h
    | get first count => exact h
    | done => exact h

theorem Fetch.Inv.poll (h : f.Inv libs) (now budget : ℕ) : (f.poll now budget).1.Inv libs := by
  have hasked := (f.poll_asks h.asked h.small now budget).2.2.2.1
  unfold Fetch.poll at hasked ⊢
  by_cases hfinished : f.finished = true
  · rw [if_pos hfinished]
    exact h
  · rw [if_neg hfinished] at hasked ⊢
    rcases hm : f.manifest with _ | m
    · dsimp only
      split_ifs
      · exact ⟨h.missing, h.asked, fun _ => h.unknown hm, (by rintro m ⟨⟩),
          fun version got size hs => hm ▸ h.state version got size hs, h.package⟩
      · exact h
    · rw [hm] at hasked
      dsimp only at hasked ⊢
      refine ⟨h.missing, hasked.trans h.asked, (by rintro ⟨⟩), fun m' hm' => ?_,
        fun version got size hs => hm ▸ h.state version got size hs, h.package⟩
      cases hm'
      exact h.known m hm

theorem Fetch.Inv.take (h : f.Inv libs) : f.take.1.Inv libs :=
  ⟨h.missing, h.asked, h.unknown, h.known, h.state, (by rintro p ⟨⟩)⟩

end

end Rdpio.Hyper.Update
