import Mathlib.Data.List.GetD
import Rdpio.Hyper.UpdateFetch

/-!
# Downloads

`Download` is a client's download with what was taken from it and when each chunk was asked for; any messages
may come to it (`Download.inv_run`).
-/

namespace Rdpio.Hyper.Update

open Lib

/-! ## Any messages -/

structure Download where
  fetch : Fetch
  taken : List Package := []
  asks : List (ℕ × ℕ) := []

/-- What is done with a download. -/
inductive Event
  | poll (now budget : ℕ)
  | msg (m : UpdateMsg)
  | take

def Download.step (libs : Libs) (d : Download) : Event → Download
  | .poll now budget =>
    let polled := d.fetch.poll now budget
    { d with
      fetch := polled.1
      asks := d.asks ++ (polled.2.flatMap chunksOf).map fun i => (i, now) }
  | .msg m => { d with fetch := d.fetch.onMsg libs m }
  | .take => { d with fetch := d.fetch.take.1, taken := d.taken ++ d.fetch.take.2.toList }

/-- A poll keeps to its budget, and asks for chunks that are missing and were not asked for lately. -/
structure Download.Polls (d : Download) (now budget : ℕ) : Prop where
  within : ((d.fetch.poll now budget).2.flatMap chunksOf).length ≤ budget
  missing : ∀ i ∈ (d.fetch.poll now budget).2.flatMap chunksOf,
    i < d.fetch.got.length ∧ d.fetch.got.getD i false = false
  rested : ∀ i ∈ (d.fetch.poll now budget).2.flatMap chunksOf, ∀ t, (i, t) ∈ d.asks → t + resendAfter ≤ now
  gets : ∀ first count, .get first count ∈ (d.fetch.poll now budget).2 → count ≤ maxGet

/-- What holds of a download after any events. -/
structure Download.Inv (libs : Libs) (key : List UInt8) (our : Text × Text) (d : Download) : Prop where
  fetch : d.fetch.Inv libs
  key_eq : d.fetch.key = key
  our_eq : d.fetch.our = our
  taken : ∀ p ∈ d.taken, Genuine libs key our p
  asks : ∀ x ∈ d.asks, ∃ t, d.fetch.asked.getD x.1 none = some t ∧ x.2 ≤ t
  begun : d.fetch.manifest = none → d.asks = []

section
variable {libs : Libs} {f : Fetch}

theorem Fetch.onMsg_keeps (libs : Libs) (f : Fetch) (msg : UpdateMsg) :
    (f.onMsg libs msg).key = f.key ∧ (f.onMsg libs msg).our = f.our ∧
      ∀ m, f.manifest = some m → (f.onMsg libs msg).manifest = some m ∧ (f.onMsg libs msg).asked = f.asked := by
  have hfinish : ∀ (g : Fetch) m, (g.finish libs m).key = g.key ∧ (g.finish libs m).our = g.our ∧
      (g.finish libs m).manifest = g.manifest ∧ (g.finish libs m).asked = g.asked := by
    intro g m
    rw [Fetch.finish]
    split_ifs <;> exact ⟨rfl, rfl, rfl, rfl⟩
  unfold Fetch.onMsg
  by_cases hfinished : f.finished = true
  · rw [if_pos hfinished]
    exact ⟨rfl, rfl, fun m hm => ⟨hm, rfl⟩⟩
  · rw [if_neg hfinished]
    cases msg with
    | manifest bytes =>
      dsimp only
      split_ifs with hnone
      · have hcontra : ∀ m, f.manifest ≠ some m := by
          intro m hm
          rw [hm] at hnone
          cases hnone
        unfold Fetch.onManifest
        split
        · exact ⟨rfl, rfl, fun m hm => absurd hm (hcontra m)⟩
        · split
          · dsimp only
            split
            · obtain ⟨hkey, hour, -, -⟩ := hfinish _ _
              exact ⟨hkey, hour, fun m hm => absurd hm (hcontra m)⟩
            · exact ⟨rfl, rfl, fun m hm => absurd hm (hcontra m)⟩
          · exact ⟨rfl, rfl, fun m hm => absurd hm (hcontra m)⟩
      · exact ⟨rfl, rfl, fun m hm => ⟨hm, rfl⟩⟩
    | chunk index data =>
      dsimp only
      unfold Fetch.onChunk
      rcases hm : f.manifest with _ | m
      · exact ⟨rfl, rfl, fun m hm => absurd hm (Option.some_ne_none m).symm⟩
      · dsimp only
        split
        · exact ⟨rfl, rfl, fun m' hm' => ⟨hm.trans hm', rfl⟩⟩
        · split
          · exact ⟨rfl, rfl, fun m' hm' => ⟨hm.trans hm', rfl⟩⟩
          · split
            · obtain ⟨hkey, hour, hmanifest, hasked⟩ := hfinish _ _
              exact ⟨hkey, hour, fun m' hm' => ⟨hmanifest.trans hm', hasked⟩⟩
            · exact ⟨rfl, rfl, fun m' hm' => ⟨hm', rfl⟩⟩
    | unavailable => exact ⟨rfl, rfl, fun m hm => ⟨hm, rfl⟩⟩
    | getManifest => exact ⟨rfl, rfl, fun m hm => ⟨hm, rfl⟩⟩
    | get first count => exact ⟨rfl, rfl, fun m hm => ⟨hm, rfl⟩⟩
    | done => exact ⟨rfl, rfl, fun m hm => ⟨hm, rfl⟩⟩

theorem Fetch.poll_keeps (f : Fetch) (now budget : ℕ) :
    (f.poll now budget).1.key = f.key ∧ (f.poll now budget).1.our = f.our ∧
      (f.poll now budget).1.manifest = f.manifest ∧ (f.poll now budget).1.state = f.state ∧
      (f.poll now budget).1.data = f.data ∧ (f.poll now budget).1.got = f.got ∧
      (f.poll now budget).1.package = f.package := by
  unfold Fetch.poll
  split
  · exact ⟨rfl, rfl, rfl, rfl, rfl, rfl, rfl⟩
  · split
    · split <;> exact ⟨rfl, rfl, rfl, rfl, rfl, rfl, rfl⟩
    · exact ⟨rfl, rfl, rfl, rfl, rfl, rfl, rfl⟩

end

section
variable {libs : Libs} {key : List UInt8} {our : Text × Text} {d : Download}

theorem Download.Inv.polls (h : d.Inv libs key our) (now budget : ℕ) : d.Polls now budget := by
  obtain ⟨hbudget, hdue, hgets, -, -, -, -⟩ := d.fetch.poll_asks h.fetch.asked h.fetch.small now budget
  constructor
  case within => exact hbudget
  case missing => exact fun i hi => ⟨(hdue i hi).1, (hdue i hi).2.1⟩
  case rested =>
    intro i hi t ht
    obtain ⟨last, hlast, hle⟩ := h.asks _ ht
    have hlong := (hdue i hi).2.2
    rw [hlast, longAgo] at hlong
    have hago : resendAfter ≤ now - last := of_decide_eq_true hlong
    -- Time that stands still, or runs back, is no time since.
    have hpos : 0 < resendAfter := by decide
    dsimp only at hle
    omega
  case gets => exact fun first count hm => hgets _ hm first count rfl

theorem Download.Inv.step (h : d.Inv libs key our) (e : Event) : (d.step libs e).Inv libs key our := by
  cases e with
  | poll now budget =>
    obtain ⟨hkey, hour, hmanifest, -, -, -, -⟩ := d.fetch.poll_keeps now budget
    obtain ⟨-, hdue, -, -, hasked, hkept, hidle⟩ := d.fetch.poll_asks h.fetch.asked h.fetch.small now budget
    constructor
    case fetch => exact h.fetch.poll now budget
    case key_eq => exact hkey.trans h.key_eq
    case our_eq => exact hour.trans h.our_eq
    case taken => exact h.taken
    -- Before the manifest nothing was asked for; after it the times only grow.
    case asks =>
      intro x hx
      change ∃ t, (d.fetch.poll now budget).1.asked.getD x.1 none = some t ∧ x.2 ≤ t
      by_cases hask : x.1 ∈ (d.fetch.poll now budget).2.flatMap chunksOf
      · refine ⟨now, hasked _ hask, ?_⟩
        rcases List.mem_append.mp hx with hx | hx
        · have hrested := (h.polls now budget).rested x.1 hask x.2 hx
          omega
        · obtain ⟨i, -, rfl⟩ := List.mem_map.mp hx
          exact Nat.le_refl _
      · rw [hkept _ hask]
        rcases List.mem_append.mp hx with hx | hx
        · exact h.asks x hx
        · obtain ⟨i, hi, rfl⟩ := List.mem_map.mp hx
          exact absurd hi hask
    case begun =>
      intro hnone
      have hnone' : d.fetch.manifest = none := hmanifest ▸ hnone
      change d.asks ++ _ = []
      rw [h.begun hnone', hidle (.inr hnone')]
      rfl
  | msg m =>
    obtain ⟨hkey, hour, hkeeps⟩ := d.fetch.onMsg_keeps libs m
    constructor
    case fetch => exact h.fetch.onMsg m
    case key_eq => exact hkey.trans h.key_eq
    case our_eq => exact hour.trans h.our_eq
    case taken => exact h.taken
    case asks =>
      intro x hx
      rcases hm : d.fetch.manifest with _ | manifest
      · change x ∈ d.asks at hx
        rw [h.begun hm] at hx
        cases hx
      · change ∃ t, (d.fetch.onMsg libs m).asked.getD x.1 none = some t ∧ x.2 ≤ t
        rw [(hkeeps _ hm).2]
        exact h.asks x hx
    case begun =>
      intro hnone
      rcases hm : d.fetch.manifest with _ | manifest
      · exact h.begun hm
      · exact nomatch (hkeeps _ hm).1.symm.trans hnone
  | take =>
    refine { h with fetch := ?fetch, taken := ?taken }
    case fetch => exact h.fetch.take
    case taken =>
      intro p hp
      rcases List.mem_append.mp hp with hp | hp
      · exact h.taken p hp
      · have hgenuine := h.fetch.package p (Option.mem_toList.mp hp)
        rw [h.key_eq, h.our_eq] at hgenuine
        exact hgenuine

def Download.start (version build : Text) (key : List UInt8) : Download := { fetch := Fetch.withKey version build key }

theorem Download.inv_start (libs : Libs) (version build : Text) (key : List UInt8) :
    (Download.start version build key).Inv libs key (version, build) where
  fetch := ⟨rfl, rfl, fun _ => rfl, (by rintro m ⟨⟩), (by rintro version got size ⟨⟩), (by rintro p ⟨⟩)⟩
  key_eq := rfl
  our_eq := rfl
  taken := by rintro p ⟨⟩
  asks := by rintro x ⟨⟩
  begun _ := rfl

theorem Download.inv_run (libs : Libs) (version build : Text) (key : List UInt8) (events : List Event) :
    (run (Download.step libs) (Download.start version build key) events).Inv libs key (version, build) :=
  invariant_run (fun d : Download => d.Inv libs key (version, build)) (Download.inv_start libs version build key)
    (fun _ e h => h.step e) events

end

/-! ## An honest host -/

structure World where
  client : Download
  toHost : List (List UInt8) := []
  toClient : List (List UInt8) := []

inductive Action
  | poll (now budget : ℕ)
  | take
  | toHost (k : ℕ)
  | toClient (k : ℕ)

def World.step (libs : Libs) (serve : Serve) (w : World) : Action → World
  | .poll now budget =>
    { w with
      client := w.client.step libs (.poll now budget)
      toHost := w.toHost ++ (w.client.fetch.poll now budget).2.map UpdateMsg.toBytes }
  | .take => { w with client := w.client.step libs .take }
  | .toHost k =>
    match w.toHost[k]?.bind UpdateMsg.parse with
    | none => w
    | some msg => { w with toClient := w.toClient ++ serve.answer msg }
  | .toClient k =>
    match w.toClient[k]?.bind UpdateMsg.parse with
    | none => w
    | some msg => { w with client := w.client.step libs (.msg msg) }

/-- A message of an honest host. -/
def Serve.Says (s : Serve) (msg : UpdateMsg) : Prop :=
  msg = .manifest s.signed ∨ ∃ i < divCeil s.exe.length chunk, msg = .chunk (UInt32.ofNat i) (s.chunkOf i)

/-- What holds of a download from an honest host: what is there is the host's. -/
structure Fetch.Honest (serve : Serve) (f : Fetch) : Prop where
  standing : ∀ why, f.state ≠ .failed why
  manifest : ∀ m, f.manifest = some m → m = serve.manifest
  data : f.manifest ≠ none → f.finished = false → f.data.length = serve.exe.length ∧
    ∀ j, f.got.getD (j / chunk) false = true → f.data[j]? = serve.exe[j]?
  package : ∀ p, f.package = some p → p.exe = serve.exe

/-- A host as `Serve.newWith` makes one. -/
structure Serve.Checked (libs : Libs) (key : List UInt8) (s : Serve) : Prop where
  verified : verified libs key s.signed = .ok s.manifest
  isOf : s.manifest.isOf libs s.exe = true

theorem Serve.checked {libs : Libs} {signed exe key : List UInt8} {s : Serve}
    (h : Serve.newWith libs signed exe key = .ok s) : s.Checked libs key ∧ s.exe = exe := by
  unfold Serve.newWith at h
  rcases hv : Update.verified libs key signed with e | m
  · rw [hv] at h
    cases h
  · rw [hv] at h
    dsimp only at h
    split_ifs at h with his
    cases h
    exact ⟨⟨hv, his⟩, rfl⟩

theorem Serve.Checked.length {libs : Libs} {key : List UInt8} {s : Serve} (h : s.Checked libs key) :
    s.exe.length = s.manifest.size.toNat := by
  have his := h.isOf
  rw [Manifest.isOf, Bool.and_eq_true, decide_eq_true_eq] at his
  exact his.1

theorem Serve.Checked.few {libs : Libs} {key : List UInt8} {s : Serve} (h : s.Checked libs key) :
    divCeil s.exe.length chunk < 2^32 := by
  have hsize : s.manifest.size.toNat ≤ 268435456 := (verified_ok h.verified).2
  rw [h.length, divCeil, chunk]
  omega

theorem verified_of {libs : Libs} {key bytes sig : List UInt8} {signed : Signed} {m : Manifest}
    (hparse : libs.signedFromSlice bytes = some signed)
    (hsig : libs.base64Decode signed.signature = some sig)
    (hverify : libs.ed25519Verify key (asBytes signed.manifest) sig = true)
    (hm : libs.manifestFromStr signed.manifest = some m) (hproduct : m.product = product)
    (hsize : m.size ≤ maxSize) : verified libs key bytes = .ok m := by
  rw [verified, Signed.parse, hparse]
  dsimp only
  rw [Signed.verifyWith, hsig]
  dsimp only
  rw [if_pos hverify, hm]
  dsimp only
  rw [if_neg (not_not.mpr hproduct), if_neg (UInt64.not_lt.mpr hsize)]

theorem Serve.Says.parse {s : Serve} {msg : UpdateMsg} (h : s.Says msg) : UpdateMsg.parse msg.toBytes = some msg := by
  rcases h with rfl | ⟨i, -, rfl⟩
  · rfl
  · have hfour : 4 ≤ (leBytes 4 (UInt32.ofNat i).toNat ++ s.chunkOf i).length := by
      rw [List.length_append, length_leBytes]
      omega
    rw [UpdateMsg.toBytes, UpdateMsg.parse, if_neg (by decide), if_neg (by decide), if_neg (by decide),
      if_pos rfl, if_pos hfour, take_leBytes_append, ofLe_leBytes_of_lt (UInt32.toNat_lt _), UInt32.ofNat_toNat,
      List.drop_left' (length_leBytes _ _)]

theorem Serve.answer_spoken (s : Serve) (msg : UpdateMsg) :
    ∀ b ∈ s.answer msg, ∃ msg', s.Says msg' ∧ b = msg'.toBytes := by
  intro b hb
  cases msg with
  | getManifest => exact ⟨_, .inl rfl, List.mem_singleton.mp hb⟩
  | get first count =>
    obtain ⟨i, hi, rfl⟩ := List.mem_map.mp hb
    obtain ⟨hfirst, hend⟩ := List.mem_range'_1.mp hi
    exact ⟨_, .inr ⟨i, by omega, rfl⟩, rfl⟩
  | manifest bytes => cases hb
  | chunk index data => cases hb
  | unavailable => cases hb
  | done => cases hb

theorem getElem?_splice {data bytes : List UInt8} {i : ℕ} (h : i + bytes.length ≤ data.length) (j : ℕ) :
    (splice data i bytes)[j]? =
      if i ≤ j ∧ j < i + bytes.length then bytes[j - i]? else data[j]? := by
  have hi : (data.take i).length = i := by
    rw [List.length_take]
    omega
  rw [splice, List.append_assoc]
  by_cases hlow : j < i
  · rw [List.getElem?_append_left (by omega), List.getElem?_take_of_lt hlow, if_neg (by omega)]
  · rw [List.getElem?_append_right (by omega), hi]
    by_cases hmid : j < i + bytes.length
    · rw [List.getElem?_append_left (by omega), if_pos ⟨by omega, hmid⟩]
    · rw [List.getElem?_append_right (by omega), List.getElem?_drop, if_neg (by omega)]
      congr 1
      omega

theorem length_splice {data bytes : List UInt8} {i : ℕ} (h : i + bytes.length ≤ data.length) :
    (splice data i bytes).length = data.length := by
  rw [splice, List.length_append, List.length_append, List.length_take, List.length_drop]
  omega

section
variable {libs : Libs} {serve : Serve} {f : Fetch}

theorem Fetch.Honest.finish (h : f.Honest serve) {key : List UInt8} (hs : serve.Checked libs key)
    (hm : f.manifest = some serve.manifest) (hopen : f.finished = false)
    (hall : ∀ j < serve.exe.length, f.got.getD (j / chunk) false = true) :
    (f.finish libs serve.manifest).Honest serve ∧ (f.finish libs serve.manifest).package ≠ none := by
  obtain ⟨hlen, hdata⟩ := h.data (by rw [hm]; exact Option.some_ne_none _) hopen
  have hexe : f.data = serve.exe := by
    apply List.ext_getElem?
    intro j
    by_cases hj : j < serve.exe.length
    · exact hdata j (hall j hj)
    · rw [List.getElem?_eq_none (by omega), List.getElem?_eq_none (by omega)]
  rw [Fetch.finish, hexe, if_pos hs.isOf]
  refine ⟨⟨by rintro why ⟨⟩, h.manifest, by rintro - ⟨⟩, ?_⟩, Option.some_ne_none _⟩
  intro p hp
  cases hp
  rfl

theorem Fetch.Honest.onManifest (h : f.Honest serve) (hs : serve.Checked libs f.key)
    (hnewer : serve.manifest.newerThan f.our.1 f.our.2 = true) :
    (f.onManifest libs serve.signed).Honest serve ∧ ((f.onManifest libs serve.signed).state = .done →
        (f.onManifest libs serve.signed).package ≠ none) := by
  have hnone : ∀ n j, (List.replicate n false).getD j false = false := by
    intro n j
    rw [List.getD_eq_getElem?_getD, List.getElem?_replicate]
    split_ifs <;> rfl
  unfold Fetch.onManifest
  rw [hs.verified]
  dsimp only
  rw [if_pos hnewer]
  have hbegun : ({ f with
      data := List.replicate serve.manifest.size.toNat 0
      got := List.replicate (divCeil serve.manifest.size.toNat chunk) false
      asked := List.replicate (divCeil serve.manifest.size.toNat chunk) none
      missing := divCeil serve.manifest.size.toNat chunk
      state := .downloading serve.manifest.version 0 serve.manifest.size.toNat
      signed := some serve.signed
      manifest := some serve.manifest } : Fetch).Honest serve := by
    constructor
    case standing => rintro why ⟨⟩
    case manifest =>
      intro m hm
      cases hm
      rfl
    case data =>
      intro _ _
      refine ⟨List.length_replicate.trans hs.length.symm, fun j hj => ?_⟩
      change (List.replicate _ false).getD _ false = true at hj
      rw [hnone] at hj
      cases hj
    case package => exact h.package
  by_cases hzero : divCeil serve.manifest.size.toNat chunk = 0
  · rw [if_pos hzero]
    have hempty : serve.exe.length = 0 := by
      rw [divCeil, chunk] at hzero
      have := hs.length
      omega
    obtain ⟨hdone, hpackage⟩ := hbegun.finish hs rfl rfl (fun j hj => by omega)
    exact ⟨hdone, fun _ => hpackage⟩
  · rw [if_neg hzero]
    exact ⟨hbegun, by rintro ⟨⟩⟩

theorem Fetch.Honest.onChunk (h : f.Honest serve) (hinv : f.Inv libs) (hs : serve.Checked libs f.key)
    (hopen : f.finished = false) {i : ℕ} (hi : i < divCeil serve.exe.length chunk) :
    (f.onChunk libs (UInt32.ofNat i) (serve.chunkOf i)).Honest serve ∧
      ((f.onChunk libs (UInt32.ofNat i) (serve.chunkOf i)).state = .done →
        (f.onChunk libs (UInt32.ofNat i) (serve.chunkOf i)).package ≠ none) := by
  have hnotdone : f.state ≠ .done := by
    intro hdone
    rw [Fetch.finished, hdone] at hopen
    cases hopen
  have hindex : (UInt32.ofNat i).toNat = i := UInt32.toNat_ofNat_of_lt' (hi.trans hs.few)
  unfold Fetch.onChunk
  rcases hm : f.manifest with _ | m
  · exact ⟨h, fun hdone => absurd hdone hnotdone⟩
  · obtain rfl : m = serve.manifest := h.manifest m hm
    obtain ⟨-, hcount, -⟩ := hinv.known _ hm
    obtain ⟨hlen, hdata⟩ := h.data (by rw [hm]; exact Option.some_ne_none _) hopen
    dsimp only
    rw [hindex]
    by_cases hout : f.got.length ≤ i ∨ f.got.getD i false = true
    · rw [if_pos hout]
      exact ⟨h, fun hdone => absurd hdone hnotdone⟩
    · obtain ⟨hlt, hnew⟩ := not_or.mp hout
      rw [Nat.not_le] at hlt
      rw [Bool.not_eq_true] at hnew
      rw [if_neg hout]
      by_cases hwant : (serve.chunkOf i).length ≠ min (serve.manifest.size.toNat - i * chunk) chunk
      · rw [if_pos hwant]
        exact ⟨h, fun hdone => absurd hdone hnotdone⟩
      · rw [if_neg hwant]
        rw [not_not, ← hs.length] at hwant
        have hroom : i * chunk + (serve.chunkOf i).length ≤ f.data.length := by
          rw [hwant, hlen]
          rw [divCeil, chunk] at hi
          rw [chunk]
          omega
        have hmore : ({ f with
            data := splice f.data (i * chunk) (serve.chunkOf i)
            got := f.got.set i true
            missing := f.missing - 1
            state := f.state.more (min (serve.manifest.size.toNat - i * chunk) chunk)
            manifest := some serve.manifest } : Fetch).Honest serve := by
          constructor
          case standing =>
            intro why hwhy
            rcases hstate : f.state with _ | ⟨version, got, size⟩ | _ | why'
            all_goals
              change f.state.more _ = _ at hwhy
              rw [hstate] at hwhy
            · cases hwhy
            · cases hwhy
            · cases hwhy
            · exact h.standing _ hstate
          case manifest =>
            intro m hm
            cases hm
            rfl
          case data =>
            intro _ _
            refine ⟨(length_splice hroom).trans hlen, fun j hj => ?_⟩
            change (f.got.set i true).getD _ false = true at hj
            change (splice f.data (i * chunk) (serve.chunkOf i))[j]? = _
            rw [getElem?_splice hroom]
            rw [getD_set_true _ hlt] at hj
            by_cases hin : i * chunk ≤ j ∧ j < i * chunk + (serve.chunkOf i).length
            · -- A byte of the new chunk.
              rw [if_pos hin, Serve.chunkOf, List.getElem?_take_of_lt (by rw [chunk] at *; omega),
                List.getElem?_drop, Nat.add_sub_cancel' hin.1]
            · rw [if_neg hin]
              by_cases hji : j / chunk = i
              · -- Past the end of the exe.
                have hpast : serve.exe.length ≤ j := by
                  rw [hwant] at hin
                  rw [chunk] at *
                  omega
                rw [List.getElem?_eq_none (by omega), List.getElem?_eq_none hpast]
              · rw [if_neg hji] at hj
                exact hdata j hj
          case package => exact h.package
        have hopen' := (Fetch.finished_of_more (f := f)
          (n := min (serve.manifest.size.toNat - i * chunk) chunk)
          (g := { f with
            data := splice f.data (i * chunk) (serve.chunkOf i)
            got := f.got.set i true
            missing := f.missing - 1
            state := f.state.more (min (serve.manifest.size.toNat - i * chunk) chunk)
            manifest := some serve.manifest }) rfl).trans hopen
        by_cases hzero : f.missing - 1 = 0
        · -- That was the last: no chunk is missing, so every byte is the exe's.
          rw [if_pos hzero]
          have hall : ∀ j < serve.exe.length, (f.got.set i true).getD (j / chunk) false = true := by
            intro j hj
            have hmissing := count_set_true hlt hnew
            rw [hinv.missing] at hmissing
            have hnone : (f.got.set i true).count false = 0 := by omega
            have hjlt : j / chunk < (f.got.set i true).length := by
              rw [List.length_set, hcount, ← hs.length, divCeil, chunk]
              omega
            have hmem : (f.got.set i true).getD (j / chunk) false ∈ f.got.set i true := by
              rw [List.getD_eq_getElem _ _ hjlt]
              exact List.getElem_mem hjlt
            rw [List.count_eq_zero] at hnone
            by_contra hfalse
            rw [Bool.not_eq_true] at hfalse
            exact hnone (hfalse ▸ hmem)
          obtain ⟨hdone, hpackage⟩ := hmore.finish hs rfl hopen' hall
          exact ⟨hdone, fun _ => hpackage⟩
        · rw [if_neg hzero]
          refine ⟨hmore, fun hdone => ?_⟩
          rw [Fetch.finished] at hopen'
          change f.state.more _ = _ at hdone
          dsimp only at hopen'
          rw [hdone] at hopen'
          cases hopen'

end

/-- What holds of a client of an honest host. -/
structure Download.Honest (serve : Serve) (d : Download) : Prop where
  fetch : d.fetch.Honest serve
  taken : ∀ p ∈ d.taken, p.exe = serve.exe
  done : d.fetch.state = .done → d.taken ++ d.fetch.package.toList ≠ []

section
variable {libs : Libs} {key : List UInt8} {our : Text × Text} {serve : Serve} {d : Download}

variable (libs) in
theorem Download.Honest.poll (h : d.Honest serve) (now budget : ℕ) : (d.step libs (.poll now budget)).Honest serve := by
  obtain ⟨-, -, hmanifest, hstate, hdata, hgot, hpackage⟩ := d.fetch.poll_keeps now budget
  have hfinished : (d.fetch.poll now budget).1.finished = d.fetch.finished := by
    rw [Fetch.finished, Fetch.finished, hstate]
  constructor
  case fetch =>
    constructor
    case standing => exact fun why hwhy => h.fetch.standing why (hstate ▸ hwhy)
    case manifest => exact fun m hm => h.fetch.manifest m (hmanifest ▸ hm)
    case data =>
      intro hm hopen
      change (d.fetch.poll now budget).1.data.length = _ ∧ ∀ j, (d.fetch.poll now budget).1.got.getD _ _ = _ →
        (d.fetch.poll now budget).1.data[j]? = _
      rw [hdata, hgot]
      exact h.fetch.data (hmanifest ▸ hm) (hfinished ▸ hopen)
    case package => exact fun p hp => h.fetch.package p (hpackage ▸ hp)
  case taken => exact h.taken
  case done =>
    intro hdone
    change d.taken ++ (d.fetch.poll now budget).1.package.toList ≠ []
    rw [hpackage]
    exact h.done (hstate ▸ hdone)

variable (libs) in
theorem Download.Honest.take (h : d.Honest serve) : (d.step libs .take).Honest serve := by
  constructor
  case fetch => exact ⟨h.fetch.standing, h.fetch.manifest, h.fetch.data, by rintro p ⟨⟩⟩
  case taken =>
    intro p hp
    rcases List.mem_append.mp hp with hp | hp
    · exact h.taken p hp
    · exact h.fetch.package p (Option.mem_toList.mp hp)
  case done =>
    intro hdone
    change (d.taken ++ d.fetch.package.toList) ++ [] ≠ []
    rw [List.append_nil]
    exact h.done hdone

theorem Download.Honest.msg (h : d.Honest serve) (hinv : d.Inv libs key our) (hs : serve.Checked libs key)
    (hnewer : serve.manifest.newerThan our.1 our.2 = true) {m : UpdateMsg} (hm : serve.Says m) :
    (d.step libs (.msg m)).Honest serve := by
  have hkey : serve.Checked libs d.fetch.key := hinv.key_eq ▸ hs
  have hour : serve.manifest.newerThan d.fetch.our.1 d.fetch.our.2 = true := by rw [hinv.our_eq, hnewer]
  have hfetch : (d.fetch.onMsg libs m).Honest serve ∧ ((d.fetch.onMsg libs m).state = .done →
      d.fetch.state = .done ∧ (d.fetch.onMsg libs m).package = d.fetch.package ∨
        (d.fetch.onMsg libs m).package ≠ none) := by
    unfold Fetch.onMsg
    by_cases hfinished : d.fetch.finished = true
    · rw [if_pos hfinished]
      exact ⟨h.fetch, fun hdone => .inl ⟨hdone, rfl⟩⟩
    · rw [if_neg hfinished]
      rcases hm with rfl | ⟨i, hi, rfl⟩
      · dsimp only
        split_ifs
        · obtain ⟨hhonest, hdone⟩ := h.fetch.onManifest hkey hour
          exact ⟨hhonest, fun hstate => .inr (hdone hstate)⟩
        · exact ⟨h.fetch, fun hdone => .inl ⟨hdone, rfl⟩⟩
      · rw [Bool.not_eq_true] at hfinished
        obtain ⟨hhonest, hdone⟩ := h.fetch.onChunk hinv.fetch hkey hfinished hi
        exact ⟨hhonest, fun hstate => .inr (hdone hstate)⟩
  constructor
  case fetch => exact hfetch.1
  case taken => exact h.taken
  case done =>
    intro hdone
    change d.taken ++ (d.fetch.onMsg libs m).package.toList ≠ []
    rcases hfetch.2 hdone with ⟨hbefore, hsame⟩ | hpackage
    · rw [hsame]
      exact h.done hbefore
    · obtain ⟨p, hp⟩ := Option.ne_none_iff_exists'.mp hpackage
      rw [hp]
      exact List.append_ne_nil_of_right_ne_nil _ (List.cons_ne_nil _ _)

structure World.Inv (libs : Libs) (key : List UInt8) (our : Text × Text) (serve : Serve) (w : World) : Prop where
  client : w.client.Inv libs key our
  honest : w.client.Honest serve
  spoken : ∀ b ∈ w.toClient, ∃ msg, serve.Says msg ∧ b = msg.toBytes

theorem World.Inv.step {w : World} (h : w.Inv libs key our serve) (hs : serve.Checked libs key)
    (hnewer : serve.manifest.newerThan our.1 our.2 = true) (a : Action) :
    (w.step libs serve a).Inv libs key our serve := by
  cases a with
  | poll now budget => exact ⟨h.client.step (.poll now budget), h.honest.poll libs now budget, h.spoken⟩
  | take => exact ⟨h.client.step .take, h.honest.take libs, h.spoken⟩
  | toHost k =>
    rw [World.step]
    rcases w.toHost[k]?.bind UpdateMsg.parse with _ | msg
    · exact h
    · dsimp only
      refine ⟨h.client, h.honest, fun b hb => ?_⟩
      rcases List.mem_append.mp hb with hb | hb
      · exact h.spoken b hb
      · exact serve.answer_spoken msg b hb
  | toClient k =>
    rw [World.step]
    rcases hk : w.toClient[k]? with _ | b
    · exact h
    · obtain ⟨msg, hspoken, rfl⟩ := h.spoken b (List.mem_of_getElem? hk)
      rw [Option.bind_some, hspoken.parse]
      exact ⟨h.client.step (.msg msg), h.honest.msg h.client hs hnewer hspoken, h.spoken⟩

end

/-- A client that begins. -/
def World.start (version build : Text) (key : List UInt8) : World := { client := Download.start version build key }

theorem World.inv_run {libs : Libs} {key : List UInt8} {version build : Text} {serve : Serve}
    (hs : serve.Checked libs key) (hnewer : serve.manifest.newerThan version build = true)
    (actions : List Action) :
    (run (World.step libs serve) (World.start version build key) actions).Inv libs key (version, build)
      serve := by
  refine invariant_run (fun w : World => w.Inv libs key (version, build) serve) ?_
    (fun w a h => h.step hs hnewer a) actions
  refine ⟨Download.inv_start libs version build key, ⟨⟨?_, ?_, ?_, ?_⟩, ?_, ?_⟩, ?_⟩
  · rintro why ⟨⟩
  · rintro m ⟨⟩
  · exact fun hm => absurd rfl hm
  · rintro p ⟨⟩
  · rintro p ⟨⟩
  · rintro ⟨⟩
  · rintro b ⟨⟩

/-- Whatever messages come, only a genuine package is taken from a download, its chunks and bytes are counted,
and its polls keep to their budget. -/
theorem update_download (libs : Libs) (version build : Text) (key : List UInt8) : (∀ events : List Event,
      let d := run (Download.step libs) (Download.start version build key) events
      (∀ p ∈ d.taken, Genuine libs key (version, build) p) ∧ d.fetch.got.count false = d.fetch.missing ∧
        (∀ v got size, d.fetch.state = .downloading v got size →
          ∃ m, d.fetch.manifest = some m ∧ got = m.received d.fetch.got) ∧
        ∀ now budget, d.Polls now budget) ∧
    ∀ (signed exe : List UInt8) (serve : Serve), Serve.newWith libs signed exe key = .ok serve →
      serve.manifest.newerThan version build = true → ∀ actions : List Action,
      let w := run (World.step libs serve) (World.start version build key) actions
      (∀ why, w.client.fetch.state ≠ .failed why) ∧
        (w.client.fetch.state = .done → w.client.taken ++ w.client.fetch.package.toList ≠ []) ∧
        ∀ p ∈ w.client.taken ++ w.client.fetch.package.toList, p.exe = exe := by
  constructor
  · intro events d
    have h : d.Inv libs key (version, build) := Download.inv_run libs version build key events
    exact ⟨h.taken, h.fetch.missing, h.fetch.state, h.polls⟩
  · intro signed exe serve hserve hnewer actions w
    obtain ⟨hchecked, hexe⟩ := Serve.checked hserve
    have h : w.Inv libs key (version, build) serve := World.inv_run hchecked hnewer actions
    refine ⟨h.honest.fetch.standing, h.honest.done, fun p hp => ?_⟩
    rw [← hexe]
    rcases List.mem_append.mp hp with hp | hp
    · exact h.honest.taken p hp
    · exact h.honest.fetch.package p (Option.mem_toList.mp hp)

namespace Sample

def manifestText : Text :=
  ("\x7b\"product\":\"rdpio-windows-x86_64\",\"version\":\"0.3.0\",\"build\":\"2026.10.13.000" ++
    "0+b\",\"protocol_min\":4,\"protocol_max\":4,\"size\":3,\"sha256\":\"039058c6f2c0cb492c533" ++
    "b0a4d14ef77cc0f78abccced5287d84a1a2011cfb81\"\x7d").toList

def signatureText : Text :=
  "Mt2LOGNzAvSkB/deGgA/nXu8virD/WSL/IESSpW1nPAjjKCocuZ3W5HkfV+px24Qgyc6cm/X+iDsOAYrZMinBg==".toList

def signed : Signed := ⟨manifestText, signatureText⟩

def signedText : Text :=
  ("\x7b\n  \"manifest\": \"\x7b\\\"product\\\":\\\"rdpio-windows-x86_64\\\",\\\"version\\\":" ++
    "\\\"0.3.0\\\",\\\"build\\\":\\\"2026.10.13.0000+b\\\",\\\"protocol_min\\\":4,\\\"protocol" ++
    "_max\\\":4,\\\"size\\\":3,\\\"sha256\\\":\\\"039058c6f2c0cb492c533b0a4d14ef77cc0f78abccce" ++
    "d5287d84a1a2011cfb81\\\"\x7d\",\n  \"signature\": \"Mt2LOGNzAvSkB/deGgA/nXu8virD/WSL/IESS" ++
    "pW1nPAjjKCocuZ3W5HkfV+px24Qgyc6cm/X+iDsOAYrZMinBg==\"\n\x7d").toList

def key : List UInt8 :=
  [234, 74, 108, 99, 226, 156, 82, 10, 190, 245, 80, 123, 19, 46, 197, 249, 149, 71, 118, 174,
   190, 190, 123, 146, 66, 30, 234, 105, 20, 70, 210, 44]

def signature : List UInt8 :=
  [50, 221, 139, 56, 99, 115, 2, 244, 164, 7, 247, 94, 26, 0, 63, 157, 123, 188, 190, 42, 195,
   253, 100, 139, 252, 129, 18, 74, 149, 181, 156, 240, 35, 140, 160, 168, 114, 230, 119, 91, 145,
   228, 125, 95, 169, 199, 110, 16, 131, 39, 58, 114, 111, 215, 250, 32, 236, 56, 6, 43, 100, 200,
   167, 6]

def digest : List UInt8 :=
  [3, 144, 88, 198, 242, 192, 203, 73, 44, 83, 59, 10, 77, 20, 239, 119, 204, 15, 120, 171, 204,
   206, 213, 40, 125, 132, 161, 162, 1, 28, 251, 129]

def manifest : Manifest where
  product := product
  version := "0.3.0".toList
  build := "2026.10.13.0000+b".toList
  protocol_min := 4
  protocol_max := 4
  size := 3
  sha256 := digest.flatMap hex

/-- What the libraries make of this release. -/
def libs : Libs where
  signedFromSlice b := if b = asBytes signedText then some signed else none
  manifestFromStr t := if t = signed.manifest then some manifest else none
  base64Decode t := if t = signed.signature then some signature else none
  ed25519Verify k message sig := k = key && message = asBytes signed.manifest && sig = signature
  sha256 data := if data = [1, 2, 3] then digest else []

def serve : Serve := ⟨asBytes signedText, [1, 2, 3], manifest⟩

theorem verified_signed : verified libs key (asBytes signedText) = .ok manifest := by
  have hparse : libs.signedFromSlice (asBytes signedText) = some signed := by simp [libs]
  have hsignature : libs.base64Decode signed.signature = some signature := by simp [libs]
  have hverify : libs.ed25519Verify key (asBytes signed.manifest) signature = true := by simp [libs]
  have hmanifest : libs.manifestFromStr signed.manifest = some manifest := by simp [libs]
  exact verified_of hparse hsignature hverify hmanifest rfl (by decide)

theorem asBytes_eq_flatMap (t : Text) : asBytes t = t.flatMap String.utf8EncodeChar := by
  unfold asBytes
  change ((String.ofList t).toByteArray).data.toList = _
  rw [String.toByteArray_ofList, List.utf8Encode, List.toList_data_toByteArray]

theorem toList_append_of {s t : String} {l : List Char} (h : s.toList = l) : (s ++ t).toList = l ++ t.toList :=
  String.toList_append.trans (congrArg (· ++ _) h)

theorem libs_eq {signedText' manifestText' : Text} (hsigned : signedText = signedText')
    (hmanifest : manifestText = manifestText') :
    libs =
      { signedFromSlice b :=
          if b = signedText'.flatMap String.utf8EncodeChar then some ⟨manifestText', signatureText⟩ else none
        manifestFromStr t := if t = manifestText' then some manifest else none
        base64Decode t := if t = signatureText then some signature else none
        ed25519Verify k message sig :=
          k = key && message = manifestText'.flatMap String.utf8EncodeChar && sig = signature
        sha256 data := if data = [1, 2, 3] then digest else [] } := by
  subst hsigned hmanifest
  unfold libs signed
  simp only [asBytes_eq_flatMap]

theorem serve_eq {signedText' : Text} (hsigned : signedText = signedText') :
    serve = ⟨signedText'.flatMap String.utf8EncodeChar, [1, 2, 3], manifest⟩ := by
  subst hsigned
  unfold serve
  rw [asBytes_eq_flatMap]

theorem newWith_signed : Serve.newWith libs (asBytes signedText) [1, 2, 3] key = .ok serve := by
  rw [Serve.newWith, verified_signed]
  rfl

end Sample

/-- A download of this release, with every message doubled and the second request brought first. -/
theorem update_download_three :
    let w := run (World.step Sample.libs Sample.serve)
      (World.start "0.2.0".toList "2026.10.12.2050+a".toList Sample.key)
      [.poll 0 8, .toHost 0, .toHost 0, .toClient 1, .toClient 0, .poll 1 8, .toHost 1, .toHost 1,
        .toClient 3, .toClient 2, .take]
    w.client.fetch.state = .done ∧ w.client.taken ++ w.client.fetch.package.toList ≠ [] ∧
      ∀ p ∈ w.client.taken ++ w.client.fetch.package.toList, p.exe = [1, 2, 3] := by
  intro w
  have hnewer : Sample.serve.manifest.newerThan "0.2.0".toList "2026.10.12.2050+a".toList = true := by
    decide +kernel
  obtain ⟨-, hdone, hexe⟩ := (update_download Sample.libs "0.2.0".toList "2026.10.12.2050+a".toList
    Sample.key).2 _ _ Sample.serve Sample.newWith_signed hnewer [.poll 0 8, .toHost 0, .toHost 0, .toClient 1,
      .toClient 0, .poll 1 8, .toHost 1, .toHost 1, .toClient 3, .toClient 2, .take]
  have hstate : w.client.fetch.state = .done := by
    -- A long literal takes the square of its length to evaluate, so the texts are evaluated in pieces.
    have hsigned : Sample.signedText = _ :=
      Sample.toList_append_of (Sample.toList_append_of (Sample.toList_append_of (Sample.toList_append_of rfl)))
    have hmanifest : Sample.manifestText = _ := Sample.toList_append_of (Sample.toList_append_of rfl)
    subst w
    rewrite [Sample.libs_eq hsigned hmanifest, Sample.serve_eq hsigned]
    decide +kernel
  exact ⟨hstate, hdone hstate, hexe⟩

end Rdpio.Hyper.Update
