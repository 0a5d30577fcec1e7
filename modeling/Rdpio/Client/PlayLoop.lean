import Rdpio.Lib.Run

/-!
# What the decoder is given

The play loop of `run`, `crates/rdp-client/src/hyper_client.rs`: `awaiting_key`, `can_repair` and
`ltr_decoded` at every place that changes them, with the decoder as the frames it has decoded without error.
-/

namespace Rdpio.Client.PlayLoop

open Lib

structure Host where
  keyframe : ℕ → Bool
  ltr : ℕ → Bool
  recovery : ℕ → Bool
  base : ℕ → ℕ

/-- What comes of decoding a frame. -/
inductive Decoded where
  | ok
  /-- `gpu_reset`: the error is the GPU's; `cpu`: a decoder on the CPU can be made. -/
  | failed (gpu_reset cpu : Bool)
deriving DecidableEq

inductive Event where
  /-- The reassembler gave up on frames. -/
  | lost (first last : ℕ)
  | frame (frame_id : ℕ) (decoded : Decoded)
  /-- A backlog is skipped. -/
  | skip
  /-- The stream is visible again. -/
  | restored
  /-- The host's resolution changed, or the picture moves to another GPU: a new decoder on the GPU or on the CPU, if one
  can be made. -/
  | replaced (gpu : Option Bool)
  | drawFailed (gpu : Option Bool)
deriving DecidableEq

structure Player where
  awaiting_key : Bool
  can_repair : Bool
  ltr_decoded : Option ℕ
  bad_keyframes : ℕ
  gpu : Bool
  ended : Bool
  /-- The frames that this decoder has decoded without error. -/
  held : List ℕ
  next : Option ℕ
  /-- Every frame that was ever reported as decoded. -/
  reported : List ℕ
deriving DecidableEq

namespace Player

def start (gpu : Bool) : Player := ⟨true, false, none, 0, gpu, false, [], none, []⟩

variable (host : Host) (c : Player)

def newDecoder (gpu : Bool) : Player :=
  { c with awaiting_key := true, can_repair := false, ltr_decoded := none, gpu, held := [] }

def gives (frame_id : ℕ) : Bool :=
  !c.ended && (!c.awaiting_key || host.keyframe frame_id || (host.recovery frame_id && c.can_repair))

def onDecoded (frame_id : ℕ) : Player :=
  { c with
    awaiting_key := false
    bad_keyframes := 0
    can_repair := c.can_repair || host.keyframe frame_id
    ltr_decoded := if host.ltr frame_id then some frame_id else c.ltr_decoded
    held := frame_id :: c.held
    reported := if host.ltr frame_id then frame_id :: c.reported else c.reported }

def onFailed (frame_id : ℕ) (gpu_reset cpu : Bool) : Player :=
  let c := { c with awaiting_key := true, can_repair := false }
  if gpu_reset then { c with ended := true }
  else if host.keyframe frame_id then
    let c := { c with bad_keyframes := c.bad_keyframes + 1 }
    if 3 ≤ c.bad_keyframes then
      let c := { c with bad_keyframes := 0 }
      -- The GPU's decoder keeps failing: one on the CPU.
      if c.gpu && cpu then c.newDecoder false else { c with ended := true }
    else c
  else c

def step (c : Player) (e : Event) : Player :=
  if c.ended then c
  else
    match e with
    | .lost _ last => { c with awaiting_key := true, next := some (last + 1) }
    | .frame frame_id decoded =>
      let given := c.gives host frame_id
      let c := { c with next := some (frame_id + 1) }
      if given then
        match decoded with
        | .ok => c.onDecoded host frame_id
        | .failed gpu_reset cpu => c.onFailed host frame_id gpu_reset cpu
      else c
    | .skip => { c with awaiting_key := true }
    | .restored => { c with awaiting_key := true }
    | .replaced gpu =>
      match gpu with
      | some gpu => c.newDecoder gpu
      | none => { c with ended := true }
    | .drawFailed gpu =>
      match gpu with
      | some gpu => c.newDecoder gpu
      | none => { c with awaiting_key := true, can_repair := false, ltr_decoded := none }

def Has (frame_id : ℕ) : Prop :=
  host.keyframe frame_id = true ∨
    if host.recovery frame_id then host.base frame_id ∈ c.held else ∃ before, frame_id = before + 1 ∧ before ∈ c.held

/-- Every frame given to the decoder has what it needs. -/
def Sound (c : Player) (e : Event) : Prop :=
  ∀ frame_id decoded, e = .frame frame_id decoded → c.gives host frame_id = true → c.Has host frame_id

def Possible (c : Player) : Event → Prop
  | .lost first last => (∀ next ∈ c.next, first = next) ∧ first ≤ last
  | .frame frame_id _ => (∀ next ∈ c.next, frame_id = next) ∧
    (host.recovery frame_id = true → host.keyframe frame_id = false →
      host.base frame_id ∈ c.reported ∧ ∀ k < frame_id, host.keyframe k = true → k ≤ host.base frame_id)
  | _ => True

instance : (e : Event) → Decidable (c.Possible host e)
  | .lost _ _ => inferInstanceAs (Decidable (_ ∧ _))
  | .frame _ _ => inferInstanceAs (Decidable (_ ∧ _))
  | .skip | .restored | .replaced _ | .drawFailed _ => inferInstanceAs (Decidable True)

/-! ## What every event keeps -/

/-- The decoder holds a keyframe, and every long-term picture reported from that keyframe on. -/
def Repairs : Prop := ∃ k ∈ c.held, host.keyframe k = true ∧ ∀ l ∈ c.reported, k ≤ l → l ∈ c.held

structure Inv : Prop where
  follows : c.awaiting_key = false → ∃ before, c.next = some (before + 1) ∧ before ∈ c.held
  repairs : c.awaiting_key = false ∨ c.can_repair = true → c.Repairs host
  held : ∀ n ∈ c.held, ∃ next, c.next = some next ∧ n < next
  reported : ∀ n ∈ c.reported, ∃ next, c.next = some next ∧ n < next

variable {host c}

theorem inv_start (gpu : Bool) : (start gpu).Inv host :=
  ⟨fun h => absurd h.symm Bool.false_ne_true,
    fun h => h.elim (fun h => absurd h.symm Bool.false_ne_true) fun h => absurd h Bool.false_ne_true,
    fun _ h => absurd h List.not_mem_nil, fun _ h => absurd h List.not_mem_nil⟩

theorem Inv.await (h : c.Inv host) : ({ c with awaiting_key := true } : Player).Inv host :=
  ⟨fun hkey => absurd hkey.symm Bool.false_ne_true, fun hrep => h.repairs (.inr (hrep.resolve_left (by simp))), h.held,
    h.reported⟩

theorem Inv.later (h : c.Inv host) (hkey : c.awaiting_key = true) {n : ℕ} (hn : ∀ next, c.next = some next → next ≤ n) :
    ({ c with next := some n } : Player).Inv host := by
  refine ⟨fun hk => absurd (hkey.symm.trans hk) (by simp), h.repairs, fun m hm => ?_, fun m hm => ?_⟩
  · obtain ⟨next, hnext, hlt⟩ := h.held m hm
    exact ⟨n, rfl, Nat.lt_of_lt_of_le hlt (hn next hnext)⟩
  · obtain ⟨next, hnext, hlt⟩ := h.reported m hm
    exact ⟨n, rfl, Nat.lt_of_lt_of_le hlt (hn next hnext)⟩

theorem Inv.idle (h : c.Inv host) {c' : Player} (hkey : c'.awaiting_key = true) (hrep : c'.can_repair = false)
    (hheld : c'.held ⊆ c.held) (hreported : c'.reported = c.reported)
    (hnext : ∀ next, c.next = some next → ∃ next', c'.next = some next' ∧ next ≤ next') : c'.Inv host := by
  refine ⟨fun hk => absurd (hkey.symm.trans hk) (by simp), fun hr => ?_, fun m hm => ?_, fun m hm => ?_⟩
  · rcases hr with hr | hr
    · exact absurd (hkey.symm.trans hr) (by simp)
    · exact absurd (hrep.symm.trans hr) Bool.false_ne_true
  · obtain ⟨next, heq, hlt⟩ := h.held m (hheld hm)
    obtain ⟨next', heq', hle⟩ := hnext next heq
    exact ⟨next', heq', Nat.lt_of_lt_of_le hlt hle⟩
  · obtain ⟨next, heq, hlt⟩ := h.reported m (hreported ▸ hm)
    obtain ⟨next', heq', hle⟩ := hnext next heq
    exact ⟨next', heq', Nat.lt_of_lt_of_le hlt hle⟩

theorem Inv.has (h : c.Inv host) {frame_id : ℕ} {decoded : Decoded}
    (hpossible : c.Possible host (.frame frame_id decoded)) (hgives : c.gives host frame_id = true) :
    c.Has host frame_id := by
  obtain ⟨hnext, hrecovery⟩ := hpossible
  by_cases hkey : host.keyframe frame_id = true
  · exact .inl hkey
  · refine .inr ?_
    rw [Bool.not_eq_true] at hkey
    have hwhy : c.awaiting_key = false ∨ (host.recovery frame_id = true ∧ c.can_repair = true) := by
      simpa [gives, hkey] using (Bool.and_eq_true_iff.mp hgives).2
    by_cases hrec : host.recovery frame_id = true
    · rw [if_pos hrec]
      -- The decoder's keyframe is no younger than the last, and the picture is no older than that.
      obtain ⟨k, hk, hkeyframe, hheld⟩ := h.repairs (hwhy.imp_right And.right)
      obtain ⟨hreported, hlast⟩ := hrecovery hrec hkey
      obtain ⟨next, heq, hlt⟩ := h.held k hk
      have hbefore : k < frame_id := by rwa [hnext next heq]
      exact hheld _ hreported (hlast k hbefore hkeyframe)
    · rw [if_neg hrec]
      obtain ⟨before, heq, hheld⟩ := h.follows (hwhy.resolve_right fun hr => hrec hr.1)
      exact ⟨before, hnext _ heq, hheld⟩

theorem Inv.onDecoded (h : c.Inv host) {frame_id : ℕ} (hnext : ∀ next, c.next = some next → frame_id = next)
    (hgives : c.gives host frame_id = true) :
    (({ c with next := some (frame_id + 1) } : Player).onDecoded host frame_id).Inv host := by
  have hbound : ∀ {n next}, c.next = some next → n < next → n < frame_id := fun heq hlt => by
    rwa [hnext _ heq]
  have hreported : ∀ l ∈ (if host.ltr frame_id then frame_id :: c.reported else c.reported),
      l = frame_id ∨ l ∈ c.reported := by
    intro l hl
    split at hl
    · exact List.mem_cons.mp hl
    · exact .inr hl
  refine ⟨fun _ => ⟨frame_id, rfl, List.mem_cons_self⟩, fun _ => ?_, fun n hn => ⟨_, rfl, ?_⟩, fun n hn => ⟨_, rfl, ?_⟩⟩
  · by_cases hkey : host.keyframe frame_id = true
    · -- Nothing younger was reported.
      refine ⟨frame_id, List.mem_cons_self, hkey, fun l hl hle => ?_⟩
      rcases hreported l hl with rfl | hl
      · exact List.mem_cons_self
      · obtain ⟨next, heq, hlt⟩ := h.reported l hl
        exact absurd (hbound heq hlt) (Nat.not_lt.mpr hle)
    · have hwhy : c.awaiting_key = false ∨ c.can_repair = true := by
        rw [Bool.not_eq_true] at hkey
        have hor : c.awaiting_key = false ∨ (host.recovery frame_id = true ∧ c.can_repair = true) := by
          simpa [gives, hkey] using (Bool.and_eq_true_iff.mp hgives).2
        exact hor.imp_right And.right
      obtain ⟨k, hk, hkeyframe, hheld⟩ := h.repairs hwhy
      refine ⟨k, List.mem_cons_of_mem _ hk, hkeyframe, fun l hl hle => ?_⟩
      rcases hreported l hl with rfl | hl
      · exact List.mem_cons_self
      · exact List.mem_cons_of_mem _ (hheld l hl hle)
  · rcases List.mem_cons.mp hn with rfl | hn
    · exact Nat.lt_succ_self _
    · obtain ⟨next, heq, hlt⟩ := h.held n hn
      exact Nat.lt_succ_of_lt (hbound heq hlt)
  · rcases hreported n hn with rfl | hn
    · exact Nat.lt_succ_self _
    · obtain ⟨next, heq, hlt⟩ := h.reported n hn
      exact Nat.lt_succ_of_lt (hbound heq hlt)

theorem Inv.onFailed (h : c.Inv host) {frame_id : ℕ} (hid : ∀ next, c.next = some next → frame_id = next)
    (gpu_reset cpu : Bool) :
    (({ c with next := some (frame_id + 1) } : Player).onFailed host frame_id gpu_reset cpu).Inv host := by
  have hnext : ∀ next, c.next = some next → ∃ next', some (frame_id + 1) = some next' ∧ next ≤ next' :=
    fun next heq => ⟨frame_id + 1, rfl, hid next heq ▸ Nat.le_succ _⟩
  unfold Player.onFailed
  dsimp only
  split
  · exact h.idle rfl rfl (List.Subset.refl _) rfl hnext
  · split
    · split
      · split
        · exact h.idle rfl rfl (List.nil_subset _) rfl hnext
        · exact h.idle rfl rfl (List.Subset.refl _) rfl hnext
      · exact h.idle rfl rfl (List.Subset.refl _) rfl hnext
    · exact h.idle rfl rfl (List.Subset.refl _) rfl hnext

theorem Inv.step (h : c.Inv host) (e : Event) (hpossible : c.Possible host e) : (c.step host e).Inv host := by
  unfold Player.step
  by_cases hended : c.ended = true
  · rw [if_pos hended]
    exact h
  · rw [if_neg hended]
    have hnext : ∀ next, c.next = some next → ∃ next', c.next = some next' ∧ next ≤ next' := fun next heq =>
      ⟨next, heq, Nat.le_refl _⟩
    cases e with
    | lost first last =>
      refine h.await.later (c := { c with awaiting_key := true }) rfl fun next heq => ?_
      have := hpossible.1 next heq
      have := hpossible.2
      omega
    | frame frame_id decoded =>
      dsimp only
      split
      case isTrue hgives =>
        cases decoded with
        | ok => exact h.onDecoded hpossible.1 hgives
        | failed gpu_reset cpu => exact h.onFailed hpossible.1 gpu_reset cpu
      case isFalse hgives =>
        -- Skipped: a keyframe is awaited.
        have hkey : c.awaiting_key = true := by
          by_contra hkey
          refine hgives ?_
          rw [Bool.not_eq_true] at hkey hended
          rw [gives, hkey, hended]
          rfl
        exact h.later hkey fun next heq => hpossible.1 next heq ▸ Nat.le_succ _
    | skip => exact h.await
    | restored => exact h.await
    | replaced gpu =>
      rcases gpu with _ | gpu
      · exact ⟨h.follows, h.repairs, h.held, h.reported⟩
      · exact h.idle rfl rfl (List.nil_subset _) rfl hnext
    | drawFailed gpu =>
      rcases gpu with _ | gpu
      · exact h.idle rfl rfl (List.Subset.refl _) rfl hnext
      · exact h.idle rfl rfl (List.nil_subset _) rfl hnext

end Player

/-- **The decoder is never given what it cannot decode**: in every run that is possible, each frame given to it has
what it references among the frames this decoder has decoded without error. -/
theorem sound_of_possible (host : Host) (gpu : Bool) (es : List Event)
    (h : Along (Player.step host) (Player.Possible host) (.start gpu) es) :
    Along (Player.step host) (Player.Sound host) (.start gpu) es := by
  refine h.imp_of_invariant (Player.Inv host) (Player.inv_start gpu) (fun _ e hinv hpossible => hinv.step e hpossible)
    fun c e hinv hpossible frame_id decoded he hgives => ?_
  rw [he] at hpossible
  exact hinv.has hpossible hgives

def everyEighth : Host := ⟨(· % 8 == 0), (· % 8 == 1), (· % 8 == 4), (· - 3)⟩

/-- A frame is lost and repaired; then frames are skipped up to the next keyframe, for another decoder. -/
theorem sound_of_possible_repaired : Along (Player.step everyEighth) (Player.Sound everyEighth) (.start true)
      [.frame 0 .ok, .frame 1 .ok, .frame 2 .ok, .lost 3 3, .frame 4 .ok, .frame 5 .ok, .replaced (some true),
        .frame 6 .ok, .frame 7 .ok, .frame 8 .ok, .frame 9 .ok] :=
  sound_of_possible everyEighth true _ (by decide)

end Rdpio.Client.PlayLoop
