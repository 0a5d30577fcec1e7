import Mathlib.Data.Finset.SDiff
import Mathlib.Data.List.Sort
import Rdpio.Hyper.Input

/-!
# Fingers as Windows touch

`crates/rdp-client/src/hyper_touch.rs`. Windows is the set of contacts down, by slot: a frame that it takes
changes the set, and one that it refuses does not.
-/

namespace Rdpio.Client.HyperTouch

open Hyper.Input (TouchPhase)

def MAX_CONTACTS : ℕ := 10

/-- In milliseconds. -/
def HOLD_REFRESH : ℕ := 100

def INIT_RETRY : ℕ := 5000

inductive Flag where
  | DOWN
  | UPDATE
  | UP
  | CANCELED
  | INRANGE
  | INCONTACT
deriving DecidableEq

/-- A contact as a frame tells it. -/
structure Info where
  slot : ℕ
  pos : ℤ × ℤ
  flags : List Flag
deriving DecidableEq

structure Contact where
  slot : ℕ
  pos : ℤ × ℤ
deriving DecidableEq

structure Touch where
  ready : Bool
  failed_at : Option ℕ
  /-- By finger, in the order of their ids. -/
  contacts : List (UInt8 × Contact)
  last : Option ℕ
  owner : UInt64

/-- What the system answers to its `n`th call. -/
structure Env where
  /-- Whether `InjectTouchInput` takes the frame. -/
  takes : ℕ → Bool
  /-- Whether `InitializeTouchInjection` succeeds. -/
  starts : ℕ → Bool
  now : ℕ → ℕ
  screen : ℕ → ℤ × ℤ

structure Sent where
  down : Finset ℕ
  frame : List Info
  taken : Bool

structure World where
  touch : Touch
  calls : ℕ
  down : Finset ℕ
  sent : List Sent
  /-- Whose finger each slot's last one was. -/
  presser : ℕ → UInt64

def World.new : World := ⟨⟨false, none, [], none, 0⟩, 0, ∅, [], fun _ => 0⟩

def World.slots (w : World) : List ℕ := w.touch.contacts.map fun e => e.2.slot

def Info.lifts (i : Info) : Bool := .UP ∈ i.flags

def Info.presses (i : Info) : Bool := .DOWN ∈ i.flags

def after (down : Finset ℕ) (frame : List Info) : Finset ℕ :=
  down \ ((frame.filter Info.lifts).map Info.slot).toFinset ∪ ((frame.filter Info.presses).map Info.slot).toFinset

/-- A frame that Windows may take carries each contact that is down once and presses only slots that are up. -/
def Fair (down : Finset ℕ) (frame : List Info) : Prop :=
  (∀ s ∈ down, (frame.map Info.slot).count s = 1) ∧ ∀ i ∈ frame, i.presses → i.slot ∉ down

def Sent.Lifts (s : Sent) : Prop := ∃ i ∈ s.frame, i.lifts

section Code

variable (env : Env)

def to_pixels (screen : ℤ × ℤ) (x y : UInt16) : ℤ × ℤ :=
  let w := max screen.1 1
  let h := max screen.2 1
  (((x.toNat : ℤ) * (w - 1)).tdiv 65535, ((y.toNat : ℤ) * (h - 1)).tdiv 65535)

def World.ready (w : World) : Bool × World :=
  if w.touch.ready then (true, w)
  else
    let waits := w.touch.failed_at.any fun t => env.now w.calls - t < INIT_RETRY
    if waits then (false, { w with calls := w.calls + 1 })
    else if env.starts w.calls then (true, { w with calls := w.calls + 1, touch := { w.touch with ready := true } })
    else
      (false, { w with calls := w.calls + 1, touch := { w.touch with failed_at := some (env.now w.calls) } })

def World.frame (w : World) (changed : Option Info) : List Info :=
  let others := (w.touch.contacts.map Prod.snd).filter fun c => changed.all fun i => i.slot ≠ c.slot
  others.map (fun c => ⟨c.slot, c.pos, [.UPDATE, .INRANGE, .INCONTACT]⟩) ++ changed.toList

def World.inject (changed : Option Info) (w : World) : Bool × World :=
  let frame := w.frame changed
  if frame = [] then (true, w)
  else
    let taken := env.takes w.calls
    (taken, { w with
      touch := { w.touch with last := some (env.now w.calls) }
      calls := w.calls + 1
      down := if taken then after w.down frame else w.down
      sent := w.sent ++ [⟨w.down, frame, taken⟩]
      presser := fun s =>
        if taken ∧ ∃ i ∈ frame, i.presses ∧ i.slot = s then w.touch.owner else w.presser s })

def get (contacts : List (UInt8 × Contact)) (id : UInt8) : Option Contact :=
  (contacts.find? fun e => e.1 = id).map Prod.snd

def remove (contacts : List (UInt8 × Contact)) (id : UInt8) : List (UInt8 × Contact) :=
  contacts.filter fun e => e.1 ≠ id

def insert (contacts : List (UInt8 × Contact)) (id : UInt8) (c : Contact) : List (UInt8 × Contact) :=
  contacts.filter (fun e => e.1 < id) ++ (id, c) :: contacts.filter fun e => id < e.1

def move (contacts : List (UInt8 × Contact)) (id : UInt8) (pos : ℤ × ℤ) : List (UInt8 × Contact) :=
  contacts.map fun e => if e.1 = id then (e.1, { e.2 with pos }) else e

def World.setContacts (w : World) (contacts : List (UInt8 × Contact)) : World :=
  { w with touch := { w.touch with contacts } }

def free_slot (contacts : List (UInt8 × Contact)) : Option ℕ :=
  (List.range MAX_CONTACTS).find? fun s => contacts.all fun e => e.2.slot ≠ s

/-- `TouchPhase::Down`, once the finger is not held. -/
def World.press (id : UInt8) (pos : ℤ × ℤ) (w : World) : World :=
  match free_slot w.touch.contacts with
  | none => w
  | some slot =>
    match w.inject env (some ⟨slot, pos, [.DOWN, .INRANGE, .INCONTACT]⟩) with
    -- Only a finger Windows took is kept.
    | (true, w) => w.setContacts (insert w.touch.contacts id ⟨slot, pos⟩)
    | (false, w) => w

/-- `TouchPhase::Move`. -/
def World.drag (id : UInt8) (pos : ℤ × ℤ) (w : World) : World :=
  match get w.touch.contacts id with
  | none => w
  | some c =>
    ((w.setContacts (move w.touch.contacts id pos)).inject env (some ⟨c.slot, pos, [.UPDATE, .INRANGE, .INCONTACT]⟩)).2

def World.lift (id : UInt8) (up : Bool) (pos : ℤ × ℤ) (w : World) : World :=
  match get w.touch.contacts id with
  | none => w
  | some c =>
    let pos := if up then pos else c.pos
    let flags := if up then [Flag.UP] else [.UP, .CANCELED]
    ((w.setContacts (remove w.touch.contacts id)).inject env (some ⟨c.slot, pos, flags⟩)).2

def World.applyWith (again : World → World) (id : UInt8) (phase : TouchPhase) (x y : UInt16)
    (w : World) : World :=
  match w.ready env with
  | (false, w) => w
  | (true, w) =>
    let pos := to_pixels (env.screen w.calls) x y
    let w := { w with calls := w.calls + 1 }
    match phase with
    | .down => (if (get w.touch.contacts id).isSome then again w else w).press env id pos
    | .move => w.drag env id pos
    | .up => w.lift env id true pos
    | .cancel => w.lift env id false pos

def World.cancel (id : UInt8) (x y : UInt16) : World → World := World.applyWith env (fun w => w) id .cancel x y

def World.applyTouch (id : UInt8) (phase : TouchPhase) (x y : UInt16) : World → World :=
  World.applyWith env (World.cancel env id x y) id phase x y

def World.cancel_all (w : World) : World :=
  (w.touch.contacts.map Prod.fst).foldl (fun w id => w.applyTouch env id .cancel 0 0) w

inductive Call where
  | apply (owner : UInt64) (id : UInt8) (phase : TouchPhase) (x y : UInt16)
  | keep_alive
  | release_all (owner : UInt64)

def World.setOwner (w : World) (owner : UInt64) : World := { w with touch := { w.touch with owner } }

def World.call (w : World) : Call → World
  | .apply owner id phase x y =>
    (if w.touch.owner ≠ owner then (w.cancel_all env).setOwner owner else w).applyTouch env id phase x y
  | .keep_alive =>
    let due := w.touch.last.all fun l => HOLD_REFRESH ≤ env.now w.calls - l
    let w' := { w with calls := w.calls + 1 }
    if w.touch.contacts ≠ [] ∧ due then (w'.inject env none).2 else w'
  | .release_all owner => if w.touch.owner = owner then w.cancel_all env else w

def run (calls : List Call) : World := calls.foldl (World.call env) World.new

end Code

/-! ### What is kept against what is down -/

def Judged (K D : Finset ℕ) (sent : List Sent) : Prop :=
  ((∀ f ∈ sent, f.Lifts → f.taken) ∧ K = D ∧ ∀ f ∈ sent, f.taken → Fair f.down f.frame) ∨
    ((∃ f ∈ sent, f.Lifts ∧ ¬ f.taken) ∧ ((∃ s ∈ D, s ∉ K) ∨ ∃ f ∈ sent, f.taken ∧ ¬ Fair f.down f.frame))

theorem Judged.iff {K D : Finset ℕ} {sent : List Sent} (h : Judged K D sent) :
    (K = D ∧ ∀ f ∈ sent, f.taken → Fair f.down f.frame) ↔ ∀ f ∈ sent, f.Lifts → f.taken := by
  rcases h with ⟨hno, hgood⟩ | ⟨⟨f, hf, hlifts, hnot⟩, hbad⟩
  · exact iff_of_true hgood hno
  · refine iff_of_false ?_ fun h => hnot (h f hf hlifts)
    rintro ⟨rfl, hfair⟩
    rcases hbad with ⟨s, hs, hns⟩ | ⟨f, hf, htaken, hunfair⟩
    · exact hns hs
    · exact hunfair (hfair f hf htaken)

structure Step (K K' D : Finset ℕ) (frame : List Info) (taken : Bool) : Prop where
  fair : D = K → Fair D frame
  lost : ∀ d ∈ D, d ∉ K → ¬ Fair D frame
  kept : D = K → taken → K' = after D frame
  refused : ¬ taken → K' ⊆ K
  rests : ¬ taken → ¬ (∃ i ∈ frame, i.lifts) → K' = K
  lifted : ¬ taken → (∃ i ∈ frame, i.lifts) → ∃ s ∈ K, s ∉ K'

theorem Judged.step {K K' D : Finset ℕ} {sent : List Sent} {frame : List Info} {taken : Bool}
    (h : Judged K D sent) (hs : Step K K' D frame taken) :
    Judged K' (if taken then after D frame else D) (sent ++ [⟨D, frame, taken⟩]) := by
  rcases h with ⟨hno, rfl, hfair⟩ | ⟨⟨f, hf, hlifts, hnot⟩, hbad⟩
  · by_cases ht : taken
    · left
      rw [if_pos ht]
      simp only [List.forall_mem_append, List.forall_mem_singleton]
      exact ⟨⟨hno, fun _ => ht⟩, hs.kept rfl ht, hfair, fun _ => hs.fair rfl⟩
    · by_cases hl : ∃ i ∈ frame, i.lifts
      · right
        rw [if_neg ht]
        exact ⟨⟨_, List.mem_append_right _ List.mem_cons_self, hl, ht⟩, .inl (hs.lifted ht hl)⟩
      · left
        rw [if_neg ht]
        simp only [List.forall_mem_append, List.forall_mem_singleton]
        exact ⟨⟨hno, fun h => absurd h hl⟩, hs.rests ht hl, hfair, fun h => absurd h ht⟩
  · -- Once lost, a contact is lost until a frame that cannot be right is taken.
    refine .inr ⟨⟨f, List.mem_append_left _ hf, hlifts, hnot⟩, ?_⟩
    rcases hbad with ⟨s, hsD, hsK⟩ | ⟨f', hf', htaken, hunfair⟩
    · by_cases ht : taken
      · exact .inr ⟨_, List.mem_append_right _ List.mem_cons_self, ht, hs.lost s hsD hsK⟩
      · rw [if_neg ht]
        exact .inl ⟨s, hsD, fun hK' => hsK (hs.refused ht hK')⟩
    · exact .inr ⟨f', List.mem_append_left _ hf', htaken, hunfair⟩

/-- The frame of the contacts kept, one of them changed. -/
theorem slots_frame (w : World) (changed : Option Info) : (w.frame changed).map Info.slot =
      (w.slots.filter fun s => changed.all fun i => i.slot ≠ s) ++ changed.toList.map Info.slot := by
  simp only [World.frame, World.slots, List.map_append, List.map_map, List.filter_map]
  rfl

theorem mem_frame {w : World} {changed : Option Info} {i : Info} (hi : i ∈ w.frame changed) :
    changed = some i ∨ i.lifts = false ∧ i.presses = false := by
  simp only [World.frame, List.mem_append, List.mem_map, Option.mem_toList] at hi
  rcases hi with ⟨c, -, rfl⟩ | hi
  · exact .inr ⟨rfl, rfl⟩
  · exact .inl hi

theorem frame_some (w : World) (i : Info) : i ∈ w.frame (some i) := by simp [World.frame]

theorem lifts_frame {w : World} {changed : Option Info} :
    (∃ i ∈ w.frame changed, i.lifts) ↔ ∃ i ∈ changed, i.lifts := by
  constructor
  · rintro ⟨i, hi, hl⟩
    rcases mem_frame hi with rfl | ⟨hno, -⟩
    · exact ⟨i, rfl, hl⟩
    · exact absurd hl (by simp [hno])
  · rintro ⟨i, rfl, hl⟩
    exact ⟨i, frame_some w i, hl⟩

theorem fair_frame {w : World} (hw : w.slots.Nodup) {changed : Option Info} {D : Finset ℕ} : Fair D (w.frame changed) ↔
      (∀ s ∈ D, s ∈ w.slots ∨ ∃ i ∈ changed, i.slot = s) ∧ ∀ i ∈ changed, i.presses → i.slot ∉ D := by
  have hnodup : ((w.frame changed).map Info.slot).Nodup := by
    rw [slots_frame]
    cases changed with
    | none => simpa using hw
    | some i =>
      refine List.Nodup.append (hw.filter _) (List.nodup_singleton _) ?_
      intro s hs hi
      simp only [List.mem_filter, Option.all_some, decide_eq_true_eq] at hs
      simp only [Option.toList_some, List.map_cons, List.map_nil, List.mem_singleton] at hi
      exact hs.2 hi.symm
  have hmem (s : ℕ) : s ∈ (w.frame changed).map Info.slot ↔ s ∈ w.slots ∨ ∃ i ∈ changed, i.slot = s := by
    rw [slots_frame]
    cases changed with
    | none => simp
    | some i =>
      simp only [Option.all_some, List.mem_append, List.mem_filter, decide_eq_true_eq, Option.toList_some,
        List.map_cons, List.map_nil, List.mem_singleton, Option.mem_def, Option.some.injEq,
        exists_eq_left']
      by_cases h : i.slot = s
      · simp [h]
      · simp [h, Ne.symm h]
  refine and_congr (forall₂_congr fun s _ => ?_) ?_
  · rw [← hmem]
    exact ⟨fun hc => List.count_pos_iff.mp (by omega), fun hs => List.count_eq_one_of_mem hnodup hs⟩
  · constructor
    · rintro h i rfl
      exact h i (frame_some w i)
    · intro h i hi hp
      rcases mem_frame hi with rfl | ⟨-, hno⟩
      · exact h i rfl hp
      · exact absurd hp (by simp [hno])

theorem mem_after {w : World} {changed : Option Info} {D : Finset ℕ} {s : ℕ} : s ∈ after D (w.frame changed) ↔
      s ∈ D ∧ (∀ i ∈ changed, i.lifts → i.slot ≠ s) ∨ ∃ i ∈ changed, i.presses ∧ i.slot = s := by
  simp only [after, Finset.mem_union, Finset.mem_sdiff, List.mem_toFinset, List.mem_map, List.mem_filter]
  refine or_congr (and_congr_right fun _ => ?_) ?_
  · constructor
    · rintro h i rfl hl rfl
      exact h ⟨i, ⟨frame_some w i, hl⟩, rfl⟩
    · rintro h ⟨i, ⟨hi, hl⟩, rfl⟩
      rcases mem_frame hi with rfl | ⟨hno, -⟩
      · exact h i rfl hl rfl
      · exact absurd hl (by simp [hno])
  · constructor
    · rintro ⟨i, ⟨hi, hp⟩, rfl⟩
      rcases mem_frame hi with rfl | ⟨-, hno⟩
      · exact ⟨i, rfl, hp, rfl⟩
      · exact absurd hp (by simp [hno])
    · rintro ⟨i, rfl, hp, rfl⟩
      exact ⟨i, ⟨frame_some w i, hp⟩, rfl⟩

theorem mem_of_get {l : List (UInt8 × Contact)} {id : UInt8} {c : Contact} (h : get l id = some c) : (id, c) ∈ l := by
  obtain ⟨e, he, rfl⟩ := Option.map_eq_some_iff.mp h
  have hid : e.1 = id := by simpa using List.find?_some he
  rw [← hid]
  exact List.mem_of_find?_eq_some he

theorem remove_of_get {l : List (UInt8 × Contact)} {id : UInt8} (h : get l id = none) : remove l id = l := by
  rw [get, Option.map_eq_none_iff, List.find?_eq_none] at h
  exact List.filter_eq_self.mpr fun e he => by simpa using h e he

theorem remove_perm {l : List (UInt8 × Contact)} {id : UInt8} {c : Contact}
    (hids : (l.map Prod.fst).Nodup) (h : (id, c) ∈ l) : l.Perm ((id, c) :: remove l id) := by
  induction l with
  | nil => simp at h
  | cons e l ih =>
    rw [List.map_cons, List.nodup_cons] at hids
    rcases List.mem_cons.mp h with rfl | h
    · have hself : remove l id = l := List.filter_eq_self.mpr fun e he => by
        have : e.1 ≠ id := fun heq => hids.1 (List.mem_map.mpr ⟨e, he, heq⟩)
        simpa using this
      have hcons : remove ((id, c) :: l) id = l := by
        rw [remove, List.filter_cons_of_neg (by simp)]
        exact hself
      rw [hcons]
    · have hne : e.1 ≠ id := fun heq => hids.1 (heq ▸ List.mem_map_of_mem h)
      have hcons : remove (e :: l) id = e :: remove l id := by simp [remove, hne]
      rw [hcons]
      exact ((ih hids.2 h).cons e).trans (List.Perm.swap ..)

theorem insert_perm {l : List (UInt8 × Contact)} {id : UInt8} (c : Contact)
    (h : id ∉ l.map Prod.fst) : (insert l id c).Perm ((id, c) :: l) := by
  have hgt : l.filter (fun e => id < e.1) = l.filter fun e => ! decide (e.1 < id) := by
    refine List.filter_congr fun e he => ?_
    have hne : e.1 ≠ id := fun heq => h (heq ▸ List.mem_map_of_mem he)
    have hiff : id < e.1 ↔ ¬ e.1 < id := by
      rw [UInt8.not_lt, UInt8.lt_iff_le_and_ne]
      exact ⟨And.left, fun hle => ⟨hle, hne.symm⟩⟩
    rw [decide_eq_decide.mpr hiff, decide_not]
  rw [insert, hgt]
  exact List.perm_middle.trans ((List.filter_append_perm _ l).cons _)

theorem map_move (l : List (UInt8 × Contact)) (id : UInt8) (pos : ℤ × ℤ) :
    (move l id pos).map Prod.fst = l.map Prod.fst ∧
      (move l id pos).map (fun e => e.2.slot) = l.map fun e => e.2.slot := by
  constructor
  all_goals
    rw [move, List.map_map]
    refine List.map_congr_left fun e _ => ?_
    by_cases he : e.1 = id <;> simp [he]

/-! ### What every call keeps -/

structure Kept (w : World) : Prop where
  ids : (w.touch.contacts.map Prod.fst).Nodup
  slots : w.slots.Nodup
  lt : ∀ s ∈ w.slots, s < MAX_CONTACTS
  ready : w.touch.ready = false → w.touch.contacts = []
  mine : ∀ s ∈ w.slots, w.presser s = w.touch.owner
  judged : Judged w.slots.toFinset w.down w.sent

variable {v : Env}

theorem judged_inject (w : World) {changed : Option Info} {K K' : Finset ℕ}
    (h : Judged K w.down w.sent) (hne : w.frame changed ≠ [])
    (hs : Step K K' w.down (w.frame changed) (w.inject v changed).1) :
    Judged K' (w.inject v changed).2.down (w.inject v changed).2.sent := by
  simp only [World.inject, if_neg hne] at hs ⊢
  exact h.step hs

theorem frame_ne_nil (w : World) (i : Info) : w.frame (some i) ≠ [] := List.ne_nil_of_mem (frame_some w i)

theorem inject_same (w : World) (changed : Option Info) : (w.inject v changed).2.touch.contacts = w.touch.contacts ∧
      (w.inject v changed).2.touch.ready = w.touch.ready ∧
      (w.inject v changed).2.touch.owner = w.touch.owner := by
  rw [World.inject]
  split <;> exact ⟨rfl, rfl, rfl⟩

theorem inject_presser (w : World) (changed : Option Info) {s : ℕ} (h : w.presser s = w.touch.owner) :
    (w.inject v changed).2.presser s = w.touch.owner := by
  rw [World.inject]
  split
  · exact h
  · simp only [h, ite_self]

theorem Step.rest {w : World} (hw : w.slots.Nodup) {changed : Option Info}
    (hslot : ∀ i ∈ changed, i.slot ∈ w.slots ∧ i.presses = false ∧ i.lifts = false) {D : Finset ℕ}
    {taken : Bool} : Step w.slots.toFinset w.slots.toFinset D (w.frame changed) taken where
  fair := by
    rintro rfl
    refine (fair_frame hw).mpr ⟨fun s hs => .inl (List.mem_toFinset.mp hs), fun i hi hp => ?_⟩
    exact absurd hp (by simp [(hslot i hi).2.1])
  lost := by
    intro d hd hK hfair
    rw [List.mem_toFinset] at hK
    rcases ((fair_frame hw).mp hfair).1 d hd with hs | ⟨i, hi, rfl⟩
    · exact hK hs
    · exact hK (hslot i hi).1
  kept := by
    rintro rfl _
    ext s
    rw [mem_after]
    constructor
    · exact fun hs => .inl ⟨hs, fun i hi hl => absurd hl (by simp [(hslot i hi).2.2])⟩
    · rintro (⟨hs, -⟩ | ⟨i, hi, hp, -⟩)
      · exact hs
      · exact absurd hp (by simp [(hslot i hi).2.1])
  refused := fun _ => subset_rfl
  rests := fun _ _ => rfl
  lifted := by
    intro _ hl
    obtain ⟨i, hi, hl⟩ := lifts_frame.mp hl
    exact absurd hl (by simp [(hslot i hi).2.2])

theorem Kept.rest {w : World} (h : Kept w) {changed : Option Info} (hne : w.frame changed ≠ [])
    (hslot : ∀ i ∈ changed, i.slot ∈ w.slots ∧ i.presses = false ∧ i.lifts = false) :
    Kept (w.inject v changed).2 := by
  obtain ⟨hc, hr, ho⟩ := inject_same (v := v) w changed
  have hslots : (w.inject v changed).2.slots = w.slots := by rw [World.slots, World.slots, hc]
  constructor
  · rw [hc]
    exact h.ids
  · rw [hslots]
    exact h.slots
  · rw [hslots]
    exact h.lt
  · rw [hc, hr]
    exact h.ready
  · rw [hslots, ho]
    exact fun s hs => inject_presser w changed (h.mine s hs)
  · rw [hslots]
    exact judged_inject w h.judged hne (Step.rest h.slots hslot)

theorem Kept.drag {w : World} (h : Kept w) (id : UInt8) (pos : ℤ × ℤ) :
    Kept (w.drag v id pos) ∧ (w.drag v id pos).touch.owner = w.touch.owner := by
  rw [World.drag]
  cases hget : get w.touch.contacts id with
  | none => exact ⟨h, rfl⟩
  | some c =>
    obtain ⟨hfst, hslot⟩ := map_move w.touch.contacts id pos
    have hslots : (w.setContacts (move w.touch.contacts id pos)).slots = w.slots := hslot
    have hkept : Kept (w.setContacts (move w.touch.contacts id pos)) := by
      constructor
      · exact hfst ▸ h.ids
      · exact hslots ▸ h.slots
      · exact hslots ▸ h.lt
      · intro hr
        have := h.ready hr
        simp only [World.setContacts, this, move, List.map_nil]
      · rw [hslots]
        exact h.mine
      · rw [hslots]
        exact h.judged
    refine ⟨hkept.rest (frame_ne_nil _ _) ?_, (inject_same _ _).2.2⟩
    intro i hi
    obtain rfl := Option.mem_some_iff.mp hi
    rw [hslots]
    exact ⟨List.mem_map_of_mem (mem_of_get hget), rfl, rfl⟩

/-- A lift's frame, the finger being forgotten already. -/
theorem Kept.lift {w : World} (h : Kept w) (hr : w.touch.ready = true) (id : UInt8) (up : Bool)
    (pos : ℤ × ℤ) :
    Kept (w.lift v id up pos) ∧ (w.lift v id up pos).touch.contacts = remove w.touch.contacts id ∧
      (w.lift v id up pos).touch.ready = true ∧ (w.lift v id up pos).touch.owner = w.touch.owner := by
  rw [World.lift]
  cases hget : get w.touch.contacts id with
  | none => exact ⟨h, (remove_of_get hget).symm, hr, rfl⟩
  | some c =>
    simp only
    set i : Info := ⟨c.slot, if up then pos else c.pos, if up then [Flag.UP] else [.UP, .CANCELED]⟩
    set w' := w.setContacts (remove w.touch.contacts id) with hw'
    have hlifts : i.lifts = true := by cases up <;> rfl
    have hpresses : i.presses = false := by cases up <;> rfl
    have hperm := remove_perm h.ids (mem_of_get hget)
    have hslots : w.slots.Perm (c.slot :: w'.slots) := hperm.map fun e : UInt8 × Contact => e.2.slot
    have hnodup := hslots.nodup_iff.mp h.slots
    rw [List.nodup_cons] at hnodup
    have hmem (s : ℕ) : s ∈ w.slots ↔ s = c.slot ∨ s ∈ w'.slots := by
      rw [hslots.mem_iff, List.mem_cons]
    have hstep : Step w.slots.toFinset w'.slots.toFinset w.down (w'.frame (some i))
        (w'.inject v (some i)).1 := by
      constructor
      · intro hD
        refine (fair_frame hnodup.2).mpr ⟨fun s hs => ?_, ?_⟩
        · rw [hD, List.mem_toFinset, hmem] at hs
          exact hs.symm.imp_right fun hs => ⟨i, rfl, hs.symm⟩
        · intro _ hi hp
          obtain rfl := Option.mem_some_iff.mp hi
          exact absurd hp (by simp [hpresses])
      · intro d hd hK hfair
        rw [List.mem_toFinset, hmem, not_or] at hK
        rcases ((fair_frame hnodup.2).mp hfair).1 d hd with hs | ⟨_, hi, hs⟩
        · exact hK.2 hs
        · obtain rfl := Option.mem_some_iff.mp hi
          exact hK.1 hs.symm
      · intro hD _
        ext s
        rw [mem_after, hD, List.mem_toFinset, List.mem_toFinset, hmem]
        constructor
        · intro hs
          refine .inl ⟨.inr hs, fun _ hi _ heq => ?_⟩
          obtain rfl := Option.mem_some_iff.mp hi
          exact hnodup.1 (show i.slot ∈ w'.slots from heq.symm ▸ hs)
        · rintro (⟨hs, hne⟩ | ⟨_, hi, hp, -⟩)
          · exact hs.resolve_left fun hs => hne i rfl hlifts hs.symm
          · obtain rfl := Option.mem_some_iff.mp hi
            exact absurd hp (by simp [hpresses])
      · intro _ s hs
        rw [List.mem_toFinset] at hs ⊢
        exact (hmem s).mpr (.inr hs)
      · intro _ hno
        exact absurd (lifts_frame.mpr ⟨i, rfl, hlifts⟩) hno
      · intro _ _
        refine ⟨c.slot, ?_, ?_⟩
        · rw [List.mem_toFinset, hmem]
          exact .inl rfl
        · rw [List.mem_toFinset]
          exact hnodup.1
    obtain ⟨hc, hr', ho⟩ := inject_same (v := v) w' (some i)
    have hsame : (w'.inject v (some i)).2.slots = w'.slots := by rw [World.slots, World.slots, hc]
    refine ⟨?_, hc, hr'.trans hr, ho⟩
    constructor
    · rw [hc]
      exact (List.nodup_cons.mp ((hperm.map Prod.fst).nodup_iff.mp h.ids)).2
    · rw [hsame]
      exact hnodup.2
    · rw [hsame]
      exact fun s hs => h.lt s ((hmem s).mpr (.inr hs))
    · rw [hr']
      exact fun hf => absurd (hr.symm.trans hf) (by decide)
    · rw [hsame, ho]
      exact fun s hs => inject_presser w' _ (h.mine s ((hmem s).mpr (.inr hs)))
    · rw [hsame]
      exact judged_inject w' h.judged (frame_ne_nil _ _) hstep

theorem slot_free {l : List (UInt8 × Contact)} {s : ℕ} (h : free_slot l = some s) :
    s < MAX_CONTACTS ∧ s ∉ l.map fun e => e.2.slot := by
  have hlt := List.mem_of_find?_eq_some h
  have hfree := List.find?_some h
  rw [List.mem_range] at hlt
  simp only [List.all_eq_true, decide_eq_true_eq] at hfree
  refine ⟨hlt, fun hs => ?_⟩
  obtain ⟨e, he, heq⟩ := List.mem_map.mp hs
  exact hfree e he heq

/-- A press's frame, and the finger kept if it was taken. -/
theorem Kept.press {w : World} (h : Kept w) (hr : w.touch.ready = true) {id : UInt8}
    (hid : id ∉ w.touch.contacts.map Prod.fst) (pos : ℤ × ℤ) :
    Kept (w.press v id pos) ∧ (w.press v id pos).touch.owner = w.touch.owner := by
  rw [World.press]
  cases hslot : free_slot w.touch.contacts with
  | none => exact ⟨h, rfl⟩
  | some slot =>
    simp only
    obtain ⟨hlt, hfree⟩ := slot_free hslot
    set i : Info := ⟨slot, pos, [.DOWN, .INRANGE, .INCONTACT]⟩ with hi
    have hstep (taken : Bool) : Step w.slots.toFinset
        (if taken then Insert.insert slot w.slots.toFinset else w.slots.toFinset) w.down
        (w.frame (some i)) taken := by
      have hno : ¬ ∃ i' ∈ w.frame (some i), i'.lifts := by
        rw [lifts_frame]
        rintro ⟨_, hi', hl⟩
        obtain rfl := Option.mem_some_iff.mp hi'
        cases hl
      constructor
      · intro hD
        refine (fair_frame h.slots).mpr ⟨fun s hs => .inl ?_, fun _ hi' _ => ?_⟩
        · rwa [hD, List.mem_toFinset] at hs
        · obtain rfl := Option.mem_some_iff.mp hi'
          rw [hD, List.mem_toFinset]
          exact hfree
      · intro d hd hK hfair
        rw [List.mem_toFinset] at hK
        obtain ⟨hcarried, hpress⟩ := (fair_frame h.slots).mp hfair
        rcases hcarried d hd with hs | ⟨_, hi', rfl⟩
        · exact hK hs
        · obtain rfl := Option.mem_some_iff.mp hi'
          exact hpress i rfl (by rfl) hd
      · intro hD ht
        rw [if_pos ht]
        ext s
        rw [mem_after, hD, Finset.mem_insert, or_comm]
        refine or_congr (iff_self_and.mpr fun _ i' hi' hl => ?_) ?_
        · exact absurd (lifts_frame.mpr ⟨i', hi', hl⟩) hno
        · constructor
          · rintro rfl
            exact ⟨i, rfl, rfl, rfl⟩
          · rintro ⟨_, hi', -, rfl⟩
            obtain rfl := Option.mem_some_iff.mp hi'
            rfl
      · intro ht
        rw [if_neg ht]
      · intro ht _
        rw [if_neg ht]
      · exact fun _ hl => absurd hl hno
    have hjudged := judged_inject w h.judged (frame_ne_nil w i) (hstep (w.inject v (some i)).1)
    obtain ⟨hc, hr', ho⟩ := inject_same (v := v) w (some i)
    have hmine : ∀ s, w.presser s = w.touch.owner → (w.inject v (some i)).2.presser s = w.touch.owner :=
      fun s => inject_presser w (some i)
    have hpressed : (w.inject v (some i)).1 = true → (w.inject v (some i)).2.presser slot = w.touch.owner := by
      have hex : ∃ i' ∈ w.frame (some i), i'.presses ∧ i'.slot = slot := ⟨i, frame_some w i, rfl, rfl⟩
      simp only [World.inject, if_neg (frame_ne_nil w i)]
      intro ht
      rw [if_pos ⟨ht, hex⟩]
    generalize hout : w.inject v (some i) = out at *
    obtain ⟨taken, w'⟩ := out
    have hslots : w'.slots = w.slots := by
      rw [World.slots, World.slots]
      exact congrArg _ hc
    cases taken with
    | false =>
      refine ⟨?_, ho⟩
      constructor
      · exact hc ▸ h.ids
      · exact hslots ▸ h.slots
      · exact hslots ▸ h.lt
      · rw [hc, hr']
        exact h.ready
      · rw [hslots, ho]
        exact fun s hs => hmine s (h.mine s hs)
      · rw [hslots]
        exact hjudged
    | true =>
      simp only at hc hr' ho hmine hpressed hjudged ⊢
      have hperm := insert_perm ⟨slot, pos⟩ hid
      rw [← hc] at hperm
      have hperm' : (w'.setContacts (insert w'.touch.contacts id ⟨slot, pos⟩)).slots.Perm
          (slot :: w.slots) := by
        rw [← hslots]
        exact hperm.map fun e : UInt8 × Contact => e.2.slot
      refine ⟨?_, ho⟩
      constructor
      · refine (hperm.map Prod.fst).nodup_iff.mpr (List.nodup_cons.mpr ⟨?_, ?_⟩)
        · exact hc ▸ hid
        · exact hc ▸ h.ids
      · exact hperm'.nodup_iff.mpr (List.nodup_cons.mpr ⟨hfree, h.slots⟩)
      · intro s hs
        rcases List.mem_cons.mp (hperm'.mem_iff.mp hs) with rfl | hs
        · exact hlt
        · exact h.lt s hs
      · exact fun hf => absurd ((hr'.trans hr).symm.trans hf) (by decide)
      · intro s hs
        show w'.presser s = w'.touch.owner
        rw [ho]
        rcases List.mem_cons.mp (hperm'.mem_iff.mp hs) with rfl | hs
        · exact hpressed trivial
        · exact hmine s (h.mine s hs)
      · rw [if_pos trivial, ← List.toFinset_cons, ← List.toFinset_eq_of_perm _ _ hperm'] at hjudged
        exact hjudged

/-! ### The calls -/

theorem Kept.readied {w : World} (h : Kept w) : Kept (w.ready v).2 ∧ (w.ready v).2.touch.owner = w.touch.owner ∧
      (w.ready v).2.touch.contacts = w.touch.contacts ∧
      ((w.ready v).1 = true → (w.ready v).2.touch.ready = true) ∧
      ((w.ready v).1 = false → w.touch.contacts = []) := by
  rw [World.ready]
  split
  · next hr => exact ⟨h, rfl, rfl, fun _ => hr, fun hf => (nomatch hf)⟩
  · next hr =>
    have hnone := h.ready (Bool.eq_false_iff.mpr hr)
    have hkept (touch : Touch) (calls : ℕ) (hc : touch.contacts = w.touch.contacts)
        (ho : touch.owner = w.touch.owner) : Kept { w with touch, calls } :=
      have hs : World.slots { w with touch, calls } = w.slots := by rw [World.slots, World.slots, hc]
      ⟨hc ▸ h.ids, hs ▸ h.slots, hs ▸ h.lt, fun _ => hc.trans hnone,
        fun s hm => (h.mine s (hs ▸ hm)).trans ho.symm, hs ▸ h.judged⟩
    simp only
    split
    · exact ⟨hkept _ _ rfl rfl, rfl, rfl, fun hf => (nomatch hf), fun _ => hnone⟩
    · split
      · exact ⟨hkept _ _ rfl rfl, rfl, rfl, fun _ => rfl, fun hf => (nomatch hf)⟩
      · exact ⟨hkept _ _ rfl rfl, rfl, rfl, fun hf => (nomatch hf), fun _ => hnone⟩

theorem Kept.calls {w : World} (h : Kept w) (calls : ℕ) : Kept { w with calls } :=
  ⟨h.ids, h.slots, h.lt, h.ready, h.mine, h.judged⟩

theorem Kept.cancel {w : World} (h : Kept w) (id : UInt8) (x y : UInt16) :
    Kept (w.cancel v id x y) ∧ (w.cancel v id x y).touch.contacts = remove w.touch.contacts id ∧
      (w.touch.ready = true → (w.cancel v id x y).touch.ready = true) ∧
      (w.cancel v id x y).touch.owner = w.touch.owner := by
  obtain ⟨hk, ho, hc, htrue, hfalse⟩ := h.readied (v := v)
  have hsticky : w.touch.ready = true → (w.ready v).1 = true := fun hr => by rw [World.ready, if_pos hr]
  rw [World.cancel, World.applyWith]
  generalize w.ready v = out at *
  obtain ⟨ready, w'⟩ := out
  cases ready with
  | false =>
    have hnone : w.touch.contacts = [] := hfalse rfl
    refine ⟨hk, ?_, fun hr => (nomatch hsticky hr), ho⟩
    rw [show w'.touch.contacts = w.touch.contacts from hc, hnone]
    rfl
  | true =>
    obtain ⟨hk', hc', hr', ho'⟩ := (hk.calls (w'.calls + 1)).lift (v := v) (htrue rfl) id false
      (to_pixels (v.screen w'.calls) x y)
    exact ⟨hk', hc'.trans (congrArg (remove · id) hc), fun _ => hr', ho'.trans ho⟩

theorem Kept.applyTouch {w : World} (h : Kept w) (id : UInt8) (phase : TouchPhase) (x y : UInt16) :
    Kept (w.applyTouch v id phase x y) ∧ (w.applyTouch v id phase x y).touch.owner = w.touch.owner := by
  obtain ⟨hk, ho, hc, htrue, hfalse⟩ := h.readied (v := v)
  rw [World.applyTouch, World.applyWith]
  generalize w.ready v = out at *
  obtain ⟨ready, w'⟩ := out
  cases ready with
  | false => exact ⟨hk, ho⟩
  | true =>
    have hk' := hk.calls (w'.calls + 1)
    cases phase with
    | down =>
      simp only
      split
      · obtain ⟨hk'', hc'', hr'', ho''⟩ := hk'.cancel (v := v) id x y
        have hid : id ∉ (World.cancel v id x y { w' with calls := w'.calls + 1 }).touch.contacts.map
            Prod.fst := by
          rw [hc'']
          simp [remove]
        obtain ⟨hp, hpo⟩ := hk''.press (v := v) (hr'' (htrue rfl)) hid (to_pixels (v.screen w'.calls) x y)
        exact ⟨hp, hpo.trans (ho''.trans ho)⟩
      · next hnone =>
        have hid : id ∉ w'.touch.contacts.map Prod.fst := by
          simp only [get, Option.isSome_map, List.find?_isSome, decide_eq_true_eq, not_exists, not_and] at hnone
          intro hm
          obtain ⟨e, he, heq⟩ := List.mem_map.mp hm
          exact hnone e he heq
        obtain ⟨hp, hpo⟩ := hk'.press (v := v) (htrue rfl) hid (to_pixels (v.screen w'.calls) x y)
        exact ⟨hp, hpo.trans ho⟩
    | move =>
      obtain ⟨hd, hdo⟩ := hk'.drag (v := v) id (to_pixels (v.screen w'.calls) x y)
      exact ⟨hd, hdo.trans ho⟩
    | up =>
      obtain ⟨hl, -, -, hlo⟩ := hk'.lift (v := v) (htrue rfl) id true (to_pixels (v.screen w'.calls) x y)
      exact ⟨hl, hlo.trans ho⟩
    | cancel =>
      obtain ⟨hl, -, -, hlo⟩ := hk'.lift (v := v) (htrue rfl) id false (to_pixels (v.screen w'.calls) x y)
      exact ⟨hl, hlo.trans ho⟩

theorem Kept.cancel_ids (ids : List UInt8) {w : World} (h : Kept w) :
    Kept (ids.foldl (fun w id => w.applyTouch v id .cancel 0 0) w) ∧
      (ids.foldl (fun w id => w.applyTouch v id .cancel 0 0) w).touch.contacts =
        w.touch.contacts.filter (fun e => e.1 ∉ ids) ∧
      (ids.foldl (fun w id => w.applyTouch v id .cancel 0 0) w).touch.owner = w.touch.owner := by
  induction ids generalizing w with
  | nil => simpa using h
  | cons id ids ih =>
    obtain ⟨hk, hc, -, ho⟩ := h.cancel (v := v) id 0 0
    obtain ⟨hk', hc', ho'⟩ := ih hk
    refine ⟨hk', hc'.trans ?_, ho'.trans ho⟩
    rw [hc, remove, List.filter_filter]
    refine List.filter_congr fun e _ => ?_
    by_cases he : e.1 = id <;> simp [he]

theorem Kept.cancel_all {w : World} (h : Kept w) : Kept (w.cancel_all v) ∧ (w.cancel_all v).touch.contacts = [] ∧
      (w.cancel_all v).touch.owner = w.touch.owner := by
  obtain ⟨hk, hc, ho⟩ := h.cancel_ids (v := v) (w.touch.contacts.map Prod.fst)
  refine ⟨hk, hc.trans (List.filter_eq_nil_iff.mpr fun e he => ?_), ho⟩
  simpa using ⟨e.2, he⟩

theorem Kept.new : Kept World.new where
  ids := List.nodup_nil
  slots := List.nodup_nil
  lt := fun _ hs => nomatch hs
  ready := fun _ => rfl
  mine := fun _ hs => nomatch hs
  judged := .inl ⟨fun _ hf => (nomatch hf), rfl, fun _ hf => (nomatch hf)⟩

theorem Kept.setOwner {w : World} (h : Kept w) (hnone : w.touch.contacts = []) (owner : UInt64) :
    Kept (w.setOwner owner) where
  ids := h.ids
  slots := h.slots
  lt := h.lt
  ready := h.ready
  mine := fun s hs => by
    have hs' : s ∈ w.slots := hs
    rw [World.slots, hnone] at hs'
    cases hs'
  judged := h.judged

theorem Kept.call {w : World} (h : Kept w) (c : Call) : Kept (w.call v c) ∧ match c with
      | .apply owner _ _ _ _ => (w.call v c).touch.owner = owner
      | .keep_alive => True
      | .release_all owner => (w.call v c).touch.owner = owner → (w.call v c).touch.contacts = [] := by
  cases c with
  | apply owner id phase x y =>
    rw [World.call]
    split
    · obtain ⟨hk, hnone, -⟩ := h.cancel_all (v := v)
      exact (hk.setOwner hnone owner).applyTouch id phase x y
    · next ho =>
      obtain ⟨hk, ho'⟩ := h.applyTouch (v := v) id phase x y
      exact ⟨hk, ho'.trans (not_not.mp ho)⟩
  | keep_alive =>
    refine ⟨?_, trivial⟩
    rw [World.call]
    split
    · next hdue =>
      refine (h.calls (w.calls + 1)).rest ?_ fun _ hi => nomatch hi
      intro hframe
      have hlen := congrArg List.length hframe
      exact hdue.1 (by simpa [World.frame] using hlen)
    · exact h.calls _
  | release_all owner =>
    rw [World.call]
    split
    · obtain ⟨hk, hnone, -⟩ := h.cancel_all (v := v)
      exact ⟨hk, fun _ => hnone⟩
    · next ho => exact ⟨h, fun ho' => absurd ho' ho⟩

theorem Kept.run (calls : List Call) : Kept (run v calls) := by
  induction calls using List.reverseRecOn with
  | nil => exact .new
  | append_singleton calls c ih =>
    rw [HyperTouch.run, List.foldl_concat]
    exact (ih.call c).1

/-- What is kept is what is down, and every frame that Windows took was fair. -/
structure World.Follows (w : World) : Prop where
  distinct : w.slots.Nodup
  bounded : ∀ s ∈ w.slots, s < MAX_CONTACTS
  kept_down : w.slots.toFinset = w.down
  fair : ∀ f ∈ w.sent, f.taken → Fair f.down f.frame

/-- A stream's finger is kept or down. -/
def World.Holds (w : World) (owner : UInt64) : Prop := ∃ s, (s ∈ w.slots ∨ s ∈ w.down) ∧ w.presser s = owner

def Call.Leaves (w : World) : Call → Prop
  | .apply owner _ _ _ _ => ∀ old, old ≠ owner → ¬ w.Holds old
  | .keep_alive => True
  | .release_all owner => ¬ w.Holds owner

/-- Injected touch follows Windows' rules after every run of calls exactly as long as Windows refuses no frame
that lifts a finger. -/
theorem touch_follows (v : Env) (calls : List Call) :
    ((run v calls).Follows ∧ ∀ c ∈ calls.getLast?, c.Leaves (run v calls)) ↔
      ∀ f ∈ (run v calls).sent, f.Lifts → f.taken := by
  have hkept := Kept.run (v := v) calls
  rw [← hkept.judged.iff]
  constructor
  · exact fun h => ⟨h.1.kept_down, h.1.fair⟩
  · rintro ⟨hdown, hfair⟩
    refine ⟨⟨hkept.slots, hkept.lt, hdown, hfair⟩, fun c hc => ?_⟩
    -- Every finger that is kept or down is the present owner's.
    have hmine {owner : UInt64} (h : (run v calls).Holds owner) :
        owner = (run v calls).touch.owner ∧ (run v calls).touch.contacts ≠ [] := by
      obtain ⟨s, hs, rfl⟩ := h
      have hs' : s ∈ (run v calls).slots := by
        rwa [← hdown, List.mem_toFinset, or_self] at hs
      refine ⟨hkept.mine s hs', fun hnil => ?_⟩
      rw [World.slots, hnil] at hs'
      cases hs'
    obtain ⟨before, rfl⟩ := List.getLast?_eq_some_iff.mp hc
    have hrun : run v (before ++ [c]) = (run v before).call v c := by
      rw [run, List.foldl_concat]
      rfl
    have hcall := ((Kept.run (v := v) before).call (v := v) c).2
    rw [← hrun] at hcall
    cases c with
    | apply owner id phase x y => exact fun old hne hold => hne ((hmine hold).1.trans hcall)
    | keep_alive => trivial
    | release_all owner => exact fun hold => (hmine hold).2 (hcall (hmine hold).1.symm)

/-- A tap whose lift Windows refuses: the finger is forgotten and stays down. -/
theorem lift_refused : ¬ ∀ (v : Env) (calls : List Call), (run v calls).Follows := by
  intro h
  have hdown := (h ⟨fun n => n < 4, fun _ => true, fun _ => 0, fun _ => (1920, 1080)⟩
    [.apply 1 0 .down 0 0, .apply 1 0 .up 0 0]).kept_down
  revert hdown
  decide

end Rdpio.Client.HyperTouch
