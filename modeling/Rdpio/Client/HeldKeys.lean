import Mathlib.Data.List.Sort
import Rdpio.Hyper.Input
import Rdpio.Lib.Run

/-!
# Held keys

The input part of the client's loop in `crates/rdp-client/src/hyper_client.rs`: raw input of the window
becomes events for the host, `Held` keeps what is down of them, and Ctrl+Alt+End becomes the secure attention
sequence.
-/

namespace Rdpio.Client.HeldKeys

open Hyper.Input (InputEvent)
open Lib (run run_cons invariant_run)

abbrev Key := UInt16 × Bool

instance lawfulKey : LawfulBEq Key := inferInstance

def insertKey (k : Key) (keys : List Key) : List Key :=
  if k ∈ keys then keys else keys.orderedInsert (fun a b => a.1 < b.1 ∨ a.1 = b.1 ∧ (a.2 = true → b.2 = true)) k

def insertButton (b : UInt8) (buttons : List UInt8) : List UInt8 :=
  if b ∈ buttons then buttons else buttons.orderedInsert (· ≤ ·) b

structure Held where
  keys : List Key := []
  buttons : List UInt8 := []
deriving DecidableEq

namespace Held

def note (h : Held) : InputEvent → Held
  | .key scancode extended true => { h with keys := insertKey (scancode, extended) h.keys }
  | .key scancode extended false => { h with keys := h.keys.filter (· ≠ (scancode, extended)) }
  | .button button true => { h with buttons := insertButton button h.buttons }
  | .button button false => { h with buttons := h.buttons.filter (· ≠ button) }
  | _ => h

def isDown (h : Held) (scancode : UInt16) (extended : Bool) : Bool := (scancode, extended) ∈ h.keys

def ctrlAlt (h : Held) : Bool := (h.keys.any fun k => k.1 == 0x1D) && h.keys.any fun k => k.1 == 0x38

def releaseAll (h : Held) : List InputEvent :=
  h.keys.map (fun k => .key k.1 k.2 false) ++ h.buttons.map fun b => .button b false

end Held

/-! ## What events leave down -/

def keyAfter (k : Key) (down : Bool) : InputEvent → Bool
  | .key scancode extended d => if (scancode, extended) = k then d else down
  | _ => down

def buttonAfter (b : UInt8) (down : Bool) : InputEvent → Bool
  | .button button d => if button = b then d else down
  | _ => down

def keyDown (evs : List InputEvent) (k : Key) : Bool := evs.foldl (keyAfter k) false

def buttonDown (evs : List InputEvent) (b : UInt8) : Bool := evs.foldl (buttonAfter b) false

def AllUp (evs : List InputEvent) : Prop := (∀ k, keyDown evs k = false) ∧ ∀ b, buttonDown evs b = false

structure Held.Tracks (h : Held) (evs : List InputEvent) : Prop where
  keys : ∀ k, k ∈ h.keys ↔ keyDown evs k = true
  buttons : ∀ b, b ∈ h.buttons ↔ buttonDown evs b = true

theorem Held.tracks_nil : ({} : Held).Tracks [] := ⟨fun k => by simp [keyDown], fun b => by simp [buttonDown]⟩

theorem mem_insertKey {k k' : Key} {keys : List Key} : k' ∈ insertKey k keys ↔ k' = k ∨ k' ∈ keys := by
  unfold insertKey
  split_ifs with h
  · exact ⟨.inr, fun h' => h'.elim (fun h' => h' ▸ h) id⟩
  · exact List.mem_orderedInsert _

theorem mem_insertButton {b b' : UInt8} {buttons : List UInt8} :
    b' ∈ insertButton b buttons ↔ b' = b ∨ b' ∈ buttons := by
  unfold insertButton
  split_ifs with h
  · exact ⟨.inr, fun h' => h'.elim (fun h' => h' ▸ h) id⟩
  · exact List.mem_orderedInsert _

theorem keyDown_concat (evs : List InputEvent) (ev : InputEvent) (k : Key) :
    keyDown (evs ++ [ev]) k = keyAfter k (keyDown evs k) ev := by
  rw [keyDown, List.foldl_append]
  rfl

theorem buttonDown_concat (evs : List InputEvent) (ev : InputEvent) (b : UInt8) :
    buttonDown (evs ++ [ev]) b = buttonAfter b (buttonDown evs b) ev := by
  rw [buttonDown, List.foldl_append]
  rfl

theorem Held.Tracks.note {h : Held} {evs : List InputEvent} (ht : h.Tracks evs) (ev : InputEvent) :
    (h.note ev).Tracks (evs ++ [ev]) := by
  constructor
  · intro k
    rw [keyDown_concat]
    have hk := ht.keys k
    cases ev with
    | key scancode extended down =>
      cases down with
      | true =>
        rw [Held.note, keyAfter, mem_insertKey, hk]
        by_cases heq : (scancode, extended) = k
        · simp [heq]
        · simp [heq, Ne.symm heq]
      | false =>
        rw [Held.note, keyAfter, List.mem_filter, hk]
        by_cases heq : (scancode, extended) = k
        · simp [heq]
        · simp [heq, Ne.symm heq]
    | button button down => cases down <;> exact hk
    | _ => exact hk
  · intro b
    rw [buttonDown_concat]
    have hb := ht.buttons b
    cases ev with
    | button button down =>
      cases down with
      | true =>
        rw [Held.note, buttonAfter, mem_insertButton, hb]
        by_cases heq : button = b
        · simp [heq]
        · simp [heq, Ne.symm heq]
      | false =>
        rw [Held.note, buttonAfter, List.mem_filter, hb]
        by_cases heq : button = b
        · simp [heq]
        · simp [heq, Ne.symm heq]
    | key scancode extended down => cases down <;> exact hb
    | _ => exact hb

theorem Held.Tracks.noteAll {h : Held} {evs : List InputEvent} (ht : h.Tracks evs) (more : List InputEvent) :
    (more.foldl Held.note h).Tracks (evs ++ more) := by
  induction more generalizing h evs with
  | nil => rwa [List.append_nil]
  | cons ev more ih =>
    rw [List.foldl_cons, ← List.singleton_append, ← List.append_assoc]
    exact ih (ht.note ev)

theorem keyDown_ups (keys : List Key) (evs : List InputEvent) (k : Key) :
    keyDown (evs ++ keys.map fun k => .key k.1 k.2 false) k = (keyDown evs k && decide (k ∉ keys)) := by
  induction keys generalizing evs with
  | nil => simp
  | cons k' keys ih =>
    rw [List.map_cons, ← List.singleton_append, ← List.append_assoc, ih, keyDown_concat, keyAfter]
    by_cases heq : k' = k
    · simp [heq]
    · simp [heq, Ne.symm heq]

theorem keyDown_buttons (buttons : List UInt8) (evs : List InputEvent) (k : Key) :
    keyDown (evs ++ buttons.map fun b => .button b false) k = keyDown evs k := by
  rw [keyDown, List.foldl_append]
  change (buttons.map _).foldl (keyAfter k) (keyDown evs k) = keyDown evs k
  generalize keyDown evs k = down
  induction buttons with
  | nil => rfl
  | cons b buttons ih => exact ih

theorem buttonDown_keys (keys : List Key) (evs : List InputEvent) (b : UInt8) :
    buttonDown (evs ++ keys.map fun k => .key k.1 k.2 false) b = buttonDown evs b := by
  rw [buttonDown, List.foldl_append]
  change (keys.map _).foldl (buttonAfter b) (buttonDown evs b) = buttonDown evs b
  generalize buttonDown evs b = down
  induction keys with
  | nil => rfl
  | cons k keys ih => exact ih

theorem buttonDown_ups (buttons : List UInt8) (evs : List InputEvent) (b : UInt8) :
    buttonDown (evs ++ buttons.map fun b => .button b false) b = (buttonDown evs b && decide (b ∉ buttons)) := by
  induction buttons generalizing evs with
  | nil => simp
  | cons b' buttons ih =>
    rw [List.map_cons, ← List.singleton_append, ← List.append_assoc, ih, buttonDown_concat, buttonAfter]
    by_cases heq : b' = b
    · simp [heq]
    · simp [heq, Ne.symm heq]

theorem Held.Tracks.releaseAll {h : Held} {evs : List InputEvent} (ht : h.Tracks evs) :
    AllUp (evs ++ h.releaseAll) := by
  constructor
  · intro k
    rw [Held.releaseAll, ← List.append_assoc, keyDown_buttons, keyDown_ups]
    have hk := ht.keys k
    by_cases hmem : k ∈ h.keys <;> simp_all
  · intro b
    rw [Held.releaseAll, ← List.append_assoc, buttonDown_ups, buttonDown_keys]
    have hb := ht.buttons b
    by_cases hmem : b ∈ h.buttons <;> simp_all

theorem AllUp.tracks {evs : List InputEvent} (h : AllUp evs) : ({} : Held).Tracks evs :=
  ⟨fun k => by simp [h.1 k], fun b => by simp [h.2 b]⟩

inductive RawInput where
  | key (scancode : UInt16) (extended down : Bool)
  | mouseMove (x y : Int32)
  | mouseRel (dx dy : Int32)
  /-- 0 is the left one, 1 the right one, 2 the middle one. -/
  | mouseButton (button : UInt8) (x y : Int32) (down : Bool)
  /-- 0 is back, 1 is forward. -/
  | xButton (button : UInt8) (x y : Int32) (down : Bool)
  | mouseWheel (delta : Int16)
  | mouseHWheel (delta : Int16)
  | char (code : UInt16) (down : Bool)
  | syncLockKeys (toggle_flags : UInt32)
  | focusLost
  | touch (id : UInt32) (x y : Int32) (phase : UInt8)
deriving DecidableEq

/-- The part of the window that shows the stream. -/
structure View where
  x : UInt32
  y : UInt32
  w : UInt32
  h : UInt32

def normalise (at_ : Int32) (start len : UInt32) : UInt16 :=
  let len := max len 1
  let clamped := max 0 (min (at_ - start.toInt32).toInt (len.toInt32.toInt - 1))
  UInt16.ofNat (clamped.toNat * 65535 / ((max len 2).toNat - 1))

def View.abs (v : View) (x y : Int32) : InputEvent := .mouseAbs (normalise x v.x v.w) (normalise y v.y v.h)

def clampI16 (d : Int32) : Int16 := Int16.ofInt (max (-2^15) (min d.toInt (2^15 - 1)))

def mapInput (raw : RawInput) (view : View) (capture : Bool) : List InputEvent :=
  match raw with
  | .key scancode extended down => [.key scancode extended down]
  | .char code down => [.char code down]
  | .mouseMove x y => [view.abs x y]
  | .mouseRel dx dy => [.mouseRel (clampI16 dx) (clampI16 dy)]
  | .mouseButton button x y down =>
    if capture then [.button button down] else [view.abs x y, .button button down]
  | .xButton button x y down =>
    if capture then [.button (3 + button) down] else [view.abs x y, .button (3 + button) down]
  | .mouseWheel delta => [.wheel delta false]
  | .mouseHWheel delta => [.wheel delta true]
  | .syncLockKeys _ | .touch .. | .focusLost => []

def endKey : Key := (0x4F, true)

/-- The loop's input state, and what it has pushed. -/
structure Loop where
  held : Held := {}
  sas_end : Bool := false
  pushed : List InputEvent := []

def Loop.push (l : Loop) (ev : InputEvent) : Loop := { l with held := l.held.note ev, pushed := l.pushed ++ [ev] }

/-- The loop's body for an event of `map_input`. -/
def Loop.take (l : Loop) (ev : InputEvent) : Loop :=
  if ev = .key 0x4F true true ∧ l.sas_end then l
  -- A fresh End press only: an End held already, and passed through, keeps its own key-up.
  else if ev = .key 0x4F true true ∧ l.held.ctrlAlt ∧ !l.held.isDown 0x4F true then
    { l with sas_end := true }.push .secureAttention
  else if ev = .key 0x4F true false ∧ l.sas_end then { l with sas_end := false }
  else l.push ev

structure Taken where
  raw : RawInput
  view : View
  capture : Bool

/-- The loop's body for a raw input. -/
def Loop.step (l : Loop) (t : Taken) : Loop :=
  if t.raw = .focusLost then
    { held := {}, sas_end := false, pushed := l.pushed ++ l.held.releaseAll }
  else (mapInput t.raw t.view t.capture).foldl Loop.take l

/-- A secure attention sequence comes only while Ctrl and Alt are both down. -/
def Guarded (evs : List InputEvent) : Prop :=
  ∀ pre post, evs = pre ++ .secureAttention :: post →
    (∃ e, keyDown pre (0x1D, e) = true) ∧ ∃ e, keyDown pre (0x38, e) = true

theorem guarded_nil : Guarded [] := fun pre post h => by simp at h

theorem Guarded.concat {evs : List InputEvent} (h : Guarded evs) {ev : InputEvent}
    (hev : ev = .secureAttention → (∃ e, keyDown evs (0x1D, e) = true) ∧ ∃ e, keyDown evs (0x38, e) = true) :
    Guarded (evs ++ [ev]) := by
  intro pre post hsplit
  rcases List.eq_nil_or_concat post with rfl | ⟨post, last, rfl⟩
  · obtain ⟨rfl, hlast⟩ := List.append_inj' hsplit rfl
    exact hev (List.singleton_inj.mp hlast)
  · rw [List.concat_eq_append, ← List.cons_append, ← List.append_assoc] at hsplit
    exact h pre post (List.append_inj' hsplit rfl).1

theorem Guarded.append {evs more : List InputEvent} (h : Guarded evs) (hmore : .secureAttention ∉ more) :
    Guarded (evs ++ more) := by
  induction more generalizing evs with
  | nil => rwa [List.append_nil]
  | cons ev more ih =>
    rw [List.mem_cons, not_or] at hmore
    rw [← List.singleton_append, ← List.append_assoc]
    exact ih (h.concat fun heq => absurd heq.symm hmore.1) hmore.2

theorem not_mem_releaseAll (h : Held) : .secureAttention ∉ h.releaseAll := by simp [Held.releaseAll]

theorem not_mem_mapInput (raw : RawInput) (view : View) (capture : Bool) :
    .secureAttention ∉ mapInput raw view capture := by
  cases raw <;> cases capture <;> simp [mapInput, View.abs]

theorem Held.Tracks.ctrlAlt {h : Held} {evs : List InputEvent} (ht : h.Tracks evs) (hdown : h.ctrlAlt = true) :
    (∃ e, keyDown evs (0x1D, e) = true) ∧ ∃ e, keyDown evs (0x38, e) = true := by
  rw [Held.ctrlAlt, Bool.and_eq_true, List.any_eq_true, List.any_eq_true] at hdown
  obtain ⟨⟨⟨s, e⟩, hk, hs⟩, ⟨s', e'⟩, hk', hs'⟩ := hdown
  obtain rfl : s = 0x1D := by simpa using hs
  obtain rfl : s' = 0x38 := by simpa using hs'
  exact ⟨⟨e, (ht.keys _).mp hk⟩, e', (ht.keys _).mp hk'⟩

/-- What is held is what is down in the events pushed, and their secure attention sequences are in order. -/
structure Loop.Inv (l : Loop) : Prop where
  tracks : l.held.Tracks l.pushed
  guarded : Guarded l.pushed

theorem Loop.inv_start : ({} : Loop).Inv := ⟨Held.tracks_nil, guarded_nil⟩

theorem Loop.Inv.push {l : Loop} (h : l.Inv) {ev : InputEvent}
    (hev : ev = .secureAttention → l.held.ctrlAlt = true) : (l.push ev).Inv :=
  ⟨h.tracks.note ev, h.guarded.concat fun heq => h.tracks.ctrlAlt (hev heq)⟩

theorem Loop.Inv.take {l : Loop} (h : l.Inv) {ev : InputEvent} (hev : ev ≠ .secureAttention) : (l.take ev).Inv := by
  unfold Loop.take
  split_ifs with _ hfresh
  · exact h
  · exact Loop.Inv.push (l := { l with sas_end := true }) ⟨h.tracks, h.guarded⟩ fun _ => hfresh.2.1
  · exact ⟨h.tracks, h.guarded⟩
  · exact h.push fun heq => absurd heq hev

theorem Loop.Inv.takeAll {l : Loop} (h : l.Inv) {evs : List InputEvent} (hevs : .secureAttention ∉ evs) :
    (evs.foldl Loop.take l).Inv := by
  induction evs generalizing l with
  | nil => exact h
  | cons ev evs ih =>
    rw [List.mem_cons, not_or] at hevs
    exact ih (h.take (Ne.symm hevs.1)) hevs.2

theorem Loop.Inv.step {l : Loop} (h : l.Inv) (t : Taken) : (l.step t).Inv := by
  unfold Loop.step
  split_ifs
  · exact ⟨h.tracks.releaseAll.tracks, h.guarded.append (not_mem_releaseAll _)⟩
  · exact h.takeAll (not_mem_mapInput _ _ _)

theorem Loop.inv_run (ts : List Taken) : (run Loop.step {} ts).Inv :=
  invariant_run Loop.Inv Loop.inv_start (fun _ t h => h.step t) ts

def ofEnd : InputEvent → Bool
  | .key scancode extended _ => (scancode, extended) == endKey
  | _ => false

/-- An End press is being kept from the host: the End key is not down there. -/
def Loop.Swallows (l : Loop) : Prop := l.sas_end = true ∧ endKey ∉ l.held.keys

theorem mem_keys_note {h : Held} {ev : InputEvent} (hev : ofEnd ev = false) :
    endKey ∈ (h.note ev).keys ↔ endKey ∈ h.keys := by
  cases ev with
  | key scancode extended down =>
    have hne : endKey ≠ (scancode, extended) := fun heq => by simp [ofEnd, heq] at hev
    cases down with
    | true => simp [Held.note, mem_insertKey, hne]
    | false => simp [Held.note, hne]
  | button button down => cases down <;> rfl
  | _ => rfl

theorem Loop.Swallows.take {l : Loop} (h : l.Swallows) {ev : InputEvent} (hev : ev ≠ .key 0x4F true false) :
    (l.take ev).Swallows ∧ ∃ more, (l.take ev).pushed = l.pushed ++ more ∧ ∀ e ∈ more, ofEnd e = false := by
  have hkeep : l.Swallows ∧ ∃ more, l.pushed = l.pushed ++ more ∧ ∀ e ∈ more, ofEnd e = false :=
    ⟨h, [], (List.append_nil _).symm, by simp⟩
  unfold Loop.take
  split_ifs with hrepeat hfresh hrelease
  · exact hkeep
  · exact absurd ⟨hfresh.1, h.1⟩ hrepeat
  · exact absurd hrelease.1 hev
  · have hend : ofEnd ev = false := by
      cases ev with
      | key scancode extended down =>
        refine beq_eq_false_iff_ne.mpr fun heq => ?_
        obtain ⟨rfl, rfl⟩ := Prod.mk.inj heq
        cases down with
        | true => exact hrepeat ⟨rfl, h.1⟩
        | false => exact hev rfl
      | _ => rfl
    exact ⟨⟨h.1, fun hmem => h.2 ((mem_keys_note hend).mp hmem)⟩, [ev], rfl, by simpa using hend⟩

theorem Loop.Swallows.takeAll {l : Loop} (h : l.Swallows) {evs : List InputEvent}
    (hevs : .key 0x4F true false ∉ evs) :
    (evs.foldl Loop.take l).Swallows ∧
      ∃ more, (evs.foldl Loop.take l).pushed = l.pushed ++ more ∧ ∀ e ∈ more, ofEnd e = false := by
  induction evs generalizing l with
  | nil => exact ⟨h, [], (List.append_nil _).symm, by simp⟩
  | cons ev evs ih =>
    rw [List.mem_cons, not_or] at hevs
    obtain ⟨hnow, more, hpushed, hmore⟩ := h.take (Ne.symm hevs.1)
    obtain ⟨hlater, more', hpushed', hmore'⟩ := ih hnow hevs.2
    refine ⟨hlater, more ++ more', ?_, fun e he => ?_⟩
    · rw [List.foldl_cons, hpushed', hpushed, List.append_assoc]
    · exact (List.mem_append.mp he).elim (hmore e) (hmore' e)

theorem end_of_mem_mapInput {raw : RawInput} {view : View} {capture : Bool}
    (h : .key 0x4F true false ∈ mapInput raw view capture) : raw = .key 0x4F true false := by
  cases raw <;> cases capture <;> simp_all [mapInput, View.abs]

/-- An input that is neither the End key's release nor a loss of the focus. -/
def Between (t : Taken) : Prop := t.raw ≠ .key 0x4F true false ∧ t.raw ≠ .focusLost

theorem Loop.Swallows.run {l : Loop} (h : l.Swallows) {ts : List Taken} (hts : ∀ t ∈ ts, Between t) :
    (Lib.run Loop.step l ts).Swallows ∧
      ∃ more, (Lib.run Loop.step l ts).pushed = l.pushed ++ more ∧ ∀ e ∈ more, ofEnd e = false := by
  induction ts generalizing l with
  | nil => exact ⟨h, [], (List.append_nil _).symm, by simp⟩
  | cons t ts ih =>
    obtain ⟨hrelease, hfocus⟩ := hts t List.mem_cons_self
    obtain ⟨hnow, more, hpushed, hmore⟩ : (l.step t).Swallows ∧
        ∃ more, (l.step t).pushed = l.pushed ++ more ∧ ∀ e ∈ more, ofEnd e = false := by
      rw [Loop.step, if_neg hfocus]
      exact h.takeAll fun hmem => hrelease (end_of_mem_mapInput hmem)
    obtain ⟨hlater, more', hpushed', hmore'⟩ := ih hnow fun t' ht' => hts t' (List.mem_cons_of_mem _ ht')
    refine ⟨hlater, more ++ more', ?_, fun e he => ?_⟩
    · rw [run_cons, hpushed', hpushed, List.append_assoc]
    · exact (List.mem_append.mp he).elim (hmore e) (hmore' e)

theorem Loop.Swallows.last {l : Loop} (h : l.Swallows) {t : Taken} (ht : ¬ Between t) :
    ∃ more, (l.step t).pushed = l.pushed ++ more ∧ ∀ e ∈ more, ofEnd e = false := by
  unfold Loop.step
  split_ifs with hfocus
  · refine ⟨l.held.releaseAll, rfl, fun e he => ?_⟩
    rw [Held.releaseAll, List.mem_append, List.mem_map, List.mem_map] at he
    obtain ⟨k, hk, rfl⟩ | ⟨b, -, rfl⟩ := he
    · exact beq_eq_false_iff_ne.mpr fun heq => h.2 (heq ▸ hk)
    · rfl
  · have hrelease : t.raw = .key 0x4F true false := by
      by_contra hne
      exact ht ⟨hne, hfocus⟩
    refine ⟨[], ?_, by simp⟩
    rw [hrelease, List.append_nil]
    simp [mapInput, Loop.take, h.1]

theorem Loop.swallows_of_attention {l : Loop} {t : Taken} (hpress : t.raw = .key 0x4F true true)
    (hsas : (l.step t).pushed = l.pushed ++ [.secureAttention]) : (l.step t).Swallows := by
  rw [Loop.step, if_neg (by simp [hpress]), hpress] at hsas ⊢
  simp only [mapInput, List.foldl_cons, List.foldl_nil, Loop.take] at hsas ⊢
  split_ifs at hsas ⊢ with hrepeat hfresh hrelease
  · simp at hsas
  · refine ⟨rfl, fun hmem => ?_⟩
    simp_all [Loop.push, Held.note, Held.isDown, endKey]
  · simp at hrelease
  · simp [Loop.push] at hsas

end Rdpio.Client.HeldKeys
