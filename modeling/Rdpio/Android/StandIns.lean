import Rdpio.Client.HeldKeys

/-!
# Keys held on Android

`Held` of `android/rust/src/held.rs`: what the app holds down, and the stand-ins for the keys that Android
keeps for itself.
-/

namespace Rdpio.Android.StandIns

open Client.HeldKeys (Key insertKey insertButton keyDown keyAfter buttonDown buttonAfter AllUp)
open Hyper.Input (InputEvent TouchPhase)
open Lib (run Along)

structure Held where
  keys : List Key := []
  buttons : List UInt8 := []
  fingers : List UInt8 := []
  /-- Keys pressed as something else: what a repeat of the key sends, and what its release sends. -/
  remapped : Key → Option (List InputEvent × List InputEvent) := fun _ => none
  /-- Releases not passed on (an Alt already lifted for Alt+Home). -/
  swallow : List Key := []

def key (k : Key) (down : Bool) : InputEvent := .key k.1 k.2 down

def tab : Key := (0x0F, false)
def lshift : Key := (0x2A, false)
def lctrl : Key := (0x1D, false)
def start : Key := (0x5B, true)
def home : Key := (0x47, true)

def noteFinger (fingers : List UInt8) : InputEvent → List UInt8
  | .touch id .down _ _ => insertButton id fingers
  | .touch id .up _ _ => fingers.filter (· ≠ id)
  | .touch id .cancel _ _ => fingers.filter (· ≠ id)
  | _ => fingers

namespace Held

variable (h : Held)

def pressed : Client.HeldKeys.Held := ⟨h.keys, h.buttons⟩

/-- What an event that is sent holds or lets go. -/
def note (ev : InputEvent) : Held :=
  { h with
    keys := (h.pressed.note ev).keys
    buttons := (h.pressed.note ev).buttons
    fingers := noteFinger h.fingers ev }

def isHeld (scancode : UInt16) : Bool := h.keys.any (·.1 = scancode)

def alts : List Key := h.keys.filter (·.1 = 0x38)

def standIn (k : Key) : Option (List InputEvent × List InputEvent × List InputEvent) :=
  let ctrl := h.isHeld 0x1D
  let alt := h.isHeld 0x38
  let shift := h.isHeld 0x2A || h.isHeld 0x36
  -- End or Delete (or the keypad's) with Ctrl+Alt.
  if (k.1 = 0x4F ∨ k.1 = 0x53) ∧ ctrl ∧ alt then some ([.secureAttention], [], [])
  else if k = (0x49, true) ∧ alt ∧ !ctrl then some ([key tab true], [key tab true], [key tab false])
  else if k = (0x51, true) ∧ alt ∧ !ctrl then
    if shift then some ([key tab true], [key tab true], [key tab false])
    else some ([key lshift true, key tab true], [key tab true], [key tab false, key lshift false])
  else if k = home ∧ alt ∧ !ctrl then
    -- Alt is lifted first (Alt+Win isn't Start), with a Ctrl tap so that the lone Alt doesn't open the menu bar.
    some ([key lctrl true, key lctrl false] ++ h.alts.map (key · false) ++ [key start true, key start false], [], [])
  else none

/-- A key as the PC gets it. -/
def remap : InputEvent → Held × List InputEvent
  | .key scancode extended false =>
    match h.remapped (scancode, extended) with
    | some (_, up) => ({ h with remapped := Function.update h.remapped (scancode, extended) none }, up)
    | none =>
      if (scancode, extended) ∈ h.swallow then ({ h with swallow := h.swallow.filter (· ≠ (scancode, extended)) }, [])
      else (h, [.key scancode extended false])
  | .key scancode extended true =>
    match h.remapped (scancode, extended) with
    | some (again, _) => (h, again)
    | none =>
      match h.standIn (scancode, extended) with
      | some (now, again, up) =>
        ({ h with
            remapped := Function.update h.remapped (scancode, extended) (some (again, up))
            swallow := if (scancode, extended) = home then h.alts ++ h.swallow else h.swallow }, now)
      | none => (h, [.key scancode extended true])
  | ev => (h, [ev])

def apply (ev : InputEvent) : Held × List InputEvent :=
  let r := h.remap ev
  (r.2.foldl note r.1, r.2)

def releaseAll : Held × List InputEvent :=
  ({}, h.keys.map (key · false) ++ h.buttons.map (.button · false) ++ h.fingers.map (.touch · .cancel 0 0))

end Held

inductive Action where
  | event (ev : InputEvent)
  | releaseAll

structure World where
  held : Held := {}
  phys : List Key := []
  sent : List InputEvent := []

def physAfter (phys : List Key) : InputEvent → List Key
  | .key scancode extended true => insertKey (scancode, extended) phys
  | .key scancode extended false => phys.filter (· ≠ (scancode, extended))
  | _ => phys

def World.step (w : World) : Action → World
  | .event ev => ⟨(w.held.apply ev).1, physAfter w.phys ev, w.sent ++ (w.held.apply ev).2⟩
  | .releaseAll => ⟨w.held.releaseAll.1, w.phys, w.sent ++ w.held.releaseAll.2⟩

def World.Clean (w : World) : Action → Prop
  | .event (.key scancode extended true) =>
    (scancode, extended) ∉ w.held.swallow ∧
      ((scancode, extended) ∈ w.held.keys → w.held.standIn (scancode, extended) = none)
  | _ => True

instance (w : World) : (a : Action) → Decidable (w.Clean a)
  | .event (.key _ _ true) => inferInstanceAs (Decidable (_ ∧ _))
  | .event (.key _ _ false) => inferInstanceAs (Decidable True)
  | .event (.mouseAbs _ _) => inferInstanceAs (Decidable True)
  | .event (.mouseRel _ _) => inferInstanceAs (Decidable True)
  | .event (.button _ _) => inferInstanceAs (Decidable True)
  | .event (.wheel _ _) => inferInstanceAs (Decidable True)
  | .event (.char _ _) => inferInstanceAs (Decidable True)
  | .event .secureAttention => inferInstanceAs (Decidable True)
  | .event (.touch _ _ _ _) => inferInstanceAs (Decidable True)
  | .releaseAll => inferInstanceAs (Decidable True)

/-! ## What is held is what is down -/

def fingerAfter (id : UInt8) (down : Bool) : InputEvent → Bool
  | .touch id' .down _ _ => if id' = id then true else down
  | .touch id' .up _ _ => if id' = id then false else down
  | .touch id' .cancel _ _ => if id' = id then false else down
  | _ => down

def fingerDown (evs : List InputEvent) (id : UInt8) : Bool := evs.foldl (fingerAfter id) false

def NoneDown (evs : List InputEvent) : Prop := AllUp evs ∧ ∀ id, fingerDown evs id = false

theorem fingerDown_concat (evs : List InputEvent) (ev : InputEvent) (id : UInt8) :
    fingerDown (evs ++ [ev]) id = fingerAfter id (fingerDown evs id) ev := by
  rw [fingerDown, List.foldl_append]
  rfl

theorem keyDown_append (evs more : List InputEvent) (k : Key) :
    keyDown (evs ++ more) k = more.foldl (keyAfter k) (keyDown evs k) := List.foldl_append

structure Tracks (h : Held) (evs : List InputEvent) : Prop where
  pressed : h.pressed.Tracks evs
  fingers : ∀ id, id ∈ h.fingers ↔ fingerDown evs id = true

theorem Tracks.note {h : Held} {evs : List InputEvent} (ht : Tracks h evs) (ev : InputEvent) :
    Tracks (h.note ev) (evs ++ [ev]) := by
  refine ⟨ht.pressed.note ev, fun id => ?_⟩
  have hid := ht.fingers id
  rw [fingerDown_concat]
  change id ∈ noteFinger h.fingers ev ↔ _
  cases ev with
  | touch id' phase x y =>
    cases phase with
    | down =>
      rw [noteFinger, fingerAfter, Client.HeldKeys.mem_insertButton, hid]
      by_cases heq : id' = id
      · simp [heq]
      · simp [heq, Ne.symm heq]
    | move => exact hid
    | up | cancel =>
      rw [noteFinger, fingerAfter, List.mem_filter, hid]
      by_cases heq : id' = id
      · simp [heq]
      · simp [heq, Ne.symm heq]
  | _ => exact hid

theorem Tracks.noteAll {h : Held} {evs : List InputEvent} (ht : Tracks h evs) (more : List InputEvent) :
    Tracks (more.foldl Held.note h) (evs ++ more) := by
  induction more generalizing h evs with
  | nil => rwa [List.append_nil]
  | cons ev more ih =>
    rw [List.foldl_cons, ← List.singleton_append, ← List.append_assoc]
    exact ih (ht.note ev)

theorem remap_keeps (h : Held) (ev : InputEvent) :
    (h.remap ev).1.pressed = h.pressed ∧ (h.remap ev).1.fingers = h.fingers := by
  cases ev with
  | key scancode extended down =>
    cases down with
    | false =>
      unfold Held.remap
      dsimp only
      cases h.remapped (scancode, extended) with
      | some p => exact ⟨rfl, rfl⟩
      | none =>
        dsimp only
        split_ifs <;> exact ⟨rfl, rfl⟩
    | true =>
      unfold Held.remap
      dsimp only
      cases h.remapped (scancode, extended) with
      | some p => exact ⟨rfl, rfl⟩
      | none =>
        dsimp only
        cases h.standIn (scancode, extended) with
        | some p => exact ⟨rfl, rfl⟩
        | none => exact ⟨rfl, rfl⟩
  | _ => exact ⟨rfl, rfl⟩

theorem Tracks.apply {h : Held} {evs : List InputEvent} (ht : Tracks h evs) (ev : InputEvent) :
    Tracks (h.apply ev).1 (evs ++ (h.apply ev).2) := by
  obtain ⟨hpressed, hfingers⟩ := remap_keeps h ev
  refine Tracks.noteAll ⟨?_, fun id => ?_⟩ (h.remap ev).2
  · rw [hpressed]
    exact ht.pressed
  · rw [hfingers]
    exact ht.fingers id

theorem fingerDown_releases (evs : List InputEvent) (keys : List Key) (buttons fingers : List UInt8) (id : UInt8) :
    fingerDown (evs ++ (keys.map (key · false) ++ buttons.map (.button · false) ++
      fingers.map (.touch · .cancel 0 0))) id = (fingerDown evs id && decide (id ∉ fingers)) := by
  have hkeys : ∀ (keys : List Key) (down : Bool), (keys.map (key · false)).foldl (fingerAfter id) down = down := by
    intro keys down
    induction keys with
    | nil => rfl
    | cons k keys ih => exact ih
  have hbuttons : ∀ (buttons : List UInt8) (down : Bool),
      (buttons.map (InputEvent.button · false)).foldl (fingerAfter id) down = down := by
    intro buttons down
    induction buttons with
    | nil => rfl
    | cons b buttons ih => exact ih
  rw [fingerDown, List.foldl_append, List.foldl_append, List.foldl_append, hkeys, hbuttons]
  change (fingers.map _).foldl _ (fingerDown evs id) = _
  generalize fingerDown evs id = down
  induction fingers generalizing down with
  | nil => simp
  | cons f fingers ih =>
    rw [List.map_cons, List.foldl_cons, ih, fingerAfter]
    by_cases heq : f = id
    · simp [heq]
    · simp [heq, Ne.symm heq]

theorem allUp_fingers {evs : List InputEvent} (h : AllUp evs) (fingers : List UInt8) :
    AllUp (evs ++ fingers.map (.touch · .cancel 0 0)) := by
  induction fingers generalizing evs with
  | nil => rwa [List.map_nil, List.append_nil]
  | cons f fingers ih =>
    rw [List.map_cons, ← List.singleton_append, ← List.append_assoc]
    refine ih ⟨fun k => ?_, fun b => ?_⟩
    · rw [Client.HeldKeys.keyDown_concat]
      exact h.1 k
    · rw [Client.HeldKeys.buttonDown_concat]
      exact h.2 b

theorem Tracks.releaseAll {h : Held} {evs : List InputEvent} (ht : Tracks h evs) :
    NoneDown (evs ++ h.releaseAll.2) := by
  refine ⟨?_, fun id => ?_⟩
  · rw [Held.releaseAll, ← List.append_assoc]
    exact allUp_fingers ht.pressed.releaseAll h.fingers
  · rw [Held.releaseAll, fingerDown_releases]
    have hid := ht.fingers id
    by_cases hmem : id ∈ h.fingers <;> simp_all

theorem NoneDown.tracks {evs : List InputEvent} (h : NoneDown evs) : Tracks {} evs :=
  ⟨h.1.tracks, fun id => by simp [h.2 id]⟩

theorem tracks_step {w : World} (hw : Tracks w.held w.sent) (a : Action) : Tracks (w.step a).held (w.step a).sent := by
  cases a with
  | event ev => exact hw.apply ev
  | releaseAll => exact hw.releaseAll.tracks

/-- Nothing is down, and nothing is remapped or swallowed. -/
structure Quiet (w : World) : Prop where
  down : NoneDown w.sent
  remapped : ∀ k, w.held.remapped k = none
  swallow : w.held.swallow = []

theorem Quiet.release {w : World} (h : Quiet w) (k : Key) : Quiet (w.step (.event (key k false))) := by
  have hout : w.held.remap (key k false) = (w.held, [key k false]) := by
    rw [key, Held.remap, h.remapped, h.swallow]
    exact if_neg List.not_mem_nil
  have hstep : w.step (.event (key k false)) =
      ⟨w.held.note (key k false), physAfter w.phys (key k false), w.sent ++ [key k false]⟩ := by
    rw [World.step, Held.apply, hout]
    rfl
  rw [hstep]
  refine ⟨⟨⟨fun k' => ?_, fun b => ?_⟩, fun id => ?_⟩, h.remapped, h.swallow⟩
  · rw [Client.HeldKeys.keyDown_concat, h.down.1.1 k']
    exact ite_self _
  · rw [Client.HeldKeys.buttonDown_concat]
    exact h.down.1.2 b
  · rw [fingerDown_concat]
    exact h.down.2 id

/-! ## What keeps a key down -/

theorem of_foldl_keyAfter {evs : List InputEvent} {k : Key} {down : Bool} (h : evs.foldl (keyAfter k) down = true) :
    down = true ∨ key k true ∈ evs := by
  induction evs generalizing down with
  | nil => exact .inl h
  | cons ev evs ih =>
    rcases ih h with hdown | hmem
    · cases ev with
      | key scancode extended d =>
        rw [keyAfter] at hdown
        split_ifs at hdown with heq
        · subst heq hdown
          exact .inr List.mem_cons_self
        · exact .inl hdown
      | _ => exact .inl hdown
    · exact .inr (List.mem_cons_of_mem _ hmem)

theorem of_foldl_ups {evs : List InputEvent} (hups : ∀ ev ∈ evs, ∃ k', ev = key k' false) {k : Key} {down : Bool}
    (h : evs.foldl (keyAfter k) down = true) : down = true ∧ key k false ∉ evs := by
  induction evs generalizing down with
  | nil => exact ⟨h, List.not_mem_nil⟩
  | cons ev evs ih =>
    obtain ⟨hdown, hnot⟩ := ih (fun e he => hups e (List.mem_cons_of_mem _ he)) h
    obtain ⟨k', rfl⟩ := hups ev List.mem_cons_self
    rw [key, keyAfter] at hdown
    split_ifs at hdown with heq
    refine ⟨hdown, fun hmem => ?_⟩
    rcases List.mem_cons.mp hmem with hsame | hmem
    · obtain ⟨rfl⟩ : k = k' := by
        injection hsame with h1 h2
        exact Prod.ext h1 h2
      exact heq rfl
    · exact hnot hmem

/-- What a stand-in puts down, its release lifts; Start only taps, and lifts the Alts. -/
structure Stands (h : Held) (k : Key) (now again up : List InputEvent) : Prop where
  ups : ∀ ev ∈ up, ∃ k', ev = key k' false
  again : ∀ k', key k' true ∈ again → key k' false ∈ up
  now : k ≠ home ∧ (∀ k', key k' true ∈ now → key k' false ∈ up) ∨
    k = home ∧ now = [key lctrl true, key lctrl false] ++ h.alts.map (key · false) ++ [key start true, key start false]

theorem stands_of_standIn {h : Held} {k : Key} {now again up : List InputEvent}
    (hk : h.standIn k = some (now, again, up)) : Stands h k now again up := by
  unfold Held.standIn at hk
  dsimp only at hk
  split_ifs at hk with hsas htab hback hshift hhome
  all_goals
    obtain ⟨rfl, hrest⟩ := Prod.mk.inj (Option.some.inj hk)
    obtain ⟨rfl, rfl⟩ := Prod.mk.inj hrest
  · refine ⟨by simp, by simp, .inl ⟨?_, by simp [key]⟩⟩
    rintro rfl
    exact absurd hsas.1 (by decide)
  · exact ⟨fun ev hev => ⟨tab, List.mem_singleton.mp hev⟩, by simp [key], .inl ⟨by rw [htab.1]; decide, by simp [key]⟩⟩
  · exact ⟨fun ev hev => ⟨tab, List.mem_singleton.mp hev⟩, by simp [key], .inl ⟨by rw [hback.1]; decide, by simp [key]⟩⟩
  · refine ⟨?_, by simp [key], .inl ⟨by rw [hback.1]; decide, ?_⟩⟩
    · intro ev hev
      rcases List.mem_pair.mp hev with rfl | rfl
      · exact ⟨_, rfl⟩
      · exact ⟨_, rfl⟩
    · simp only [key, List.mem_cons, InputEvent.key.injEq, List.not_mem_nil, or_false]
      tauto
  · exact ⟨by simp, by simp, .inr ⟨hhome.1, rfl⟩⟩

/-- Each key that is down is down for a physical key: for itself, or for one that it stands in for. -/
structure Accounted (w : World) : Prop where
  stands : ∀ p again up, w.held.remapped p = some (again, up) →
    p ∈ w.phys ∧ (∀ ev ∈ up, ∃ k', ev = key k' false) ∧ ∀ k', key k' true ∈ again → key k' false ∈ up
  down : ∀ k, keyDown w.sent k = true → k ∈ w.phys ∧ w.held.remapped k = none ∧ k ∉ w.held.swallow ∨
      ∃ p again up, w.held.remapped p = some (again, up) ∧ key k false ∈ up

theorem Accounted.none_down {w : World} (h : Accounted w) (hphys : w.phys = []) (k : Key) :
    keyDown w.sent k = false := by
  by_contra hdown
  rcases h.down k (Bool.not_eq_false _ ▸ hdown) with ⟨hself, -, -⟩ | ⟨p, again, up, hp, -⟩
  · rw [hphys] at hself
    exact List.not_mem_nil hself
  · have hmem := (h.stands p again up hp).1
    rw [hphys] at hmem
    exact List.not_mem_nil hmem

theorem foldl_note_keeps (evs : List InputEvent) (h : Held) :
    (evs.foldl Held.note h).remapped = h.remapped ∧ (evs.foldl Held.note h).swallow = h.swallow := by
  induction evs generalizing h with
  | nil => exact ⟨rfl, rfl⟩
  | cons ev evs ih => exact ih (h.note ev)

theorem of_foldl_start {alts : List Key} {k : Key} {down : Bool}
    (h : ([key lctrl true, key lctrl false] ++ alts.map (key · false) ++ [key start true, key start false]).foldl
      (keyAfter k) down = true) : down = true ∧ k ∉ alts := by
  have htap : ∀ (t : Key) (d : Bool), keyAfter k (keyAfter k d (key t true)) (key t false) = true → d = true := by
    intro t d htap
    rw [key, key, keyAfter, keyAfter] at htap
    split_ifs at htap with heq
    exact htap
  rw [List.foldl_append, List.foldl_append] at h
  have halts := htap start _ h
  have hups : ∀ ev ∈ alts.map (key · false), ∃ k', ev = key k' false := by
    intro ev hev
    obtain ⟨k', -, rfl⟩ := List.mem_map.mp hev
    exact ⟨k', rfl⟩
  obtain ⟨hctrl, hnot⟩ := of_foldl_ups hups halts
  exact ⟨htap lctrl _ hctrl, fun hmem => hnot (List.mem_map_of_mem hmem)⟩

theorem accounted_event {w : World} {ev : InputEvent} {remapped : Key → Option (List InputEvent × List InputEvent)}
    {swallow : List Key} {out : List InputEvent}
    (hremap : w.held.remap ev = ({ w.held with remapped := remapped, swallow := swallow }, out))
    (hstands : ∀ p again up, remapped p = some (again, up) →
      p ∈ physAfter w.phys ev ∧ (∀ ev ∈ up, ∃ k', ev = key k' false) ∧ ∀ k', key k' true ∈ again → key k' false ∈ up)
    (hdown : ∀ k, out.foldl (keyAfter k) (keyDown w.sent k) = true →
      k ∈ physAfter w.phys ev ∧ remapped k = none ∧ k ∉ swallow ∨
        ∃ p again up, remapped p = some (again, up) ∧ key k false ∈ up) :
    Accounted (w.step (.event ev)) := by
  obtain ⟨hsame, hsame'⟩ := foldl_note_keeps out { w.held with remapped := remapped, swallow := swallow }
  have hstep : w.step (.event ev) =
      ⟨out.foldl Held.note { w.held with remapped := remapped, swallow := swallow }, physAfter w.phys ev,
        w.sent ++ out⟩ := by
    rw [World.step, Held.apply, hremap]
  rw [hstep]
  constructor
  · intro p again up hp
    rw [hsame] at hp
    exact hstands p again up hp
  · intro k hk
    rw [keyDown_append] at hk
    dsimp only
    rw [hsame, hsame']
    exact hdown k hk

theorem Accounted.step {w : World} (h : Accounted w) (ht : Tracks w.held w.sent) {a : Action} (hclean : w.Clean a) :
    Accounted (w.step a) := by
  have hself : ∀ {p k : Key} {again up : List InputEvent}, w.held.remapped p = some (again, up) →
      w.held.remapped k = none → k ≠ p := by
    rintro p k again up hp hk rfl
    rw [hk] at hp
    cases hp
  cases a with
  | releaseAll =>
    have hnone := ht.releaseAll
    refine ⟨fun p again up hp => (nomatch hp), fun k hk => ?_⟩
    rw [show keyDown (w.step .releaseAll).sent k = false from hnone.1.1 k] at hk
    cases hk
  | event ev =>
    cases ev with
    | key scancode extended down =>
      set k₀ : Key := (scancode, extended)
      cases down with
      | false =>
        -- Only what is released goes up; what the key itself kept down is among it.
        have hphys : ∀ k, k ≠ k₀ → k ∈ w.phys → k ∈ physAfter w.phys (.key scancode extended false) :=
          fun k hne hk => List.mem_filter.mpr ⟨hk, decide_eq_true hne⟩
        cases hremapped : w.held.remapped k₀ with
        | some p =>
          obtain ⟨again, up⟩ := p
          obtain ⟨-, hups, -⟩ := h.stands k₀ again up hremapped
          have hremap : w.held.remap (.key scancode extended false) =
              ({ w.held with remapped := Function.update w.held.remapped k₀ none }, up) := by
            unfold Held.remap
            dsimp only
            rw [show w.held.remapped (scancode, extended) = some (again, up) from hremapped]
          refine accounted_event hremap ?_ ?_
          · intro p again' up' hp
            have hne : p ≠ k₀ := by
              rintro rfl
              rw [Function.update_self] at hp
              cases hp
            rw [Function.update_of_ne hne] at hp
            obtain ⟨hmem, hrest⟩ := h.stands p again' up' hp
            exact ⟨hphys p hne hmem, hrest⟩
          · intro k hk
            obtain ⟨hbefore, hnot⟩ := of_foldl_ups hups hk
            rcases h.down k hbefore with ⟨hmem, hnone, hswallow⟩ | ⟨p, again', up', hp, hup⟩
            · have hne := hself hremapped hnone
              exact .inl ⟨hphys k hne hmem, by rw [Function.update_of_ne hne, hnone], hswallow⟩
            · have hne : p ≠ k₀ := by
                rintro rfl
                rw [hremapped] at hp
                obtain ⟨-, rfl⟩ := Prod.mk.inj (Option.some.inj hp)
                exact hnot hup
              exact .inr ⟨p, again', up', by rw [Function.update_of_ne hne, hp], hup⟩
        | none =>
          have hkept : ∀ p again up, w.held.remapped p = some (again, up) →
              p ∈ physAfter w.phys (.key scancode extended false) ∧ (∀ ev ∈ up, ∃ k', ev = key k' false) ∧
                ∀ k', key k' true ∈ again → key k' false ∈ up := by
            intro p again up hp
            obtain ⟨hmem, hrest⟩ := h.stands p again up hp
            exact ⟨hphys p (hself hp hremapped).symm hmem, hrest⟩
          by_cases hswallow : k₀ ∈ w.held.swallow
          · have hremap : w.held.remap (.key scancode extended false) =
                ({ w.held with swallow := w.held.swallow.filter (· ≠ k₀) }, []) := by
              unfold Held.remap
              dsimp only
              rw [show w.held.remapped (scancode, extended) = none from hremapped]
              exact if_pos hswallow
            refine accounted_event hremap hkept ?_
            intro k hk
            rcases h.down k hk with ⟨hmem, hnone, hnot⟩ | hother
            · have hne : k ≠ k₀ := fun heq => hnot (heq ▸ hswallow)
              exact .inl ⟨hphys k hne hmem, hnone, fun hmem' => hnot (List.mem_filter.mp hmem').1⟩
            · exact .inr hother
          · have hremap : w.held.remap (.key scancode extended false) = (w.held, [.key scancode extended false]) := by
              unfold Held.remap
              dsimp only
              rw [show w.held.remapped (scancode, extended) = none from hremapped]
              exact if_neg hswallow
            refine accounted_event hremap hkept ?_
            intro k hk
            obtain ⟨hbefore, hnot⟩ := of_foldl_ups (fun ev hev => ⟨k₀, List.mem_singleton.mp hev⟩) hk
            have hne : k ≠ k₀ := by
              rintro rfl
              exact hnot List.mem_cons_self
            rcases h.down k hbefore with ⟨hmem, hnone, hnotSwallow⟩ | hother
            · exact .inl ⟨hphys k hne hmem, hnone, hnotSwallow⟩
            · exact .inr hother
      | true =>
        obtain ⟨hnotSwallow, hplain⟩ := hclean
        have hphys : ∀ k, k ∈ w.phys → k ∈ physAfter w.phys (.key scancode extended true) :=
          fun k hk => Client.HeldKeys.mem_insertKey.mpr (.inr hk)
        have hphys₀ : k₀ ∈ physAfter w.phys (.key scancode extended true) :=
          Client.HeldKeys.mem_insertKey.mpr (.inl rfl)
        have hkept : ∀ p again up, w.held.remapped p = some (again, up) →
            p ∈ physAfter w.phys (.key scancode extended true) ∧ (∀ ev ∈ up, ∃ k', ev = key k' false) ∧
              ∀ k', key k' true ∈ again → key k' false ∈ up := by
          intro p again up hp
          obtain ⟨hmem, hrest⟩ := h.stands p again up hp
          exact ⟨hphys p hmem, hrest⟩
        cases hremapped : w.held.remapped k₀ with
        | some p =>
          obtain ⟨again, up⟩ := p
          have hremap : w.held.remap (.key scancode extended true) = (w.held, again) := by
            unfold Held.remap
            dsimp only
            rw [show w.held.remapped (scancode, extended) = some (again, up) from hremapped]
          refine accounted_event hremap hkept ?_
          intro k hk
          rcases of_foldl_keyAfter hk with hbefore | hagain
          · rcases h.down k hbefore with ⟨hmem, hrest⟩ | hother
            · exact .inl ⟨hphys k hmem, hrest⟩
            · exact .inr hother
          · exact .inr ⟨k₀, again, up, hremapped, (h.stands k₀ again up hremapped).2.2 k hagain⟩
        | none =>
          cases hstandIn : w.held.standIn k₀ with
          | none =>
            have hremap : w.held.remap (.key scancode extended true) = (w.held, [.key scancode extended true]) := by
              unfold Held.remap
              dsimp only
              rw [show w.held.remapped (scancode, extended) = none from hremapped]
              dsimp only
              rw [show w.held.standIn (scancode, extended) = none from hstandIn]
            refine accounted_event hremap hkept ?_
            intro k hk
            rcases of_foldl_keyAfter hk with hbefore | hpress
            · rcases h.down k hbefore with ⟨hmem, hrest⟩ | hother
              · exact .inl ⟨hphys k hmem, hrest⟩
              · exact .inr hother
            · obtain rfl : k = k₀ := by
                have hsame := List.mem_singleton.mp hpress
                injection hsame with h1 h2
                exact Prod.ext h1 h2
              exact .inl ⟨hphys₀, hremapped, hnotSwallow⟩
          | some p =>
            obtain ⟨now, again, up⟩ := p
            have hstands := stands_of_standIn hstandIn
            have hremap : w.held.remap (.key scancode extended true) = ({ w.held with
                    remapped := Function.update w.held.remapped k₀ (some (again, up))
                    swallow := if k₀ = home then w.held.alts ++ w.held.swallow else w.held.swallow }, now) := by
              unfold Held.remap
              dsimp only
              rw [show w.held.remapped (scancode, extended) = none from hremapped]
              dsimp only
              rw [show w.held.standIn (scancode, extended) = some (now, again, up) from hstandIn]
            -- The key did not go down as itself before.
            have hnotDown : keyDown w.sent k₀ = false := by
              by_contra hdown
              have hmem := (ht.pressed.keys k₀).mpr (Bool.not_eq_false _ ▸ hdown)
              rw [hplain hmem] at hstandIn
              cases hstandIn
            refine accounted_event hremap ?_ ?_
            · intro p again' up' hp
              by_cases heq : p = k₀
              · rw [heq, Function.update_self] at hp
                obtain ⟨rfl, rfl⟩ := Prod.mk.inj (Option.some.inj hp)
                exact ⟨heq ▸ hphys₀, hstands.ups, hstands.again⟩
              · rw [Function.update_of_ne heq] at hp
                exact hkept p again' up' hp
            · intro k hk
              have hbeforeAll : ∀ k, keyDown w.sent k = true → k ∈ physAfter w.phys (.key scancode extended true) ∧
                      Function.update w.held.remapped k₀ (some (again, up)) k = none ∧ k ∉ w.held.swallow ∨
                    ∃ p again' up', Function.update w.held.remapped k₀ (some (again, up)) p = some (again', up') ∧
                      key k false ∈ up' := by
                intro k hbefore
                rcases h.down k hbefore with ⟨hmem, hnone, hrest⟩ | ⟨p, again', up', hp, hup⟩
                · have hne : k ≠ k₀ := by
                    rintro rfl
                    rw [hnotDown] at hbefore
                    cases hbefore
                  exact .inl ⟨hphys k hmem, by rw [Function.update_of_ne hne, hnone], hrest⟩
                · exact .inr ⟨p, again', up', by rw [Function.update_of_ne (hself hp hremapped).symm, hp], hup⟩
              rcases hstands.now with ⟨hhome, hnow⟩ | ⟨hhome, rfl⟩
              · rw [if_neg hhome]
                rcases of_foldl_keyAfter hk with hbefore | hpress
                · exact hbeforeAll k hbefore
                · exact .inr ⟨k₀, again, up, Function.update_self .., hnow k hpress⟩
              · obtain ⟨hbefore, halt⟩ := of_foldl_start hk
                rw [if_pos hhome]
                rcases hbeforeAll k hbefore with ⟨hmem, hnone, hnot⟩ | hother
                · refine .inl ⟨hmem, hnone, fun hmem' => ?_⟩
                  rcases List.mem_append.mp hmem' with hmem' | hmem'
                  · exact halt hmem'
                  · exact hnot hmem'
                · exact .inr hother
    | _ => exact accounted_event rfl h.stands h.down

theorem accounted_start : Accounted {} := ⟨fun p again up hp => (nomatch hp), fun k hk => by simp [keyDown] at hk⟩

theorem tracks_start : Tracks {} [] := ⟨Client.HeldKeys.Held.tracks_nil, fun id => by simp [fingerDown]⟩

/-- After any run: the keys held are those that the events sent left down; once all is released nothing is down,
and later releases put nothing down. -/
theorem keys_never_stick (actions : List Action) :
    let w := run World.step {} actions
    (∀ k, k ∈ w.held.keys ↔ keyDown w.sent k = true) ∧
      (∀ ups : List Key, NoneDown (run World.step (w.step .releaseAll) (ups.map fun k => .event (key k false))).sent) ∧
      (Along World.step World.Clean {} actions → w.phys = [] → ∀ k, keyDown w.sent k = false) := by
  intro w
  have ht : Tracks w.held w.sent :=
    Lib.invariant_run (fun w : World => Tracks w.held w.sent) tracks_start (fun _ a hw => tracks_step hw a) actions
  refine ⟨ht.pressed.keys, fun ups => ?_, fun hclean hphys k => ?_⟩
  · have hquiet : Quiet (w.step .releaseAll) := ⟨ht.releaseAll, fun _ => rfl, rfl⟩
    generalize w.step .releaseAll = r at hquiet ⊢
    induction ups generalizing r with
    | nil => exact hquiet.down
    | cons k ups ih => exact ih _ (hquiet.release k)
  · have haccounted : Accounted w ∧ Tracks w.held w.sent :=
      Lib.invariant_along (fun w : World => Accounted w ∧ Tracks w.held w.sent) ⟨accounted_start, tracks_start⟩
        (fun _ a hw ha => ⟨hw.1.step hw.2 ha, tracks_step hw.2 a⟩) hclean
    exact haccounted.1.none_down hphys k

theorem keys_never_stick_tab :
    ∀ k, keyDown (run World.step {} [.event (key (0x38, false) true), .event (key (0x49, true) true),
      .event (key (0x49, true) true), .event (key (0x38, false) false), .event (key (0x49, true) false)]).sent k =
        false :=
  (keys_never_stick _).2.2 (by decide) (by decide)

/-- An Alt that repeats after it was lifted for Start stays down; and so does a Page Up that repeats once Alt is
down. -/
theorem key_stuck :
    (let w := run World.step {}
        [.event (key (0x38, false) true), .event (key home true), .event (key (0x38, false) true),
          .event (key home false), .event (key (0x38, false) false)]
     w.phys = [] ∧ keyDown w.sent (0x38, false) = true) ∧
    (let w := run World.step {}
        [.event (key (0x49, true) true), .event (key (0x38, false) true), .event (key (0x49, true) true),
          .event (key (0x49, true) false), .event (key (0x38, false) false)]
     w.phys = [] ∧ keyDown w.sent (0x49, true) = true) := by
  decide

end Rdpio.Android.StandIns
