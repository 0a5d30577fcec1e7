import Rdpio.Lib.Run

/-!
# The camera over Hyper

`watch_wanted` of `crates/rdp-client/src/hyper_camera.rs` on the host, `Control::Camera` of `hyper_client.rs`
on the client, and the messages between them, in the order in which they were sent.
-/

namespace Rdpio.Client.HyperCamera

open Lib

structure CameraSender where
  finished : Bool
deriving DecidableEq

structure State where
  users : ℕ
  on : Bool
  last_sent : ℕ
  now : ℕ
  ended : Bool
  in_flight : List Bool
  last_lost : Bool
  camera : Option CameraSender
  unused : ℕ
deriving DecidableEq

def start : State := ⟨0, false, 0, 10000, false, [], false, none, 0⟩

namespace State

def control (s : State) (on : Bool) : State := { s with in_flight := s.in_flight ++ [on] }

def idle (s : State) : ℕ := if s.users = 0 then s.unused + 1 else 0

def pass (s : State) (waited : ℕ) : State :=
  let now_on := decide (0 < s.users)
  let s := { s with unused := s.idle }
  let s :=
    if now_on ≠ s.on ∨ s.on = true ∧ 1000 ≤ s.now - s.last_sent then
      { s.control now_on with on := now_on, last_sent := s.now }
    else s
  { s with now := s.now + min waited 1000 }

def finish (s : State) : State :=
  let s := if s.on then ((s.control false).control false).control false else s
  { s with ended := true }

/-- `Control::Camera { on }` at the client. -/
def handle (s : State) (on : Bool) : State :=
  let camera := s.camera.filter (! ·.finished)
  { s with camera := if on && camera.isNone then some ⟨false⟩ else if on then camera else none }

def Running (s : State) : Prop := s.camera = some ⟨false⟩

instance (s : State) : Decidable s.Running := inferInstanceAs (Decidable (_ = _))

end State

inductive Event
  | appStarts
  | appStops
  | pass (waited : ℕ)
  | hostEnds
  | delivered
  | lost
  | cameraStops
deriving DecidableEq

def step (s : State) : Event → State
  | .appStarts => if s.ended then s else { s with users := s.users + 1, unused := 0 }
  | .appStops => { s with users := s.users - 1 }
  | .pass waited => if s.ended then s else s.pass waited
  | .hostEnds => if s.ended then s else s.finish
  | .delivered =>
    match s.in_flight with
    | [] => s
    | on :: rest => { s with in_flight := rest, last_lost := false }.handle on
  | .lost =>
    match s.in_flight with
    | [] => s
    | _ :: rest => if s.last_lost then s else { s with in_flight := rest, last_lost := true }
  | .cameraStops => { s with camera := s.camera.map fun _ => ⟨true⟩ }

/-- The camera is off where nobody uses it: for four passes, or for good. -/
structure OffUnused (s : State) : Prop where
  unused : s.users = 0 → 4 ≤ s.unused → s.in_flight = [] → ¬ s.Running
  ended : s.ended = true → s.in_flight = [] → ¬ s.Running

/-- An "off" that nothing follows is not lost while the client captures its camera. -/
def OffArrives (s : State) (e : Event) : Prop := e = .lost → s.last_lost = false → s.in_flight = [false] → ¬ s.Running

instance (s : State) (e : Event) : Decidable (OffArrives s e) := inferInstanceAs (Decidable (_ → _ → _ → _))

/-- What was sent last is what the host holds; nothing on the way turns the camera on once the host is off. -/
structure Inv (s : State) : Prop where
  unused : 1 ≤ s.unused → s.ended = true ∨ s.on = false
  last : s.ended = false → ∀ on, s.in_flight.getLast? = some on → on = s.on
  off : s.ended = true ∨ s.on = false → s.in_flight = [] ∧ ¬ s.Running ∨ s.in_flight.getLast? = some false

theorem inv_start : Inv start where
  unused h := absurd h (by decide)
  last _ on h := by cases h
  off _ := Or.inl ⟨rfl, by decide⟩

theorem Inv.pass {s : State} (h : Inv s) (waited : ℕ) (hended : s.ended = false) : Inv (s.pass waited) := by
  have hnow : 1 ≤ s.idle → decide (0 < s.users) = false := by
    intro hunused
    unfold State.idle at hunused
    split_ifs at hunused with husers
    · simp [husers]
    · omega
  unfold State.pass State.control
  dsimp only
  split_ifs with hsend
  · refine ⟨fun hunused => Or.inr (hnow hunused), fun _ on hlast => ?_, fun hoff => Or.inr ?_⟩
    · rw [List.getLast?_concat] at hlast
      exact (Option.some.inj hlast).symm
    · rw [List.getLast?_concat]
      exact congrArg some (hoff.resolve_left (by simp [hended]))
  · -- nothing is sent, so the host holds what it sees
    have hsame : decide (0 < s.users) = s.on := by_contra fun hne => hsend (Or.inl hne)
    exact ⟨fun hunused => Or.inr (hsame.symm.trans (hnow hunused)), h.last, h.off⟩

theorem Inv.finish {s : State} (h : Inv s) : Inv s.finish := by
  unfold State.finish State.control
  split_ifs with hon
  · exact ⟨fun _ => Or.inl rfl, fun hended => Bool.noConfusion hended, fun _ => Or.inr (List.getLast?_concat ..)⟩
  · exact ⟨fun _ => Or.inl rfl, fun hended => Bool.noConfusion hended, fun _ => h.off (Or.inr (by simpa using hon))⟩

theorem not_running_handle_false (s : State) : ¬ (s.handle false).Running := by
  unfold State.handle State.Running
  simp

theorem getLast?_tail {on : Bool} {rest : List Bool} (hne : rest ≠ []) : rest.getLast? = (on :: rest).getLast? := by
  rw [List.getLast?_cons, List.getLast?_eq_some_getLast hne]
  rfl

theorem Inv.delivered {s : State} (h : Inv s) {on : Bool} {rest : List Bool} (hflight : s.in_flight = on :: rest) :
    Inv ({ s with in_flight := rest, last_lost := false }.handle on) := by
  refine ⟨h.unused, fun hended last hlast => ?_, fun hoff => ?_⟩
  · have hne : rest ≠ [] := by
      rintro rfl
      cases hlast
    exact h.last hended last (by rw [hflight, ← getLast?_tail hne]; exact hlast)
  · obtain ⟨hnil, -⟩ | hlast := h.off hoff
    · rw [hflight] at hnil
      cases hnil
    rw [hflight] at hlast
    by_cases hne : rest = []
    · subst hne
      obtain rfl : on = false := Option.some.inj hlast
      exact Or.inl ⟨rfl, not_running_handle_false _⟩
    · exact Or.inr ((getLast?_tail hne).trans hlast)

theorem Inv.lost {s : State} (h : Inv s) {on : Bool} {rest : List Bool} (hflight : s.in_flight = on :: rest)
    (hok : s.in_flight = [false] → ¬ s.Running) : Inv { s with in_flight := rest, last_lost := true } := by
  refine ⟨h.unused, fun hended last hlast => ?_, fun hoff => ?_⟩
  · have hne : rest ≠ [] := by
      rintro rfl
      cases hlast
    exact h.last hended last (by rw [hflight, ← getLast?_tail hne]; exact hlast)
  · obtain ⟨hnil, -⟩ | hlast := h.off hoff
    · rw [hflight] at hnil
      cases hnil
    rw [hflight] at hlast
    by_cases hne : rest = []
    · subst hne
      obtain rfl : on = false := Option.some.inj hlast
      exact Or.inl ⟨rfl, hok hflight⟩
    · exact Or.inr ((getLast?_tail hne).trans hlast)

theorem Inv.step {s : State} (h : Inv s) {e : Event} (hok : OffArrives s e) : Inv (step s e) := by
  cases e with
  | appStarts =>
    simp only [HyperCamera.step]
    split_ifs
    · exact h
    · exact ⟨fun hunused => absurd hunused (Nat.not_succ_le_zero 0), h.last, h.off⟩
  | appStops => exact ⟨h.unused, h.last, h.off⟩
  | pass waited =>
    simp only [HyperCamera.step]
    split_ifs with hended
    · exact h
    · exact h.pass waited (by simpa using hended)
  | hostEnds =>
    simp only [HyperCamera.step]
    split_ifs
    · exact h
    · exact h.finish
  | delivered =>
    cases hflight : s.in_flight with
    | nil => simpa only [HyperCamera.step, hflight] using h
    | cons on rest => simpa only [HyperCamera.step, hflight] using h.delivered hflight
  | lost =>
    cases hflight : s.in_flight with
    | nil => simpa only [HyperCamera.step, hflight] using h
    | cons on rest =>
      simp only [HyperCamera.step, hflight]
      split_ifs with hlost
      · exact h
      · exact h.lost hflight (hok rfl (by simpa using hlost))
  | cameraStops =>
    refine ⟨h.unused, h.last, fun hoff => (h.off hoff).imp_left fun ⟨hnil, _⟩ => ⟨hnil, ?_⟩⟩
    -- a sender that has ended captures nothing
    unfold State.Running
    simp only [HyperCamera.step]
    cases s.camera <;> simp

theorem Inv.offUnused {s : State} (h : Inv s) : OffUnused s := by
  have hoff : s.ended = true ∨ s.on = false → s.in_flight = [] → ¬ s.Running := by
    intro hquiet hnil
    obtain ⟨-, hrunning⟩ | hlast := h.off hquiet
    · exact hrunning
    · rw [hnil] at hlast
      cases hlast
  exact ⟨fun _ hunused => hoff (h.unused (by omega)), fun hended => hoff (Or.inl hended)⟩

theorem run_appStops (s : State) (n : ℕ) :
    run step s (List.replicate n .appStops) = { s with users := s.users - n } := by
  induction n generalizing s with
  | zero => rfl
  | succ n ih =>
    rw [List.replicate_succ, run_cons, ih]
    simp only [step, Nat.sub_sub, Nat.add_comm 1 n]

theorem run_passes {s : State} (husers : s.users = 0) (hon : s.on = false) (hended : s.ended = false) (n : ℕ) :
    ∃ now, run step s (List.replicate n (.pass 0)) = { s with now, unused := s.unused + n } := by
  induction n generalizing s with
  | zero => exact ⟨s.now, rfl⟩
  | succ n ih =>
    have hpass : step s (.pass 0) = { s with unused := s.unused + 1 } := by
      simp [step, State.pass, State.idle, husers, hon, hended]
    rw [List.replicate_succ, run_cons, hpass]
    obtain ⟨now, hrun⟩ := @ih { s with unused := s.unused + 1 } husers hon hended
    exact ⟨now, by rw [hrun]; simp only [Nat.add_assoc, Nat.add_comm 1 n]⟩

theorem not_offUnused_of_lost {s : State} (h : Inv s) (hlast : s.last_lost = false) (hflight : s.in_flight = [false])
    (hrunning : s.Running) : ∃ more, ¬ OffUnused (run step s (.lost :: more)) := by
  have hstep : step s .lost = { s with in_flight := [], last_lost := true } := by
    simp [step, hflight, hlast]
  cases hended : s.ended with
  | true =>
    refine ⟨[], fun hoff => ?_⟩
    rw [run_cons, hstep] at hoff
    exact hoff.ended hended rfl hrunning
  | false =>
    have hon : s.on = false := (h.last hended false (by rw [hflight]; rfl)).symm
    -- the apps stop, and then the host makes four passes
    refine ⟨List.replicate s.users .appStops ++ List.replicate 4 (.pass 0), fun hoff => ?_⟩
    rw [run_cons, run_append, hstep, run_appStops] at hoff
    obtain ⟨now, hrun⟩ := @run_passes { s with in_flight := [], last_lost := true, users := s.users - s.users }
      (Nat.sub_self _) hon hended 4
    rw [hrun] at hoff
    exact hoff.unused (Nat.sub_self _) (Nat.le_add_left _ _) rfl hrunning

/-- Along runs in which no such "off" is lost the camera is off wherever nobody uses it; and a run in which one is
can go on to a state in which it is not. -/
theorem offUnused_of_offArrives (es : List Event) : (Along step OffArrives start es → OffUnused (run step start es)) ∧
      (¬ Along step OffArrives start es → ∃ done more, done <+: es ∧ ¬ OffUnused (run step start (done ++ more))) := by
  refine ⟨fun h => (invariant_along Inv inv_start (fun s e hs => hs.step) h).offUnused, fun h => ?_⟩
  -- the first event that does not meet the condition
  have hfirst : ∃ done e, done ++ [e] <+: es ∧ Along step OffArrives start done ∧
      ¬ OffArrives (run step start done) e := by
    induction es using List.reverseRecOn with
    | nil => exact absurd trivial h
    | append_singleton es e ih =>
      by_cases halong : Along step OffArrives start es
      · refine ⟨es, e, List.prefix_rfl, halong, fun he => h (along_append.2 ⟨halong, he, trivial⟩)⟩
      · obtain ⟨done, e', hprefix, hdone⟩ := ih halong
        exact ⟨done, e', hprefix.trans (List.prefix_append _ _), hdone⟩
  obtain ⟨done, e, hprefix, hdone, he⟩ := hfirst
  have hinv := invariant_along Inv inv_start (fun s e hs => hs.step) hdone
  simp only [OffArrives, Classical.not_imp, not_not] at he
  obtain ⟨rfl, hlast, hflight, hrunning⟩ := he
  obtain ⟨more, hmore⟩ := not_offUnused_of_lost hinv hlast hflight hrunning
  refine ⟨done, .lost :: more, (List.prefix_append _ _).trans hprefix, ?_⟩
  rwa [run_append]

def lostOff : List Event := [.appStarts, .pass 0, .delivered, .appStops, .pass 0, .lost, .pass 1000, .pass 1000, .pass 1000]

theorem lostOff_running : ¬ OffUnused (run step start lostOff) := fun h =>
  h.unused (by decide) (by decide) (by decide) (by decide)

end Rdpio.Client.HyperCamera
