import Rdpio.Lib.Run

/-!
# The display driver's settings

`vdd_settings.xml` and the files beside it, as `VirtualDisplay::show`, the drop of a `VirtualMonitor` and
`mtt_undo_leftovers` of `crates/rdp-client/src/virtual_display.rs` write them, step by step.
-/

namespace Rdpio.Client.DriverSettings

open Lib

abbrev Bytes := List UInt8

structure Files where
  /-- `vdd_settings.xml`. -/
  settings : Bytes
  /-- `vdd_settings.xml.rdpio-backup`. -/
  backup : Option Bytes
  /-- `vdd_settings.xml.rdpio-enabled`. -/
  marker : Bool
deriving DecidableEq

/-- A step that a call still has to take. -/
inductive Op where
  | writeBackup (bytes : Bytes)
  | writeMarker
  | writeSettings (bytes : Bytes)
  /-- A step of `show` behind the guard: the driver, or Windows' display layout. -/
  | device
  | restore (bytes : Bytes)
  | removeBackup
  | removeMarker
deriving DecidableEq

/-- How a step goes. -/
inductive Outcome where
  | done
  | failed
  /-- A write that fails with so many bytes written. -/
  | cut (n : ℕ)
deriving DecidableEq

inductive Agent where
  | none
  /-- The back end is open and no monitor is shown. -/
  | idle
  /-- Within a call, and what the agent is when it succeeds. -/
  | busy (ops : List Op) (shown : Bool)
  | shown
deriving DecidableEq

structure State where
  files : Files
  agent : Agent
deriving DecidableEq

inductive Event where
  | open
  /-- `show`, its reading of the settings, and whether the driver was enabled. -/
  | show (settings_with : Bytes → Bytes) (reads enabled : Bool) (devices : ℕ)
  | go (outcome : Outcome)
  | drop
  /-- The agent dies: between two steps, or within a write that wrote so many bytes. -/
  | die (within : Option ℕ)

def restoring (f : Files) : List Op :=
  (match f.backup with
    | some original => [.restore original, .removeBackup]
    | none => []) ++ [.removeMarker]

def showing (f : Files) (settings_with : Bytes → Bytes) (enabled : Bool) (devices : ℕ) : List Op :=
  [.writeBackup f.settings] ++ (if enabled then [] else [.writeMarker]) ++
    [.writeSettings (settings_with f.settings)] ++ List.replicate devices .device

/-- What is written of `bytes`. -/
def Outcome.written (o : Outcome) (bytes : Bytes) : Option Bytes :=
  match o with
  | .done => some bytes
  | .failed => none
  | .cut n => some (bytes.take n)

def Files.apply (f : Files) (o : Outcome) : Op → Files
  | .writeBackup bytes => { f with backup := (o.written bytes).or f.backup }
  | .writeMarker => { f with marker := f.marker || o ≠ .failed }
  | .writeSettings bytes | .restore bytes => { f with settings := (o.written bytes).getD f.settings }
  | .device => f
  | .removeBackup => if o = .done then { f with backup := none } else f
  | .removeMarker => if o = .done then { f with marker := false } else f

def fails (f : Files) : Op → Option Agent
  | .writeBackup _ | .writeSettings _ => some .idle
  | .device => some (.busy (restoring f) false)
  | .writeMarker | .restore _ | .removeBackup | .removeMarker => none

def Agent.next (ops : List Op) (shown : Bool) : Agent :=
  match ops with
  | [] => if shown then .shown else .idle
  | ops => .busy ops shown

def State.step (s : State) : Event → State
  | .open =>
    match s.agent with
    | .none => { s with agent := .busy (restoring s.files) false }
    | _ => s
  | .show settings_with reads enabled devices =>
    match s.agent with
    | .idle =>
      if reads then { s with agent := .busy (showing s.files settings_with enabled devices) true } else s
    | _ => s
  | .go outcome =>
    match s.agent with
    | .busy (op :: ops) shown =>
      -- A restoring write succeeds unless the agent dies in it.
      let outcome := match op with
        | .restore _ => .done
        | _ => outcome
      let files := s.files.apply outcome op
      let failed := if outcome = .done then none else fails files op
      { files, agent := failed.getD (.next ops shown) }
    | _ => s
  | .drop =>
    match s.agent with
    | .shown => { s with agent := .busy (restoring s.files) false }
    | _ => s
  | .die within =>
    match s.agent, within with
    | .busy (op :: _) _, some n =>
      match op with
      | .writeBackup _ | .writeSettings _ | .restore _ =>
        { files := s.files.apply (.cut n) op, agent := .none }
      | _ => { s with agent := .none }
    | _, _ => { s with agent := .none }

def State.start (original : Bytes) : State := ⟨⟨original, none, false⟩, .none⟩

/-! ### The user's settings -/

/-- What the agent is to keep: at rest the settings are the user's, and otherwise the backup is. -/
structure Survives (original : Bytes) (s : State) : Prop where
  rest : s.agent = .idle → s.files.settings = original
  backup : s.files.settings ≠ original → s.files.backup = some original

def Uncut (s : State) : Event → Prop
  | .go (.cut _) =>
    match s.agent with
    | .busy (.writeBackup _ :: _) _ | .busy (.writeSettings _ :: _) _ => False
    | _ => True
  | .die (some _) =>
    match s.agent with
    | .busy (.writeBackup _ :: _) _ => False
    | _ => True
  | _ => True

/-- The steps left are those of a restoring. -/
inductive Restores (original : Bytes) (f : Files) : List Op → Prop where
  | all (backup : f.backup = some original) : Restores original f [.restore original, .removeBackup, .removeMarker]
  | backup (settings : f.settings = original) (backup : f.backup = none ∨ f.backup = some original) :
      Restores original f [.removeBackup, .removeMarker]
  | marker (settings : f.settings = original) (backup : f.backup = none ∨ f.backup = some original) :
      Restores original f [.removeMarker]

inductive Tail : List Op → Prop where
  | marker {ops : List Op} (rest : Tail ops) : Tail (.writeMarker :: ops)
  | settings (bytes : Bytes) (n : ℕ) : Tail (.writeSettings bytes :: List.replicate n .device)

/-- The steps left are those of a `show`. -/
inductive Shows (original : Bytes) (f : Files) : List Op → Prop where
  | backup {ops : List Op} (settings : f.settings = original) (backup : f.backup = none ∨ f.backup = some original)
      (rest : Tail ops) : Shows original f (.writeBackup original :: ops)
  | tail {ops : List Op} (settings : f.settings = original) (backup : f.backup = some original)
      (rest : Tail ops) : Shows original f ops
  | device (n : ℕ) (backup : f.backup = some original) : Shows original f (.device :: List.replicate n .device)

/-- The settings are the user's, and so is a backup. -/
def Files.Whole (original : Bytes) (f : Files) : Prop :=
  f.settings = original ∧ (f.backup = none ∨ f.backup = some original)

/-- What holds in every state of a run whose writes are not cut short. -/
def Inv (original : Bytes) (s : State) : Prop :=
  match s.agent with
  | .none => s.files.Whole original ∨ s.files.backup = some original
  | .idle => s.files.Whole original
  | .shown => s.files.backup = some original
  | .busy ops shown => shown = false ∧ Restores original s.files ops ∨ shown = true ∧ Shows original s.files ops

variable {original : Bytes}

theorem Restores.of {f : Files} (h : f.Whole original ∨ f.backup = some original) :
    Restores original f (restoring f) := by
  unfold restoring
  rcases h with ⟨hs, hb | hb⟩ | hb
  · rw [hb]
    exact .marker hs (.inl hb)
  · rw [hb]
    exact .all hb
  · rw [hb]
    exact .all hb

theorem Shows.of {f : Files} (h : f.Whole original) (settings_with : Bytes → Bytes) (enabled : Bool)
    (devices : ℕ) : Shows original f (showing f settings_with enabled devices) := by
  obtain ⟨hs, hb⟩ := h
  have htail := Tail.settings (settings_with f.settings) devices
  rw [hs] at htail
  unfold showing
  rw [hs]
  cases enabled with
  | true => exact .backup hs hb htail
  | false => exact .backup hs hb (.marker htail)

theorem Restores.kept {f : Files} {ops : List Op} (h : Restores original f ops) :
    f.Whole original ∨ f.backup = some original := by
  cases h with
  | all hb => exact .inr hb
  | backup hs hb | marker hs hb => exact .inl ⟨hs, hb⟩

theorem Shows.kept {f : Files} {ops : List Op} (h : Shows original f ops) :
    f.Whole original ∨ f.backup = some original := by
  cases h with
  | backup hs hb => exact .inl ⟨hs, hb⟩
  | tail _ hb | device _ hb => exact .inr hb

theorem Inv.kept {s : State} (h : Inv original s) : s.files.Whole original ∨ s.files.backup = some original := by
  unfold Inv at h
  split at h
  · exact h
  · exact .inl h
  · exact .inr h
  · exact h.elim (fun h => h.2.kept) fun h => h.2.kept

theorem Inv.survives {s : State} (h : Inv original s) : Survives original s where
  rest := fun hidle => by
    rw [Inv, hidle] at h
    exact h.1
  backup := fun hne => h.kept.elim (fun hw => absurd hw.1 hne) id

theorem restores_go {f : Files} {op : Op} {ops : List Op} (h : Restores original f (op :: ops)) (o : Outcome) :
    Inv original ((State.mk f (.busy (op :: ops) false)).step (.go o)) := by
  cases h with
  | all hb => exact .inl ⟨rfl, .backup rfl (.inr hb)⟩
  | backup hs hb =>
    cases o with
    | done => exact .inl ⟨rfl, .marker hs (.inl rfl)⟩
    | failed | cut => exact .inl ⟨rfl, .marker hs hb⟩
  | marker hs hb =>
    cases o with
    | done | failed | cut => exact ⟨hs, hb⟩

theorem devices_left {f : Files} (hb : f.backup = some original) (n : ℕ) :
    Inv original ⟨f, .next (List.replicate n .device) true⟩ := by
  cases n with
  | zero => exact hb
  | succ n => exact .inr ⟨rfl, .device n hb⟩

theorem tail_left {f : Files} {ops : List Op} (hs : f.settings = original) (hb : f.backup = some original)
    (h : Tail ops) : Inv original ⟨f, .next ops true⟩ := by
  cases h with
  | marker h => exact .inr ⟨rfl, .tail hs hb (.marker h)⟩
  | settings bytes n => exact .inr ⟨rfl, .tail hs hb (.settings bytes n)⟩

theorem shows_go {f : Files} {op : Op} {ops : List Op} (h : Shows original f (op :: ops)) {o : Outcome}
    (huncut : Uncut ⟨f, .busy (op :: ops) true⟩ (.go o)) :
    Inv original ((State.mk f (.busy (op :: ops) true)).step (.go o)) := by
  cases h with
  | backup hs hb htail =>
    cases o with
    | done => exact tail_left hs rfl htail
    | failed => exact ⟨hs, hb⟩
    | cut => exact huncut.elim
  | tail hs hb htail =>
    cases htail with
    | marker htail =>
      cases o with
      | done | failed | cut => exact tail_left hs hb htail
    | settings bytes n =>
      cases o with
      | done => exact devices_left (f := { f with settings := bytes }) hb n
      | failed => exact ⟨hs, .inr hb⟩
      | cut => exact huncut.elim
  | device n hb =>
    cases o with
    | done => exact devices_left hb n
    | failed | cut => exact .inl ⟨rfl, .of (.inr hb)⟩

theorem Inv.step {s : State} (h : Inv original s) (e : Event) (huncut : Uncut s e) : Inv original (s.step e) := by
  obtain ⟨f, agent⟩ := s
  have hkept := h.kept
  cases e with
  | «open» =>
    cases agent with
    | none => exact .inl ⟨rfl, .of hkept⟩
    | idle | shown | busy => exact h
  | «show» settings_with reads enabled devices =>
    cases agent with
    | idle =>
      cases reads with
      | true => exact .inr ⟨rfl, .of h settings_with enabled devices⟩
      | false => exact h
    | none | shown | busy => exact h
  | go o =>
    cases agent with
    | busy ops shown =>
      cases ops with
      | nil => exact h
      | cons op ops =>
        rcases h with ⟨rfl, h⟩ | ⟨rfl, h⟩
        · exact restores_go h o
        · exact shows_go h huncut
    | none | idle | shown => exact h
  | drop =>
    cases agent with
    | shown => exact .inl ⟨rfl, .of hkept⟩
    | none | idle | busy => exact h
  | die within =>
    cases agent with
    | busy ops shown =>
      cases ops with
      | nil => exact hkept
      | cons op ops =>
        cases within with
        | none => exact hkept
        | some n =>
          rcases h with ⟨rfl, h⟩ | ⟨rfl, h⟩
          · cases h with
            | all hb => exact .inr hb
            | backup | marker => exact hkept
          · cases h with
            | backup => exact huncut.elim
            | tail hs hb htail =>
              cases htail with
              | marker => exact hkept
              | settings => exact .inr hb
            | device => exact hkept
    | none | idle | shown => cases within <;> exact hkept

/-- The user's settings survive every run in which no write of the backup is cut short, and no write of the
settings that fails with the agent alive. -/
theorem settings_survive (original : Bytes) (events : List Event)
    (h : Along State.step Uncut (.start original) events) :
    ∀ done, done <+: events → Survives original (run State.step (.start original) done) := by
  intro done hdone
  have hstart : Inv original (.start original) := .inl ⟨rfl, .inl rfl⟩
  exact (invariant_along (Inv original) hstart (fun s e hs he => hs.step e he) (h.of_prefix hdone)).survives

def diedWriting : List Event :=
  [.open, .go .done, .show (fun xml => xml ++ [9]) true true 1, .go .done, .die (some 1), .open, .go .done]

theorem settings_survive_death : Survives [1, 2] (run State.step (.start [1, 2]) diedWriting) :=
  settings_survive [1, 2] diedWriting ⟨trivial, trivial, trivial, trivial, trivial, trivial, trivial, trivial⟩ _
    (List.prefix_refl _)

/-- The backup is cut short, and the next agent puts it back over the settings. -/
theorem backup_cut : ¬ ∀ original events, Survives original (run State.step (.start original) events) := by
  intro h
  have hrest := (h [1, 2] [.open, .go .done, .show (fun xml => xml ++ [9]) true true 1, .go (.cut 1),
    .die none, .open, .go .done, .go .done, .go .done]).rest
  exact absurd (hrest rfl) (by decide)

end Rdpio.Client.DriverSettings
