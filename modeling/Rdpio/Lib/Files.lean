import Mathlib.Data.List.Nodup

/-!
# Programs over files

Files as a map from paths to bytes, operations that may fail, and programs of such operations that several
processes run in any order of steps.
-/

namespace Rdpio.Lib.Files

abbrev Why := List Char

abbrev Disk (π : Type) := π → Option (List UInt8)

inductive Outcome
  | done
  | failed (why : Why)
  | cut (why : Why) (n : ℕ)
deriving DecidableEq

def Outcome.error? : Outcome → Option Why
  | .done => none
  | .failed why => some why
  | .cut why _ => some why

inductive FileOp (π : Type)
  | makeFolder
  | write (path : π) (bytes : List UInt8)
  | copy (source dest : π)
  | rename (source dest : π)
  | remove (path : π)
  | read (path : π)

def notFound : Why := "The system cannot find the file specified. (os error 2)".toList

section
variable {π : Type} [DecidableEq π]

/-- Bytes are written over a file. -/
def Disk.store (d : Disk π) (o : Outcome) (path : π) (bytes : List UInt8) : Disk π × Except Why (List UInt8) :=
  match o with
  | .done => (Function.update d path (some bytes), .ok [])
  | .failed why => (d, .error why)
  | .cut why n => (Function.update d path (some (bytes.take n)), .error why)

def FileOp.run (o : Outcome) (d : Disk π) : FileOp π → Disk π × Except Why (List UInt8)
  | .makeFolder => (d, o.error?.elim (.ok []) .error)
  | .write path bytes => d.store o path bytes
  | .copy source dest =>
    match d source with
    | none => (d, .error notFound)
    | some bytes => d.store o dest bytes
  | .rename source dest =>
    match d source, o.error? with
    | none, _ => (d, .error notFound)
    | some _, some why => (d, .error why)
    | some bytes, none => (Function.update (Function.update d source none) dest (some bytes), .ok [])
  | .remove path =>
    match d path, o.error? with
    | none, _ => (d, .error notFound)
    | some _, some why => (d, .error why)
    | some _, none => (Function.update d path none, .ok [])
  | .read path =>
    match d path, o.error? with
    | none, _ => (d, .error notFound)
    | some _, some why => (d, .error why)
    | some bytes, none => (d, .ok bytes)

end

inductive Program (π ρ : Type)
  | done (r : ρ)
  | op (o : FileOp π) (next : Except Why (List UInt8) → Program π ρ)
  | list (next : Except Why (List π) → Program π ρ)

structure Choice (π : Type) where
  outcome : Outcome
  files : List π

def Choice.listing {π : Type} (c : Choice π) : Except Why (List π) := c.outcome.error?.elim (.ok c.files) .error

section
variable {π ρ κ : Type} [DecidableEq π]

def Program.step (c : Choice π) (d : Disk π) : Program π ρ → Disk π × Program π ρ
  | .done r => (d, .done r)
  | .op o next => ((o.run c.outcome d).1, next (o.run c.outcome d).2)
  | .list next => (d, next c.listing)

structure Allowed (π : Type) where
  op : Disk π → FileOp π → Outcome → Prop
  list : Disk π → List π → Prop

def Allowed.step (allowed : Allowed π) (d : Disk π) (c : Choice π) : Program π ρ → Prop
  | .done _ => True
  | .op o _ => allowed.op d o c.outcome
  | .list _ => c.outcome.error? = none → allowed.list d c.files

def Program.Safe (allowed : Allowed π) (Mid : Disk π → Prop) (Post : ρ → Disk π → Prop) : Program π ρ → Disk π → Prop
  | .done r, d => Mid d ∧ Post r d
  | .op o next, d => Mid d ∧ ∀ out, allowed.op d o out → (next (o.run out d).2).Safe allowed Mid Post (o.run out d).1
  | .list next, d => Mid d ∧ (∀ files, allowed.list d files → (next (.ok files)).Safe allowed Mid Post d) ∧
    ∀ why, (next (.error why)).Safe allowed Mid Post d

variable {allowed : Allowed π} {Mid : Disk π → Prop} {Post : ρ → Disk π → Prop}

theorem Program.Safe.mid {p : Program π ρ} {d : Disk π} (h : p.Safe allowed Mid Post d) : Mid d := by
  cases p with
  | done r => exact h.1
  | op o next => exact h.1
  | list next => exact h.1

theorem Program.Safe.step {p : Program π ρ} {d : Disk π} {c : Choice π} (h : p.Safe allowed Mid Post d)
    (hc : allowed.step d c p) : (p.step c d).2.Safe allowed Mid Post (p.step c d).1 := by
  cases p with
  | done r => exact h
  | op o next => exact h.2 c.outcome hc
  | list next =>
    unfold Program.step Choice.listing
    unfold Allowed.step at hc
    cases herror : c.outcome.error? with
    | none => exact h.2.1 c.files (hc herror)
    | some why => exact h.2.2 why

structure Record (κ π ρ : Type) where
  call : κ
  before : Disk π
  result : ρ
  after : Disk π

structure Running (κ π ρ : Type) where
  call : κ
  before : Disk π
  rest : Program π ρ

structure Machine (κ π ρ : Type) where
  disk : Disk π
  running : ℕ → Option (Running κ π ρ)
  started : List (κ × Disk π)
  returned : List (Record κ π ρ)

/-- A process begins a call, or takes its next step. -/
inductive Act (κ π : Type)
  | start (i : ℕ) (call : κ)
  | go (i : ℕ) (choice : Choice π)

def Machine.go (s : Machine κ π ρ) (i : ℕ) (choice : Choice π) : Machine κ π ρ :=
  match s.running i with
  | none => s
  | some ⟨call, before, .done r⟩ =>
    { s with
      running := Function.update s.running i none
      returned := ⟨call, before, r, s.disk⟩ :: s.returned }
  | some ⟨call, before, rest⟩ =>
    { s with
      disk := (rest.step choice s.disk).1
      running := Function.update s.running i (some ⟨call, before, (rest.step choice s.disk).2⟩) }

/-- A process that is busy begins nothing. -/
def Machine.next (body : κ → Program π ρ) (s : Machine κ π ρ) : Act κ π → Machine κ π ρ
  | .start i call =>
    match s.running i with
    | some _ => s
    | none =>
      { s with
        running := Function.update s.running i (some ⟨call, s.disk, body call⟩)
        started := (call, s.disk) :: s.started }
  | .go i choice => s.go i choice

def Apart (allowed : Allowed π) (Begins : κ → Disk π → Prop) (s : Machine κ π ρ) : Act κ π → Prop
  | .start _ call => (∀ j, s.running j = none) ∧ Begins call s.disk
  | .go i choice => ∀ r, s.running i = some r → allowed.step s.disk choice r.rest

structure Promise (κ π ρ θ : Type) where
  Held : Disk π → θ → Prop
  Lost : κ → Disk π → θ → Prop
  Promised : κ → ρ → θ → Prop

/-- All that was promised is held on these files, or a call has begun that may lose it. -/
def Promise.Kept {θ : Type} (promise : Promise κ π ρ θ) (s : Machine κ π ρ) (d : Disk π) : Prop :=
  ∀ r ∈ s.returned, ∀ x, promise.Promised r.call r.result x → promise.Held d x ∨ ∃ e ∈ s.started, promise.Lost e.1 e.2 x

/-- While a call is under way what was held before it is, but for what it may lose. -/
def Promise.During {θ : Type} (promise : Promise κ π ρ θ) (call : κ) (before : Disk π) (d : Disk π) : Prop :=
  ∀ x, promise.Held before x → promise.Held d x ∨ promise.Lost call before x

variable {θ : Type} {promise : Promise κ π ρ θ} {Begins : κ → Disk π → Prop} {Right : κ → Disk π → ρ → Disk π → Prop}

def Promise.Returns (promise : Promise κ π ρ θ) (Right : κ → Disk π → ρ → Disk π → Prop) (call : κ) (before : Disk π)
    (r : ρ) (d : Disk π) : Prop :=
  Right call before r d ∧ ∀ x, promise.Promised call r x → promise.Held d x

/-- What holds along a run whose calls do not overlap: at most one call is under way, and it is safe. -/
structure Machine.Inv (allowed : Allowed π) (promise : Promise κ π ρ θ) (Right : κ → Disk π → ρ → Disk π → Prop)
    (s : Machine κ π ρ) : Prop where
  right : ∀ r ∈ s.returned, Right r.call r.before r.result r.after
  one : (∀ j, s.running j = none) ∧ promise.Kept s s.disk ∨
    ∃ i r, s.running = Function.update (fun _ => none) i (some r) ∧ (r.call, r.before) ∈ s.started ∧
      promise.Kept s r.before ∧
      r.rest.Safe allowed (promise.During r.call r.before) (promise.Returns Right r.call r.before) s.disk

theorem Machine.Inv.kept {s : Machine κ π ρ} (h : s.Inv allowed promise Right) : promise.Kept s s.disk := by
  rcases h.one with ⟨-, hkept⟩ | ⟨i, r, -, hstarted, hkept, hsafe⟩
  · exact hkept
  · intro rec hrec x hx
    rcases hkept rec hrec x hx with hheld | hlost
    · rcases hsafe.mid x hheld with hheld | hlost
      · exact .inl hheld
      · exact .inr ⟨_, hstarted, hlost⟩
    · exact .inr hlost

theorem Machine.Inv.start {body : κ → Program π ρ} {s : Machine κ π ρ} (h : s.Inv allowed promise Right)
    {i : ℕ} {call : κ} (hidle : ∀ j, s.running j = none)
    (hbody : (body call).Safe allowed (promise.During call s.disk) (promise.Returns Right call s.disk) s.disk) :
    (s.next body (.start i call)).Inv allowed promise Right := by
  have hkept := h.kept
  unfold Machine.next
  dsimp only
  rw [hidle i]
  constructor
  case right => exact h.right
  case one =>
    refine .inr ⟨i, ⟨call, s.disk, body call⟩, ?_, List.mem_cons_self, fun rec hrec x hx => ?_, hbody⟩
    · exact congrArg (Function.update · i _) (funext hidle)
    · rcases hkept rec hrec x hx with hheld | ⟨e, he, hlost⟩
      · exact .inl hheld
      · exact .inr ⟨e, List.mem_cons_of_mem _ he, hlost⟩

theorem Machine.Inv.go {s : Machine κ π ρ} (h : s.Inv allowed promise Right) {i : ℕ} {choice : Choice π}
    (hstep : ∀ r, s.running i = some r → allowed.step s.disk choice r.rest) :
    (s.go i choice).Inv allowed promise Right := by
  rcases h.one with ⟨hidle, hkept⟩ | ⟨j, ⟨call, before, rest⟩, hrunning, hstarted, hkept, hsafe⟩
  · unfold Machine.go
    rw [hidle i]
    exact h
  by_cases hij : i = j
  · subst hij
    have hi : s.running i = some ⟨call, before, rest⟩ := by rw [hrunning, Function.update_self]
    have hrest := hsafe.step (hstep _ hi)
    have hnow := h.kept
    unfold Machine.go
    rw [hi]
    cases rest with
    | done r =>
      obtain ⟨-, hright, hpromised⟩ := hsafe
      constructor
      case right => exact List.forall_mem_cons.mpr ⟨hright, h.right⟩
      case one =>
        refine .inl ⟨fun k => ?_, List.forall_mem_cons.mpr ⟨fun x hx => .inl (hpromised x hx), hnow⟩⟩
        dsimp only
        rw [hrunning, Function.update_idem, Function.update_apply, ite_self]
    | op o next =>
      constructor
      case right => exact h.right
      case one =>
        refine .inr ⟨i, ⟨call, before, ((Program.op o next).step choice s.disk).2⟩, ?_, hstarted, hkept, hrest⟩
        dsimp only
        rw [hrunning, Function.update_idem]
    | list next =>
      constructor
      case right => exact h.right
      case one =>
        refine .inr ⟨i, ⟨call, before, ((Program.list next).step choice s.disk).2⟩, ?_, hstarted, hkept, hrest⟩
        dsimp only
        rw [hrunning, Function.update_idem]
  · -- A process with no call under way does nothing.
    unfold Machine.go
    rw [show s.running i = none by rw [hrunning, Function.update_of_ne hij]]
    exact h

theorem Machine.Inv.next {body : κ → Program π ρ} {s : Machine κ π ρ} {a : Act κ π}
    (h : s.Inv allowed promise Right) (ha : Apart allowed Begins s a)
    (hbody : ∀ call d, Begins call d →
      (body call).Safe allowed (promise.During call d) (promise.Returns Right call d) d) :
    (s.next body a).Inv allowed promise Right := by
  cases a with
  | start i call => exact h.start ha.1 (hbody call s.disk ha.2)
  | go i choice => exact h.go ha

end

end Rdpio.Lib.Files
