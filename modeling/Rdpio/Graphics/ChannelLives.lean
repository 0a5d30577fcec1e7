import Rdpio.Graphics.Channel
import Rdpio.Lib.Run

/-!
# The lives of a channel id

The server may close a channel, in the middle of a message too, and create another one with the same id.
-/

namespace Rdpio.Graphics

open Lib Channels.Drdynvc

namespace GraphicsChannel
variable {State Command : Type} (P : Pipeline State Command) (g : GraphicsChannel State)

/-- Whether a channel's data goes through the reassembler. -/
def Reassembles (channel_id : UInt32) : Prop := ∃ endpoint, g.route channel_id = some endpoint ∧ endpoint ≠ .input

instance (channel_id : UInt32) : Decidable (g.Reassembles channel_id) :=
  match h : g.route channel_id with
  | none => .isFalse fun ⟨_, he, _⟩ => by rw [h] at he; cases he
  | some endpoint =>
    if hi : endpoint = .input then .isFalse fun ⟨e, he, hne⟩ => by
      rw [h] at he
      cases he
      exact hne hi
    else .isTrue ⟨endpoint, h, hi⟩

theorem route_eq_none {channel_id : UInt32} : g.route channel_id = none ↔
      g.gfx_channel_id ≠ some channel_id ∧ g.audio_in_channel_id ≠ some channel_id ∧
      g.audio_out_channel_id ≠ some channel_id ∧ g.audio_out_lossy_channel_id ≠ some channel_id ∧
      g.camera_channel_id ≠ some channel_id ∧ channel_id ∉ g.camera_device_ids ∧
      g.rdpei_channel_id ≠ some channel_id ∧ channel_id ∉ g.redirector_channels := by
  unfold route
  split_ifs <;> grind

theorem reassembles_iff {channel_id : UInt32} : g.Reassembles channel_id ↔
      g.gfx_channel_id = some channel_id ∨ g.audio_in_channel_id = some channel_id ∨
      g.audio_out_channel_id = some channel_id ∨ g.audio_out_lossy_channel_id = some channel_id ∨
      g.camera_channel_id = some channel_id ∨ channel_id ∈ g.camera_device_ids ∨
      (g.rdpei_channel_id ≠ some channel_id ∧ channel_id ∈ g.redirector_channels) := by
  unfold Reassembles route
  split_ifs <;> grind

def InputAlone : Prop := ∀ id, g.rdpei_channel_id = some id → id ∉ g.redirector_channels

/-- What a create-request leaves as it was, when the id was nobody's. -/
structure Created (channel_id : UInt32) (g' : GraphicsChannel State) : Prop where
  reassembler : g'.reassembler = g.reassembler
  input : g.InputAlone → g'.InputAlone
  reassembles : ∀ id, id ≠ channel_id → g.InputAlone → g'.Reassembles id → g.Reassembles id
  route : ∀ id, id ≠ channel_id → g.route id = none → g'.route id = none

theorem created_create (redirector : Option Redirector) {channel_id : UInt32} (name : List UInt8)
    (h : g.route channel_id = none) :
    g.Created channel_id (g.create P redirector channel_id name).1 := by
  have hnone := (route_eq_none g).mp h
  have hkept : g.Created channel_id g := ⟨rfl, id, fun _ _ _ hr => hr, fun _ _ hr => hr⟩
  unfold create createOther
  split_ifs
  case neg =>
    cases redirector.filter (·.claims name) with
    | none => exact hkept
    | some r =>
      dsimp only
      split_ifs
      · constructor <;> simp only [InputAlone, reassembles_iff, route_eq_none] <;> grind
      · exact hkept
  all_goals constructor <;> simp only [InputAlone, reassembles_iff, route_eq_none] <;> grind

variable (Command) in
theorem created_close (redirector : Option Redirector) (channel_id : UInt32) :
    let r : GraphicsChannel State × GraphicsOutput Command := g.close redirector channel_id
    g.Created channel_id r.1 ∧ r.1.route channel_id = none := by
  have hcleared : ∀ (o : Option UInt32) (id : UInt32),
      (if o = some channel_id then none else o) = some id ↔ o = some id ∧ id ≠ channel_id := by
    intro o id
    split_ifs <;> grind
  unfold close
  dsimp only
  refine ⟨⟨rfl, ?_, ?_, ?_⟩, ?_⟩
  · simp only [InputAlone, hcleared, Finset.mem_erase]
    grind
  · simp only [reassembles_iff, hcleared, List.mem_filter, Finset.mem_erase]
    grind
  · simp only [route_eq_none, ne_eq, hcleared, List.mem_filter, Finset.mem_erase]
    grind
  · simp only [route_eq_none, ne_eq, hcleared, List.mem_filter, Finset.mem_erase]
    grind

/-- Everything in an output that is a message is `m`, if there is one, and it is the channel's. -/
structure Surfaced (pipeline : State) (channel_id : UInt32) (out : GraphicsOutput Command)
    (m : Option (List UInt8)) : Prop where
  audio_input : ∀ x ∈ out.audio_input, m = some x
  audio_output : ∀ x ∈ out.audio_output, m = some x
  camera : ∀ x ∈ out.camera, m = some x
  camera_device : ∀ x ∈ out.camera_device, x.1 = channel_id ∧ m = some x.2
  redirected : ∀ id x, .onData id x ∈ out.calls → id = channel_id ∧ m = some x
  commands : out.commands ≠ [] → ∃ x, m = some x ∧ out.commands = (P.process pipeline x).2.getD []

theorem surfaced_responses (pipeline : State) (channel_id : UInt32) (responses : List (List UInt8))
    (m : Option (List UInt8)) : Surfaced P pipeline channel_id { responses } m := by
  constructor <;> simp

theorem surfaced_create (redirector : Option Redirector) (channel_id : UInt32) (name : List UInt8)
    (m : Option (List UInt8)) :
    Surfaced P g.pipeline channel_id (g.create P redirector channel_id name).2 m := by
  unfold create createOther
  split_ifs
  case neg =>
    cases redirector.filter (·.claims name) with
    | none => exact surfaced_responses P _ _ _ _
    | some r =>
      dsimp only
      split_ifs <;> constructor <;> simp
  all_goals constructor <;> simp

theorem surfaced_close (redirector : Option Redirector) (channel_id : UInt32)
    (m : Option (List UInt8)) :
    Surfaced P g.pipeline channel_id (g.close redirector channel_id).2 m := by
  unfold close
  dsimp only
  split_ifs <;> constructor <;> simp

theorem surface_spec (redirector : Option Redirector) (channel_id : UInt32) (m : List UInt8)
    (endpoint : Endpoint) :
    (∃ pipeline, (g.surface P redirector channel_id m endpoint).1 = { g with pipeline }) ∧
      Surfaced P g.pipeline channel_id (g.surface P redirector channel_id m endpoint).2 (some m) := by
  cases endpoint with
  | graphics => exact ⟨⟨_, rfl⟩, by constructor <;> simp [surface]⟩
  | redirected =>
    refine ⟨⟨_, rfl⟩, ?_⟩
    unfold surface
    dsimp only
    split_ifs <;> constructor <;> simp
  | _ => exact ⟨⟨_, rfl⟩, by constructor <;> simp [surface]⟩

/-! ## What a fragment does -/

structure Fragmented (channel_id : UInt32) (f : Fragment) (g' : GraphicsChannel State)
    (out : GraphicsOutput Command) : Prop where
  tables : ∃ reassembler pipeline rdpei, g' = { g with reassembler, pipeline, rdpei }
  reassembled : g.Reassembles channel_id → g'.reassembler.pending = Function.update g.reassembler.pending channel_id
        (acceptOne (g.reassembler.pending channel_id) f).1 ∧
      Surfaced P g.pipeline channel_id out (acceptOne (g.reassembler.pending channel_id) f).2
  dropped : ¬ g.Reassembles channel_id → g'.reassembler = g.reassembler ∧ ∀ m, Surfaced P g.pipeline channel_id out m

theorem fragment_routed (redirector : Option Redirector) {channel_id : UInt32} (f : Fragment)
    {endpoint : Endpoint} (h : g.route channel_id = some endpoint) (hinput : endpoint ≠ .input) :
    let r := g.fragment P redirector channel_id (f.pdu channel_id)
    Fragmented P g channel_id f r.1 r.2 := by
  have hcases : g.fragment P redirector channel_id (f.pdu channel_id) =
      match acceptOne (g.reassembler.pending channel_id) f with
      | (p, none) => ({ g with reassembler := ⟨Function.update g.reassembler.pending channel_id p⟩ }, {})
      | (p, some m) =>
        ({ g with reassembler := ⟨Function.update g.reassembler.pending channel_id p⟩ } :
          GraphicsChannel State).surface P redirector channel_id m endpoint := by
    have haccept := Reassembler.accept_pdu g.reassembler channel_id f
    unfold keyed at haccept
    dsimp only at haccept
    unfold fragment
    rw [h]
    rcases ho : acceptOne (g.reassembler.pending channel_id) f with ⟨p, _ | m⟩
    · rw [ho] at haccept
      cases endpoint <;> first | exact absurd rfl hinput | (dsimp only; rw [haccept]; rfl)
    · rw [ho] at haccept
      cases endpoint <;> first | exact absurd rfl hinput | (dsimp only; rw [haccept]; rfl)
  intro r
  have hr : g.Reassembles channel_id := ⟨endpoint, h, hinput⟩
  have hcases : r = _ := hcases
  rcases ho : acceptOne (g.reassembler.pending channel_id) f with ⟨p, _ | m⟩
  · rw [ho] at hcases
    rw [hcases]
    refine ⟨⟨_, _, _, rfl⟩, fun _ => ?_, fun hn => absurd hr hn⟩
    rw [ho]
    exact ⟨rfl, surfaced_responses P _ _ [] _⟩
  · rw [ho] at hcases
    dsimp only at hcases
    obtain ⟨⟨pipeline, hp⟩, hs⟩ := surface_spec P
      ({ g with reassembler := ⟨Function.update g.reassembler.pending channel_id p⟩ } :
        GraphicsChannel State) redirector channel_id m endpoint
    rw [← hcases] at hp hs
    refine ⟨⟨_, pipeline, _, hp⟩, fun _ => ?_, fun hn => absurd hr hn⟩
    rw [ho, hp]
    exact ⟨rfl, hs⟩

theorem fragment_spec (redirector : Option Redirector) (channel_id : UInt32) (f : Fragment) :
    let r := g.fragment P redirector channel_id (f.pdu channel_id)
    Fragmented P g channel_id f r.1 r.2 := by
  cases h : g.route channel_id with
  | none =>
    intro r
    have hr : r = (g, {}) := by
      unfold r fragment
      rw [h]
    have hnot : ¬ g.Reassembles channel_id := fun ⟨_, he, _⟩ => by rw [h] at he; cases he
    rw [hr]
    exact ⟨⟨_, _, _, rfl⟩, fun hn => absurd hn hnot, fun _ => ⟨rfl, surfaced_responses P _ _ []⟩⟩
  | some endpoint =>
    by_cases hinput : endpoint = .input
    · subst hinput
      intro r
      have hr : r = g.touch channel_id (f.pdu channel_id) := by
        unfold r fragment
        rw [h]
      have hnot : ¬ g.Reassembles channel_id := fun ⟨e, he, hne⟩ => by
        rw [h] at he
        cases he
        exact hne rfl
      rw [hr]
      obtain ⟨_ | total, payload⟩ := f
      · exact ⟨⟨_, _, _, rfl⟩, fun hn => absurd hn hnot, fun _ => ⟨rfl, surfaced_responses P _ _ _⟩⟩
      · exact ⟨⟨_, _, _, rfl⟩, fun hn => absurd hn hnot, fun _ => ⟨rfl, surfaced_responses P _ _ []⟩⟩
    · exact fragment_routed P g redirector f h hinput

end GraphicsChannel

structure Life where
  sent : List (List UInt8) := []
  current : Option (List UInt8 × List Fragment) := none

/-- A fragment of `m` went out, and `rest` is to come. -/
def Life.went (l : Life) (m : List UInt8) (rest : List Fragment) : Life :=
  if rest = [] then ⟨l.sent ++ [m], none⟩ else { l with current := some (m, rest) }

/-- What the server means by a PDU. -/
inductive Sent
  | create (channel_id : UInt32) (name : List UInt8)
  | message (channel_id : UInt32) (m : List UInt8) (first : Fragment) (rest : List Fragment)
  | next (channel_id : UInt32)
  | close (channel_id : UInt32)
  | other

structure Action where
  pdu : List UInt8
  sent : Sent
  redirector : Option Redirector := none

structure World (State : Type) where
  channel : GraphicsChannel State
  life : UInt32 → Option Life := fun _ => none

namespace World
variable {State Command : Type} (P : Pipeline State Command) (w : World State)

def output (a : Action) : GraphicsOutput Command := (w.channel.process P a.redirector a.pdu).2

def lives : Sent → UInt32 → Option Life
  | .create id _ => Function.update w.life id (some {})
  | .message id m _ rest => Function.update w.life id ((w.life id).map (·.went m rest))
  | .next id => Function.update w.life id ((w.life id).map fun l =>
      match l.current with
      | some (m, rest) => l.went m rest.tail
      | none => l)
  | .close id => Function.update w.life id none
  | .other => w.life

def step (a : Action) : World State := ⟨(w.channel.process P a.redirector a.pdu).1, w.lives a.sent⟩

def completes : Sent → Option (List UInt8)
  | .message _ m _ rest => if rest = [] then some m else none
  | .next id => ((w.life id).bind (·.current)).bind fun (m, rest) =>
      if rest.tail = [] then some m else none
  | _ => none

def Allowed (a : Action) : Prop :=
  match a.sent with
  | .create id name => parse a.pdu = some (.createRequest id name) ∧ w.life id = none
  | .message id m first rest => parse a.pdu = some (first.pdu id) ∧ Cut m (first :: rest) ∧
      ∃ l, w.life id = some l ∧ l.current = none
  | .next id => ∃ l m f rest, w.life id = some l ∧ l.current = some (m, f :: rest) ∧ parse a.pdu = some (f.pdu id)
  | .close id => parse a.pdu = some (.close id)
  | .other => ∀ pdu, parse a.pdu = some pdu → (∃ version, pdu = .capabilitiesRequest version) ∨ ∃ cmd, pdu = .other cmd

/-- A message that comes as a single Data PDU finds no leftover of its channel. -/
def NoLeftover (a : Action) : Prop :=
  ∀ id m first rest, a.sent = .message id m first rest → first.total = none →
    w.channel.Reassembles id → w.channel.reassembler.pending id = none

/-! ## What holds of every run -/

structure Inv : Prop where
  input : w.channel.InputAlone
  closed : ∀ id, w.life id = none → w.channel.route id = none
  partway : ∀ id l m rest, w.life id = some l → l.current = some (m, rest) →
    ∃ parts, rest = parts.map (⟨none, ·⟩) ∧ parts ≠ [] ∧ (w.channel.Reassembles id →
      ∃ pre, Partway m pre parts ∧ w.channel.reassembler.pending id = some (m.length, pre))

variable {w}

theorem Inv.created (hi : w.Inv) {id : UInt32} {g' : GraphicsChannel State} {l : Option Life}
    (h : w.channel.Created id g') (hnone : l = none → g'.route id = none)
    (hcurrent : ∀ l', l = some l' → l'.current = none) :
    (World.mk g' (Function.update w.life id l)).Inv := by
  constructor
  · exact h.input hi.input
  · intro x hx
    dsimp only at hx ⊢
    by_cases hid : x = id
    · subst hid
      rw [Function.update_self] at hx
      exact hnone hx
    · rw [Function.update_of_ne hid] at hx
      exact h.route x hid (hi.closed x hx)
  · intro x l' m rest hl hc
    dsimp only at hl ⊢
    by_cases hid : x = id
    · subst hid
      rw [Function.update_self] at hl
      rw [hcurrent l' hl] at hc
      cases hc
    · rw [Function.update_of_ne hid] at hl
      obtain ⟨parts, hparts, hne, hpending⟩ := hi.partway x l' m rest hl hc
      refine ⟨parts, hparts, hne, fun hr => ?_⟩
      rw [h.reassembler]
      exact hpending (h.reassembles x hid hi.input hr)

theorem Inv.fragmented (hi : w.Inv) {id : UInt32} {f : Fragment} {g' : GraphicsChannel State}
    {out : GraphicsOutput Command} {l : Life} {m : List UInt8} {parts : List (List UInt8)}
    (h : w.channel.Fragmented P id f g' out) (hl : w.life id = some l)
    (hleft : parts ≠ [] → w.channel.Reassembles id →
      ∃ pre, Partway m pre parts ∧ (acceptOne (w.channel.reassembler.pending id) f).1 = some (m.length, pre)) :
    (World.mk g' (Function.update w.life id (some (l.went m (parts.map (⟨none, ·⟩)))))).Inv := by
  obtain ⟨reassembler, pipeline, rdpei, htables⟩ := h.tables
  have hroute : ∀ x, g'.route x = w.channel.route x := fun x => by rw [htables]; rfl
  have hreassembles : ∀ x, g'.Reassembles x ↔ w.channel.Reassembles x := fun x => by
    unfold GraphicsChannel.Reassembles
    rw [hroute]
  constructor
  · intro x hx
    rw [htables] at hx ⊢
    exact hi.input x hx
  · intro x hx
    dsimp only at hx ⊢
    by_cases hid : x = id
    · subst hid
      rw [Function.update_self] at hx
      cases hx
    · rw [Function.update_of_ne hid] at hx
      exact (hroute x).trans (hi.closed x hx)
  · intro x l' m' rest hl' hc
    dsimp only at hl' ⊢
    by_cases hid : x = id
    · subst hid
      rw [Function.update_self] at hl'
      cases hl'
      unfold Life.went at hc
      by_cases hparts : parts = []
      · rw [if_pos (by rw [hparts]; rfl)] at hc
        cases hc
      · rw [if_neg (by simpa using hparts)] at hc
        cases hc
        refine ⟨parts, rfl, hparts, fun hr => ?_⟩
        obtain ⟨pre, hpre, hpending⟩ := hleft hparts ((hreassembles x).mp hr)
        refine ⟨pre, hpre, ?_⟩
        rw [(h.reassembled ((hreassembles x).mp hr)).1, Function.update_self, hpending]
    · rw [Function.update_of_ne hid] at hl'
      obtain ⟨parts', hparts', hne, hpending⟩ := hi.partway x l' m' rest hl' hc
      refine ⟨parts', hparts', hne, fun hr => ?_⟩
      obtain ⟨pre, hpre, hp⟩ := hpending ((hreassembles x).mp hr)
      refine ⟨pre, hpre, ?_⟩
      -- The other channels' messages are where they were, whoever has this one.
      by_cases hid' : w.channel.Reassembles id
      · rw [(h.reassembled hid').1, Function.update_of_ne hid, hp]
      · rw [(h.dropped hid').1, hp]

theorem first_fragment {m : List UInt8} {first : Fragment} {rest : List Fragment}
    (h : Cut m (first :: rest)) (pending : Option (ℕ × List UInt8))
    (hleft : first.total = none → pending = none) :
    ∃ parts, rest = parts.map (⟨none, ·⟩) ∧ (parts = [] → (acceptOne pending first).2 = some m) ∧
      (parts ≠ [] → (acceptOne pending first).2 = none ∧
        ∃ pre, Partway m pre parts ∧ (acceptOne pending first).1 = some (m.length, pre)) := by
  cases h with
  | whole =>
    rw [hleft rfl]
    exact ⟨[], rfl, fun _ => rfl, fun h => absurd rfl h⟩
  | announced hm =>
    rw [acceptOne_announced hm]
    exact ⟨[], rfl, fun _ => rfl, fun h => absurd rfl h⟩
  | @parts pre parts hm hpart =>
    rw [acceptOne_first hm hpart.pre_lt]
    exact ⟨parts, rfl, fun h => absurd h hpart.rest_ne_nil, fun _ => ⟨rfl, pre, hpart, rfl⟩⟩

theorem next_fragment {m pre c : List UInt8} {parts : List (List UInt8)}
    (h : Partway m pre (c :: parts)) :
    (parts = [] → (acceptOne (some (m.length, pre)) ⟨none, c⟩).2 = some m) ∧
      (parts ≠ [] → (acceptOne (some (m.length, pre)) ⟨none, c⟩).2 = none ∧ ∃ pre', Partway m pre' parts ∧
          (acceptOne (some (m.length, pre)) ⟨none, c⟩).1 = some (m.length, pre')) := by
  cases parts with
  | nil =>
    rw [h.last]
    exact ⟨fun _ => rfl, fun h => absurd rfl h⟩
  | cons d parts =>
    obtain ⟨hstep, hnext⟩ := h.next
    rw [hstep]
    exact ⟨fun h => (List.cons_ne_nil d parts h).elim, fun _ => ⟨rfl, _, hnext, rfl⟩⟩

def channelId : Sent → UInt32
  | .create id _ => id
  | .message id _ _ _ => id
  | .next id => id
  | .close id => id
  | .other => 0

theorem process_fragment (g : GraphicsChannel State) (redirector : Option Redirector)
    {pdu : List UInt8} {f : Fragment} {id : UInt32} (h : parse pdu = some (f.pdu id)) :
    g.process P redirector pdu = g.fragment P redirector id (f.pdu id) := by
  unfold GraphicsChannel.process
  rw [h]
  obtain ⟨_ | total, payload⟩ := f
  · rfl
  · rfl

theorem Inv.step (hi : w.Inv) {a : Action} (ha : w.Allowed a) (hleft : w.NoLeftover a) :
    (w.step P a).Inv ∧ GraphicsChannel.Surfaced P w.channel.pipeline (channelId a.sent)
      (w.output P a) (w.completes a.sent) := by
  obtain ⟨pdu, sent, redirector⟩ := a
  cases sent with
  | create id name =>
    obtain ⟨hparse, hnone⟩ := ha
    have hprocess : w.channel.process P redirector pdu = w.channel.create P redirector id name := by
      unfold GraphicsChannel.process
      dsimp only at hparse
      rw [hparse]
    unfold World.step output
    rw [hprocess]
    refine ⟨hi.created (w.channel.created_create P redirector name (hi.closed id hnone))
      (fun h => by cases h) (fun l' hl => by cases hl; rfl), ?_⟩
    exact w.channel.surfaced_create P redirector id name none
  | message id m first rest =>
    obtain ⟨hparse, hcut, l, hl, -⟩ := ha
    have hspec := w.channel.fragment_spec P redirector id first
    rw [← process_fragment P w.channel redirector hparse] at hspec
    have hlives : w.lives (.message id m first rest) = Function.update w.life id (some (l.went m rest)) := by
      change Function.update w.life id ((w.life id).map _) = _
      rw [hl]
      rfl
    have hcompletes : w.completes (.message id m first rest) = if rest = [] then some m else none := rfl
    unfold World.step output
    dsimp only
    rw [hlives, hcompletes]
    change _ ∧ GraphicsChannel.Surfaced P w.channel.pipeline id _ _
    -- Fragments for a channel that nothing reads are dropped before they are put together.
    by_cases hr : w.channel.Reassembles id
    · obtain ⟨parts, rfl, hlast, hmore⟩ := first_fragment hcut
        (w.channel.reassembler.pending id) fun ht => hleft id m first rest rfl ht hr
      refine ⟨hi.fragmented P hspec hl fun hp _ => (hmore hp).2, ?_⟩
      have hs := (hspec.reassembled hr).2
      by_cases hp : parts = []
      · rw [hlast hp] at hs
        rwa [if_pos (by rw [hp]; rfl)]
      · rw [(hmore hp).1] at hs
        rwa [if_neg (by simpa using hp)]
    · obtain ⟨parts, rfl, -⟩ := first_fragment hcut none fun _ => rfl
      exact ⟨hi.fragmented P hspec hl fun _ h => absurd h hr, (hspec.dropped hr).2 _⟩
  | next id =>
    obtain ⟨l, m, f, rest, hl, hcurrent, hparse⟩ := ha
    -- The fragment is the next of a message that is partway.
    obtain ⟨parts, hparts, hne, hpending⟩ := hi.partway id l m _ hl hcurrent
    obtain ⟨c, parts, rfl⟩ := List.exists_cons_of_ne_nil hne
    rw [List.map_cons] at hparts
    cases hparts
    have hspec := w.channel.fragment_spec P redirector id ⟨none, c⟩
    rw [← process_fragment P w.channel redirector hparse] at hspec
    have hlives : w.lives (.next id) = Function.update w.life id (some (l.went m (parts.map (⟨none, ·⟩)))) := by
      change Function.update w.life id ((w.life id).map _) = _
      rw [hl, Option.map_some, hcurrent]
      rfl
    have hcompletes : w.completes (.next id) = if parts = [] then some m else none := by
      change ((w.life id).bind _).bind _ = _
      rw [hl, Option.bind_some, hcurrent, Option.bind_some]
      simp
    unfold World.step output
    dsimp only
    rw [hlives, hcompletes]
    change _ ∧ GraphicsChannel.Surfaced P w.channel.pipeline id _ _
    by_cases hr : w.channel.Reassembles id
    · obtain ⟨pre, hpre, hp⟩ := hpending hr
      obtain ⟨hlast, hmore⟩ := next_fragment hpre
      rw [← hp] at hlast hmore
      refine ⟨hi.fragmented P hspec hl fun hp _ => (hmore hp).2, ?_⟩
      have hs := (hspec.reassembled hr).2
      by_cases hp : parts = []
      · rw [hlast hp] at hs
        rwa [if_pos hp]
      · rw [(hmore hp).1] at hs
        rwa [if_neg hp]
    · exact ⟨hi.fragmented P hspec hl fun _ h => absurd h hr, (hspec.dropped hr).2 _⟩
  | close id =>
    have hprocess : w.channel.process P redirector pdu = w.channel.close redirector id := by
      unfold GraphicsChannel.process
      rw [show parse pdu = _ from ha]
    unfold World.step output
    rw [hprocess]
    obtain ⟨hcreated, hroute⟩ : _ ∧ _ := w.channel.created_close Command redirector id
    exact ⟨hi.created hcreated (fun _ => hroute) (fun l' hl => by cases hl),
      w.channel.surfaced_close P redirector id none⟩
  | other =>
    have hprocess : ∃ responses, w.channel.process P redirector pdu = (w.channel, { responses }) := by
      unfold GraphicsChannel.process
      cases hparse : parse pdu with
      | none => exact ⟨[], rfl⟩
      | some p =>
        rcases ha p hparse with ⟨version, rfl⟩ | ⟨cmd, rfl⟩
        · exact ⟨_, rfl⟩
        · exact ⟨[], rfl⟩
    obtain ⟨responses, hprocess⟩ := hprocess
    unfold World.step output
    dsimp only
    rw [hprocess]
    exact ⟨hi, GraphicsChannel.surfaced_responses P _ _ _ _⟩

theorem Allowed.mem_sent {a : Action} (ha : w.Allowed a) {m : List UInt8}
    (hm : w.completes a.sent = some m) :
    ∃ l, (w.step P a).life (channelId a.sent) = some l ∧ m ∈ l.sent := by
  obtain ⟨pdu, sent, redirector⟩ := a
  have hwent : ∀ (l : Life) (rest : List Fragment), rest = [] → m ∈ (l.went m rest).sent := by
    rintro l rest rfl
    exact List.mem_append_right _ (List.mem_singleton_self m)
  cases sent with
  | message id m' first rest =>
    obtain ⟨-, -, l, hl, -⟩ := ha
    change (if rest = [] then some m' else none) = some m at hm
    split_ifs at hm with hrest
    cases hm
    refine ⟨l.went m rest, ?_, hwent l rest hrest⟩
    change Function.update w.life id ((w.life id).map (·.went m rest)) id = _
    rw [Function.update_self, hl]
    rfl
  | next id =>
    obtain ⟨l, m', f, rest, hl, hcurrent, -⟩ := ha
    change ((w.life id).bind _).bind _ = _ at hm
    rw [hl, Option.bind_some, hcurrent, Option.bind_some] at hm
    dsimp only at hm
    split_ifs at hm with hrest
    cases hm
    refine ⟨l.went m rest, ?_, hwent l rest hrest⟩
    change Function.update w.life id ((w.life id).map _) id = _
    rw [Function.update_self, hl, Option.map_some, hcurrent]
    rfl
  | _ => cases hm

def start (pipeline : State) : World State := { channel := { pipeline } }

theorem inv_start (pipeline : State) : (start pipeline).Inv := by
  constructor
  · intro id h
    cases h
  · intro id _
    rfl
  · intro id l m rest h
    cases h

end World

/-- Every life of a channel is on its own: in a run in which no message that comes as a single Data PDU
finds a leftover, what a step surfaces is the message that it completes, and that one was sent in the
life that its channel has. -/
theorem lives_separate {State Command : Type} (P : Pipeline State Command) (pipeline : State)
    (as : List Action)
    (h : Along (World.step P) (fun w a => w.Allowed a ∧ w.NoLeftover a) (World.start pipeline) as)
    (before after : List Action) (a : Action) (has : as = before ++ a :: after) :
    let w := run (World.step P) (World.start pipeline) before
    GraphicsChannel.Surfaced P w.channel.pipeline (World.channelId a.sent) (w.output P a)
        (w.completes a.sent) ∧
      ∀ m, w.completes a.sent = some m → ∃ l, (w.step P a).life (World.channelId a.sent) = some l ∧ m ∈ l.sent := by
  intro w
  rw [has, along_append] at h
  obtain ⟨hbefore, ⟨ha, hleft⟩, -⟩ := h
  have hi : w.Inv := invariant_along World.Inv (World.inv_start pipeline)
    (fun w a hi hok => (hi.step P hok.1 hok.2).1) hbefore
  exact ⟨(hi.step P ha hleft).2, fun m hm => ha.mem_sent P hm⟩

def noPipeline : Pipeline Unit Unit := ⟨fun _ => [], fun _ _ => ((), none)⟩

def createMicrophone : Action :=
  ⟨header cmdCreate 0 0 :: 3 :: (Names.audioInput ++ [0]), .create 3 Names.audioInput, none⟩

def closeMidway : List Action :=
  [createMicrophone,
    ⟨dataFirst 3 4 [1, 2], .message 3 [1, 2, 3, 4] ⟨some 4, [1, 2]⟩ [⟨none, [3, 4]⟩], none⟩,
    ⟨header cmdClose 0 0 :: [3], .close 3, none⟩, createMicrophone]

theorem closeMidway_allowed : Along (World.step noPipeline) (fun w a => w.Allowed a ∧ w.NoLeftover a) (World.start ())
      closeMidway := by
  have hpart : Partway [1, 2, 3, 4] [1, 2] [[3, 4]] := ⟨rfl, by decide⟩
  have hcut : Cut [1, 2, 3, 4] [⟨some 4, [1, 2]⟩, ⟨none, [3, 4]⟩] := .parts (by decide) hpart
  refine ⟨⟨⟨by decide, rfl⟩, ?_⟩, ⟨⟨by decide, hcut, {}, rfl, rfl⟩, ?_⟩,
    ⟨show parse _ = _ by decide, ?_⟩, ⟨⟨by decide, rfl⟩, ?_⟩, trivial⟩
  · rintro id m first rest ⟨⟩
  · rintro id m first rest ⟨⟩ ⟨⟩
  · rintro id m first rest ⟨⟩
  · rintro id m first rest ⟨⟩

/-- A life that begins with an announced message, after one that ended midway. -/
theorem lives_separate_announced :
    let w := run (World.step noPipeline) (World.start ())
      (closeMidway ++ [⟨dataFirst 3 3 [5], .message 3 [5, 6, 7] ⟨some 3, [5]⟩ [⟨none, [6, 7]⟩], none⟩])
    GraphicsChannel.Surfaced noPipeline () 3 (w.output noPipeline ⟨data 3 [6, 7], .next 3, none⟩)
      (some [5, 6, 7]) := by
  have hpart : Partway [5, 6, 7] [5] [[6, 7]] := ⟨rfl, by decide⟩
  have hcut : Cut [5, 6, 7] [⟨some 3, [5]⟩, ⟨none, [6, 7]⟩] := .parts (by decide) hpart
  refine (lives_separate noPipeline () (closeMidway ++
      [⟨dataFirst 3 3 [5], .message 3 [5, 6, 7] ⟨some 3, [5]⟩ [⟨none, [6, 7]⟩], none⟩,
        ⟨data 3 [6, 7], .next 3, none⟩]) (along_append.mpr ⟨closeMidway_allowed, ?_⟩)
      (closeMidway ++ _) [] ⟨data 3 [6, 7], .next 3, none⟩ (List.append_cons ..)).1
  refine ⟨⟨⟨by decide, hcut, {}, rfl, rfl⟩, ?_⟩, ⟨⟨_, [5, 6, 7], ⟨none, [6, 7]⟩, [], rfl, rfl, by decide⟩, ?_⟩, trivial⟩
  · rintro id m first rest ⟨⟩ ⟨⟩
  · rintro id m first rest ⟨⟩

/-- The close left the two bytes with the reassembler, and the next life's first message, a single Data
PDU, is handed to the microphone behind them. -/
theorem leftover_delivered :
    let a : Action := ⟨data 3 [9, 9], .message 3 [9, 9] ⟨none, [9, 9]⟩ [], none⟩
    let w := run (World.step noPipeline) (World.start ()) closeMidway
    Along (World.step noPipeline) World.Allowed (World.start ()) (closeMidway ++ [a]) ∧
      (w.output noPipeline a).audio_input = [[1, 2, 9, 9]] ∧
      ¬ ∃ l, (w.step noPipeline a).life 3 = some l ∧ [1, 2, 9, 9] ∈ l.sent := by
  intro a w
  refine ⟨along_append.mpr ⟨(along_and.mp closeMidway_allowed).1,
    ⟨by decide, .whole, {}, rfl, rfl⟩, trivial⟩, by decide, ?_⟩
  rintro ⟨l, hl, hmem⟩
  have hlife : (w.step noPipeline a).life 3 = some ⟨[[9, 9]], none⟩ := rfl
  rw [hlife] at hl
  cases hl
  exact absurd hmem (by decide)

end Rdpio.Graphics
