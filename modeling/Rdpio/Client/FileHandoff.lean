import Rdpio.Channels.Cliprdr
import Rdpio.Lib.Run

/-!
# The hand-off of clipboard files

The flags that a paste on the UI thread and the session's worker share (`crates/rdp-client/src/session.rs`),
the staging of `clipboard.rs`, and the channel of `cliprdr.rs`.
-/

namespace Rdpio.Client.FileHandoff

open Channels.Cliprdr Lib

structure ClipFiles (Path : Type) where
  offered : ℕ
  wanted : Bool
  ready : Option (List Path)
deriving DecidableEq

structure Handoff (Path : Type) where
  files : ClipFiles Path
  chan : ClipboardChannel
  staged_roots : List Path
  /-- The paste that waits, with the number of lists at its beginning. -/
  waiting : Option ℕ
  lists : ℕ
  advertised : ℕ
  /-- The list that the channel's files are of. -/
  source : ℕ
  /-- The list whose transfer was completed last, and what was staged. -/
  completed : Option (ℕ × List Path)
  /-- The list whose transfer failed last. -/
  failed : Option ℕ

inductive Event (Path : Type) where
  | message (p : Provider) (m : Message) (root : List Char → Option Path)
  /-- A pass of `pump_clipboard_files`. -/
  | pass (root : List Char → Option Path)
  | paste
  /-- The paste that waits wakes up, perhaps because its time is over. -/
  | wake (timed_out : Bool)
  /-- The local clipboard is taken over. -/
  | discarded

namespace Handoff

variable {Path : Type}

def new : Handoff Path := ⟨⟨0, false, none⟩, .new, [], none, 0, 0, 0, none, none⟩

variable (σ : Handoff Path)

def filesReady (paths : List Path) : Handoff Path := { σ with files := { σ.files with ready := some paths } }

/-- What the provider does when it is told something. -/
def tell (root : List Char → Option Path) (σ : Handoff Path) : Call → Handoff Path
  | .offerRemoteFiles files =>
    let σ := { σ with staged_roots := [], source := σ.lists }
    if files.isEmpty then σ
    else { σ with advertised := σ.lists, files := ⟨files.length, false, none⟩ }
  | .beginRemoteFile name _ _ => { σ with staged_roots := σ.staged_roots ++ (root name).toList }
  | .finishRemoteFiles =>
    { σ with staged_roots := [], completed := some (σ.source, σ.staged_roots) }.filesReady σ.staged_roots
  | .abortRemoteFiles => { σ with staged_roots := [], failed := some σ.source }.filesReady []
  | _ => σ

def listsFiles (p : Provider) (m : Message) : Bool :=
  m.msg_type == cbFormatList && p.wants_remote_files && (ClipboardChannel.fileFormat m.data).isSome

def message (p : Provider) (m : Message) (root : List Char → Option Path) : Handoff Path :=
  let (chan, _, calls) := σ.chan.handle p m
  calls.foldl (tell root) { σ with chan, lists := if listsFiles p m then σ.lists + 1 else σ.lists }

def pass (root : List Char → Option Path) : Handoff Path :=
  if σ.files.wanted then
    let (chan, requests, calls) := σ.chan.beginFileFetch
    let σ := calls.foldl (tell root) { σ with chan, files := { σ.files with wanted := false } }
    if requests.isEmpty then σ.filesReady [] else σ
  else σ

def atOnce : Option (List Path) := if σ.files.offered = 0 then some [] else σ.files.ready

def onWake (timed_out : Bool) : Option (List Path) := σ.files.ready.or (if timed_out then some [] else none)

def step (σ : Handoff Path) : Event Path → Handoff Path
  | .message p m root => σ.message p m root
  | .pass root => σ.pass root
  | .paste =>
    if σ.waiting.isSome ∨ σ.atOnce.isSome then σ
    else { σ with files := { σ.files with wanted := true }, waiting := some σ.lists }
  | .wake timed_out =>
    if σ.waiting.isSome ∧ (σ.onWake timed_out).isSome then { σ with waiting := none } else σ
  | .discarded => if σ.waiting.isSome then σ else { σ with files := ⟨0, false, none⟩ }

/-- The staged paths of the advertised offer's transfer, or nothing because that failed. -/
def Owed (paths : List Path) : Prop :=
  σ.completed = some (σ.advertised, paths) ∨ (paths = [] ∧ σ.failed = some σ.advertised)

def Fair (σ : Handoff Path) : Event Path → Prop
  | .paste => σ.waiting = none → ∀ paths, σ.atOnce = some paths → σ.Owed paths ∨ (paths = [] ∧ σ.files.offered = 0)
  | .wake timed_out => ∀ since, σ.waiting = some since → ∀ paths, σ.onWake timed_out = some paths →
    σ.Owed paths ∨ (paths = [] ∧ (timed_out = true ∨ since < σ.lists))
  | _ => True

/-- The transfer of the advertised offer has ended. -/
def Over : Prop := (∃ paths, σ.completed = some (σ.advertised, paths)) ∨ σ.failed = some σ.advertised

def Orderly (σ : Handoff Path) : Event Path → Prop
  | .pass _ => σ.files.wanted = true →
    (σ.chan.fetching = false ∧ ∃ f ∈ σ.chan.remote_files, f.is_dir = false ∧ 0 < f.size) ∨
      (σ.advertised < σ.lists ∧ σ.files.ready = none)
  | .paste => σ.advertised = σ.lists ∨ σ.Over ∨ σ.files.offered = 0
  | _ => True

end Handoff

/-! ## The channel -/

def Quiet : Call → Prop
  | .beginRemoteFile _ _ _ | .endRemoteFile | .writeRemoteChunk _ | .setContents _ _ => True
  | _ => False

/-- What a pump comes to: a request, or the end of the copy. -/
structure Asking (c : ClipboardChannel) (o : ClipboardChannel.Outcome) : Prop where
  out : o.2.1 ≠ []
  remote_files : o.1.remote_files = c.remote_files
  fetching : o.1.fetching = c.fetching
  expecting : o.1.expecting_descriptors = c.expecting_descriptors
  calls : ∀ call ∈ o.2.2, Quiet call

structure Finished (c : ClipboardChannel) (o : ClipboardChannel.Outcome) : Prop where
  out : o.2.1 = []
  remote_files : o.1.remote_files = []
  fetching : o.1.fetching = false
  expecting : o.1.expecting_descriptors = c.expecting_descriptors
  calls : ∃ quiet, o.2.2 = quiet ++ [.finishRemoteFiles] ∧ ∀ call ∈ quiet, Quiet call

theorem pump_cases (c : ClipboardChannel) : Asking c c.pump ∨ Finished c c.pump := by
  fun_induction ClipboardChannel.pump c with
  | case1 c h entry hdir c' out calls heq ih =>
    rw [heq] at ih
    have hquiet : ∀ call ∈ [Call.beginRemoteFile entry.name 0 true, .endRemoteFile], Quiet call := by simp [Quiet]
    rcases ih with ⟨h1, h2, h3, h4, h5⟩ | ⟨h1, h2, h3, h4, quiet, rfl, h5⟩
    · exact .inl ⟨h1, h2, h3, h4, fun call hmem => (List.mem_append.mp hmem).elim (hquiet call) (h5 call)⟩
    · exact .inr ⟨h1, h2, h3, h4, _ :: _ :: quiet, rfl, fun call hmem =>
        (List.mem_append (s := [_, _]).mp hmem).elim (hquiet call) (h5 call)⟩
  | case2 c h entry hdir begun hdone c' out calls heq ih =>
    rw [heq] at ih
    have hquiet : ∀ call ∈ begun ++ [Call.endRemoteFile], Quiet call := by
      simp only [begun]
      split <;> simp [Quiet]
    have hbegun : begun ++ Call.endRemoteFile :: calls = begun ++ [Call.endRemoteFile] ++ calls := by
      rw [List.append_assoc, List.singleton_append]
    rw [hbegun]
    rcases ih with ⟨h1, h2, h3, h4, h5⟩ | ⟨h1, h2, h3, h4, quiet, rfl, h5⟩
    · exact .inl ⟨h1, h2, h3, h4, fun call hmem => (List.mem_append.mp hmem).elim (hquiet call) (h5 call)⟩
    · exact .inr ⟨h1, h2, h3, h4, _ ++ quiet, (List.append_assoc ..).symm, fun call hmem =>
        (List.mem_append.mp hmem).elim (hquiet call) (h5 call)⟩
  | case3 c h entry hdir begun hdone len c' =>
    refine .inl ⟨List.cons_ne_nil _ _, rfl, rfl, rfl, ?_⟩
    show ∀ call ∈ begun, Quiet call
    simp only [begun]
    split <;> simp [Quiet]
  | case4 c h => exact .inr ⟨rfl, rfl, rfl, rfl, [], rfl, fun _ hmem => absurd hmem List.not_mem_nil⟩

theorem pump_asks (c : ClipboardChannel) (hreceived : c.fetch_received = 0)
    (hfile : ∃ f ∈ c.remote_files.drop c.fetch_index, f.is_dir = false ∧ 0 < f.size) : c.pump.2.1 ≠ [] := by
  fun_induction ClipboardChannel.pump c with
  | case1 c h entry hdir c' out calls heq ih =>
    rw [heq] at ih
    refine ih hreceived ?_
    obtain ⟨f, hmem, hf⟩ := hfile
    rw [List.drop_eq_getElem_cons h] at hmem
    rcases List.mem_cons.mp hmem with rfl | hmem
    · exact absurd (hf.1.symm.trans hdir) Bool.false_ne_true
    · exact ⟨f, hmem, hf⟩
  | case2 c h entry hdir begun hdone c' out calls heq ih =>
    rw [heq] at ih
    refine ih rfl ?_
    obtain ⟨f, hmem, hf⟩ := hfile
    rw [List.drop_eq_getElem_cons h] at hmem
    rcases List.mem_cons.mp hmem with rfl | hmem
    · rw [hreceived] at hdone
      exact absurd hdone (UInt64.not_le.mpr hf.2)
    · exact ⟨f, hmem, hf⟩
  | case3 c h entry hdir begun hdone len c' => exact List.cons_ne_nil _ _
  | case4 c h =>
    obtain ⟨f, hmem, -⟩ := hfile
    rw [List.drop_eq_nil_of_le (Nat.le_of_not_lt h)] at hmem
    exact absurd hmem List.not_mem_nil

inductive Handled (c : ClipboardChannel) (p : Provider) (m : Message) (o : ClipboardChannel.Outcome) : Prop
  /-- They stay. -/
  | aside (hlist : Handoff.listsFiles p m = false) (hfiles : o.1.remote_files = c.remote_files)
      (hfetching : o.1.fetching = c.fetching)
      (hexpecting : o.1.expecting_descriptors = true → c.expecting_descriptors = true)
      (hcalls : ∀ call ∈ o.2.2, Quiet call)
  | list (hlist : Handoff.listsFiles p m = true) (hfiles : o.1.remote_files = []) (hfetching : o.1.fetching = false)
      (hcalls : o.2.2 = if c.fetching then [.abortRemoteFiles] else [])
  | descriptors (hlist : Handoff.listsFiles p m = false) (hwas : c.expecting_descriptors = true)
      (hfetching : o.1.fetching = c.fetching) (hexpecting : o.1.expecting_descriptors = false)
      (hcalls : o.2.2 = [.offerRemoteFiles o.1.remote_files])
  /-- The transfer goes on. -/
  | more (hlist : Handoff.listsFiles p m = false) (hwas : c.fetching = true) (hfetching : o.1.fetching = true)
      (hexpecting : o.1.expecting_descriptors = c.expecting_descriptors) (hcalls : ∀ call ∈ o.2.2, Quiet call)
  /-- It is complete, or it failed. -/
  | finished (hlist : Handoff.listsFiles p m = false) (hwas : c.fetching = true) (hfiles : o.1.remote_files = [])
      (hfetching : o.1.fetching = false) (hexpecting : o.1.expecting_descriptors = c.expecting_descriptors)
      (hcalls : ∃ quiet last, o.2.2 = quiet ++ [last] ∧ (∀ call ∈ quiet, Quiet call) ∧
        (last = .finishRemoteFiles ∨ last = .abortRemoteFiles))

theorem handled_list (c : ClipboardChannel) (p : Provider) {m : Message} (hm : m.msg_type = cbFormatList) :
    Handled c p m (c.onFormatList p m.data) := by
  have hlists : Handoff.listsFiles p m = (p.wants_remote_files && (ClipboardChannel.fileFormat m.data).isSome) := by
    rw [Handoff.listsFiles, hm, beq_self_eq_true, Bool.true_and]
  unfold ClipboardChannel.onFormatList
  dsimp only
  split
  case h_1 id hid =>
    by_cases hwants : p.wants_remote_files = true
    · rw [if_pos hwants] at hid
      exact .list (by rw [hlists, hwants, hid]; rfl) rfl rfl rfl
    · rw [if_neg hwants] at hid
      cases hid
  case h_2 hid =>
    refine .aside ?_ rfl rfl id fun _ hmem => absurd hmem List.not_mem_nil
    rw [hlists]
    by_cases hwants : p.wants_remote_files = true
    · rw [if_pos hwants] at hid
      rw [hid]
      exact Bool.and_false _
    · rw [Bool.not_eq_true] at hwants
      rw [hwants]
      rfl

theorem handled_response {c : ClipboardChannel} {p : Provider} {m : Message} (hm : Handoff.listsFiles p m = false)
    (ok : Bool) (data : List UInt8) : Handled c p m (c.onFormatDataResponse ok data) := by
  unfold ClipboardChannel.onFormatDataResponse
  split
  · exact .aside hm rfl rfl (fun h => absurd h Bool.false_ne_true) fun _ hmem => absurd hmem List.not_mem_nil
  · split
    · exact .descriptors hm ‹_› rfl rfl rfl
    · have hset : ∀ text image, ∀ call ∈ [Call.setContents text image], Quiet call := by simp [Quiet]
      have hnone : ∀ call ∈ ([] : List Call), Quiet call := fun _ hmem => absurd hmem List.not_mem_nil
      rcases c.pending_formats.head? with _ | id
      · dsimp only
        split
        · exact .aside hm rfl rfl (fun h => h) (hset _ _)
        · exact .aside hm rfl rfl (fun h => h) hnone
      · dsimp only
        by_cases hid : id = cfDib
        · rw [if_pos hid]
          dsimp only
          split
          · exact .aside hm rfl rfl (fun h => h) (hset _ _)
          · exact .aside hm rfl rfl (fun h => h) hnone
        · rw [if_neg hid]
          dsimp only
          split
          · exact .aside hm rfl rfl (fun h => h) (hset _ _)
          · exact .aside hm rfl rfl (fun h => h) hnone

theorem handled_contents {c : ClipboardChannel} {p : Provider} {m : Message} (hm : Handoff.listsFiles p m = false)
    (ok : Bool) (data : List UInt8) : Handled c p m (c.onFileContentsResponse ok data) := by
  unfold ClipboardChannel.onFileContentsResponse
  split
  · exact .aside hm rfl rfl id fun _ hmem => absurd hmem List.not_mem_nil
  · have hwas : c.fetching = true := by simpa using ‹¬(!c.fetching) = true›
    split
    · dsimp only
      rcases pump_cases { c with
        fetch_received := c.fetch_received + UInt64.ofNat (data.drop 4).length
        remote_files := if (data.drop 4).isEmpty then
            c.remote_files.modify c.fetch_index fun e =>
              { e with size := c.fetch_received + UInt64.ofNat (data.drop 4).length }
          else c.remote_files } with h | h
      · exact .more hm hwas (h.fetching.trans hwas) h.expecting fun call hmem =>
          (List.mem_cons.mp hmem).elim (fun heq => heq ▸ trivial) (h.calls call)
      · obtain ⟨quiet, hcalls, hquiet⟩ := h.calls
        refine .finished hm hwas h.remote_files h.fetching h.expecting
          ⟨.writeRemoteChunk (data.drop 4) :: quiet, .finishRemoteFiles, congrArg (_ :: ·) hcalls, ?_, .inl rfl⟩
        exact fun call hmem => (List.mem_cons.mp hmem).elim (fun heq => heq ▸ trivial) (hquiet call)
    · exact .finished hm hwas rfl rfl rfl ⟨[], _, rfl, fun _ hmem => absurd hmem List.not_mem_nil, .inr rfl⟩

theorem handled (c : ClipboardChannel) (p : Provider) (m : Message) : Handled c p m (c.handle p m) := by
  have hnone : ∀ call ∈ ([] : List Call), Quiet call := fun _ hmem => absurd hmem List.not_mem_nil
  unfold ClipboardChannel.handle
  dsimp only
  by_cases hlist : m.msg_type = cbFormatList
  · rw [if_neg (by rw [hlist]; decide), if_pos hlist]
    exact handled_list c p hlist
  · have hm : Handoff.listsFiles p m = false := by
      rw [Handoff.listsFiles, beq_eq_false_iff_ne.mpr hlist]
      rfl
    rw [if_neg hlist]
    split
    · exact .aside hm rfl rfl id hnone
    split
    · unfold ClipboardChannel.onFormatDataRequest
      dsimp only
      split
      · exact .aside hm rfl rfl id hnone
      · split <;> exact .aside hm rfl rfl id hnone
    split
    · exact handled_response hm _ _
    split
    · exact handled_contents hm _ _
    split
    · unfold ClipboardChannel.onFileContentsRequest
      dsimp only
      split
      · exact .aside hm rfl rfl id hnone
      · split <;> exact .aside hm rfl rfl id hnone
    · exact .aside hm rfl rfl id hnone

/-! ## Every step keeps what is owed -/

variable {Path : Type}

theorem foldl_tell_quiet (root : List Char → Option Path) (σ : Handoff Path) {calls : List Call}
    (h : ∀ call ∈ calls, Quiet call) :
    ∃ staged_roots, calls.foldl (Handoff.tell root) σ = { σ with staged_roots } := by
  induction calls generalizing σ with
  | nil => exact ⟨σ.staged_roots, rfl⟩
  | cons call calls ih =>
    obtain ⟨roots, heq⟩ := ih (Handoff.tell root σ call) fun call' hmem => h call' (List.mem_cons_of_mem call hmem)
    have hcall := h call List.mem_cons_self
    rw [List.foldl_cons, heq]
    cases call with
    | offerRemoteFiles | finishRemoteFiles | abortRemoteFiles => exact hcall.elim
    | beginRemoteFile | endRemoteFile | writeRemoteChunk | setContents => exact ⟨roots, rfl⟩

structure Sound (σ : Handoff Path) : Prop where
  ready : ∀ paths, σ.files.ready = some paths → σ.Owed paths ∨ (paths = [] ∧ σ.advertised < σ.lists)
  order : σ.advertised ≤ σ.lists
  behind : σ.advertised < σ.lists → σ.chan.remote_files = [] ∧ σ.chan.fetching = false
  expecting : σ.chan.expecting_descriptors = true → σ.advertised < σ.lists
  source : σ.chan.fetching = true ∨ σ.chan.remote_files ≠ [] → σ.source = σ.advertised ∧ ¬σ.Over
  waiting : ∀ since, σ.waiting = some since → since ≤ σ.advertised
  kept : σ.files.offered ≠ 0 → (∀ paths, σ.completed = some (σ.advertised, paths) → σ.files.ready = some paths) ∧
    (σ.failed = some σ.advertised → σ.files.ready = some [])
  completed : ∀ n paths, σ.completed = some (n, paths) → n ≤ σ.advertised
  failed : ∀ n, σ.failed = some n → n ≤ σ.advertised
  wanted : σ.files.wanted = true → σ.files.offered ≠ 0

namespace Sound

variable {σ : Handoff Path}

theorem new : Sound (Handoff.new : Handoff Path) where
  ready _ h := by cases h
  order := le_rfl
  behind h := absurd h (lt_irrefl _)
  expecting h := by cases h
  source h := h.elim (fun h => absurd h Bool.false_ne_true) fun h => absurd rfl h
  waiting _ h := by cases h
  kept h := absurd rfl h
  completed _ _ h := by cases h
  failed _ h := by cases h
  wanted h := by cases h

theorem aside (h : Sound σ) {chan : ClipboardChannel} (staged_roots : List Path)
    (hfiles : chan.remote_files = σ.chan.remote_files) (hfetching : chan.fetching = σ.chan.fetching)
    (hexpecting : chan.expecting_descriptors = true → σ.chan.expecting_descriptors = true) :
    Sound { σ with chan, staged_roots } where
  ready := h.ready
  order := h.order
  behind hlt := by rw [hfiles, hfetching]; exact h.behind hlt
  expecting hexp := h.expecting (hexpecting hexp)
  source hrun := by rw [hfiles, hfetching] at hrun; exact h.source hrun
  waiting := h.waiting
  kept := h.kept
  completed := h.completed
  failed := h.failed
  wanted := h.wanted

theorem running (h : Sound σ) (hrun : σ.chan.fetching = true ∨ σ.chan.remote_files ≠ []) {chan : ClipboardChannel}
    (staged_roots : List Path) (wanted : Bool) (hwanted : wanted = true → σ.files.wanted = true)
    (hexpecting : chan.expecting_descriptors = σ.chan.expecting_descriptors) :
    Sound { σ with chan, staged_roots, files := { σ.files with wanted } } where
  ready := h.ready
  order := h.order
  behind hlt := by
    obtain ⟨hnil, hidle⟩ := h.behind hlt
    rcases hrun with hrun | hrun
    · exact absurd (hidle.symm.trans hrun) Bool.false_ne_true
    · exact absurd hnil hrun
  expecting hexp := h.expecting (hexpecting ▸ hexp)
  source _ := h.source hrun
  waiting := h.waiting
  kept := h.kept
  completed := h.completed
  failed := h.failed
  wanted hw := h.wanted (hwanted hw)

theorem ends (h : Sound σ) (hrun : σ.chan.fetching = true) {chan : ClipboardChannel} {lists : ℕ}
    (hlists : σ.lists ≤ lists) (hfiles : chan.remote_files = []) (hfetching : chan.fetching = false)
    (hexpecting : chan.expecting_descriptors = true → σ.advertised < lists) {paths : List Path}
    {completed : Option (ℕ × List Path)} {failed : Option ℕ}
    (hend : (completed = some (σ.source, paths) ∧ failed = σ.failed) ∨
      (completed = σ.completed ∧ failed = some σ.source ∧ paths = [])) :
    Sound { σ with chan, lists, staged_roots := [], completed, failed, files := { σ.files with ready := some paths } } := by
  obtain ⟨hsource, hrunning⟩ := h.source (.inl hrun)
  rw [hsource] at hend
  refine ⟨fun paths' hready => .inl ?_, h.order.trans hlists, fun _ => ⟨hfiles, hfetching⟩, hexpecting,
    fun hrun' => ?_, h.waiting, fun _ => ⟨fun paths' hcomp => ?_, fun hfail => ?_⟩, fun n paths' hcomp => ?_,
    fun n hfail => ?_, h.wanted⟩
  · obtain rfl : paths = paths' := Option.some.inj hready
    rcases hend with ⟨rfl, rfl⟩ | ⟨rfl, rfl, rfl⟩
    · exact .inl rfl
    · exact .inr ⟨rfl, rfl⟩
  · rcases hrun' with hrun' | hrun'
    · exact absurd (hfetching.symm.trans hrun') Bool.false_ne_true
    · exact absurd hfiles hrun'
  · rcases hend with ⟨rfl, rfl⟩ | ⟨rfl, rfl, rfl⟩
    · exact congrArg some (Prod.mk.inj (Option.some.inj hcomp)).2
    · exact absurd (.inl ⟨paths', hcomp⟩) hrunning
  · rcases hend with ⟨rfl, rfl⟩ | ⟨rfl, rfl, rfl⟩
    · exact absurd (.inr hfail) hrunning
    · rfl
  · rcases hend with ⟨rfl, rfl⟩ | ⟨rfl, rfl, rfl⟩
    · exact (Prod.mk.inj (Option.some.inj hcomp)).1.ge
    · exact h.completed n paths' hcomp
  · rcases hend with ⟨rfl, rfl⟩ | ⟨rfl, rfl, rfl⟩
    · exact h.failed n hfail
    · exact (Option.some.inj hfail).ge

theorem newList (h : Sound σ) {chan : ClipboardChannel} (hfiles : chan.remote_files = [])
    (hfetching : chan.fetching = false) : Sound { σ with chan, lists := σ.lists + 1 } where
  ready paths hready := (h.ready paths hready).imp_right fun hnil => ⟨hnil.1, Nat.lt_succ_of_lt hnil.2⟩
  order := Nat.le_succ_of_le h.order
  behind _ := ⟨hfiles, hfetching⟩
  expecting _ := Nat.lt_succ_of_le h.order
  source hrun := by
    rcases hrun with hrun | hrun
    · exact absurd (hfetching.symm.trans hrun) Bool.false_ne_true
    · exact absurd hfiles hrun
  waiting := h.waiting
  kept := h.kept
  completed := h.completed
  failed := h.failed
  wanted := h.wanted

theorem offer (h : Sound σ) (hexpecting : σ.chan.expecting_descriptors = true) {chan : ClipboardChannel}
    (hfetching : chan.fetching = σ.chan.fetching) (hdone : chan.expecting_descriptors = false)
    (root : List Char → Option Path) :
    Sound (Handoff.tell root { σ with chan } (.offerRemoteFiles chan.remote_files)) := by
  have hlt := h.expecting hexpecting
  obtain ⟨-, hidle⟩ := h.behind hlt
  unfold Handoff.tell
  dsimp only
  by_cases hempty : chan.remote_files.isEmpty = true
  · rw [if_pos hempty]
    have hnil := List.isEmpty_iff.mp hempty
    refine ⟨h.ready, h.order, fun _ => ⟨hnil, hfetching.trans hidle⟩, fun _ => hlt, fun hrun => ?_, h.waiting, h.kept,
      h.completed, h.failed, h.wanted⟩
    rcases hrun with hrun | hrun
    · exact absurd ((hfetching.trans hidle).symm.trans hrun) Bool.false_ne_true
    · exact absurd hnil hrun
  · rw [if_neg hempty]
    -- Nothing that was completed or that failed before is this list's.
    have hfresh : ¬Handoff.Over { σ with advertised := σ.lists } := by
      rintro (⟨paths, hcomp⟩ | hfail)
      · exact absurd (h.completed _ _ hcomp) (Nat.not_le.mpr hlt)
      · exact absurd (h.failed _ hfail) (Nat.not_le.mpr hlt)
    refine ⟨fun _ hready => absurd hready (by simp), le_rfl, fun hless => absurd hless (lt_irrefl _), fun hexp => ?_,
      fun _ => ⟨rfl, hfresh⟩, fun since hsince => (h.waiting since hsince).trans h.order,
      fun _ => ⟨fun paths hcomp => absurd (.inl ⟨paths, hcomp⟩) hfresh, fun hfail => absurd (.inr hfail) hfresh⟩,
      fun n paths hcomp => (h.completed n paths hcomp).trans h.order, fun n hfail => (h.failed n hfail).trans h.order,
      fun hwanted => absurd hwanted Bool.false_ne_true⟩
    exact absurd (hdone.symm.trans hexp) Bool.false_ne_true

theorem message (h : Sound σ) (p : Provider) (m : Message) (root : List Char → Option Path) :
    Sound (σ.message p m root) := by
  unfold Handoff.message
  dsimp only
  rcases handled σ.chan p m with ⟨hlist, hfiles, hfetching, hexpecting, hcalls⟩ | ⟨hlist, hfiles, hfetching, hcalls⟩ |
    ⟨hlist, hwas, hfetching, hexpecting, hcalls⟩ | ⟨hlist, hwas, hfetching, hexpecting, hcalls⟩ |
    ⟨hlist, hwas, hfiles, hfetching, hexpecting, quiet, last, hcalls, hquiet, hlast⟩
  · rw [if_neg (by rw [hlist]; exact Bool.false_ne_true)]
    obtain ⟨roots, heq⟩ := foldl_tell_quiet root { σ with chan := (σ.chan.handle p m).1 } hcalls
    rw [heq]
    exact h.aside roots hfiles hfetching hexpecting
  · rw [if_pos hlist, hcalls]
    by_cases hrun : σ.chan.fetching = true
    · rw [if_pos hrun]
      exact h.ends hrun (Nat.le_succ _) hfiles hfetching (fun _ => Nat.lt_succ_of_le h.order) (.inr ⟨rfl, rfl, rfl⟩)
    · rw [if_neg hrun]
      exact h.newList hfiles hfetching
  · rw [if_neg (by rw [hlist]; exact Bool.false_ne_true), hcalls]
    exact h.offer hwas hfetching hexpecting root
  · rw [if_neg (by rw [hlist]; exact Bool.false_ne_true)]
    obtain ⟨roots, heq⟩ := foldl_tell_quiet root { σ with chan := (σ.chan.handle p m).1 } hcalls
    rw [heq]
    exact h.running (.inl hwas) roots σ.files.wanted id hexpecting
  · rw [if_neg (by rw [hlist]; exact Bool.false_ne_true), hcalls, List.foldl_append]
    obtain ⟨roots, heq⟩ := foldl_tell_quiet root { σ with chan := (σ.chan.handle p m).1 } hquiet
    rw [heq]
    have hbehind : (σ.chan.handle p m).1.expecting_descriptors = true → σ.advertised < σ.lists := fun hexp =>
      h.expecting (hexpecting ▸ hexp)
    rcases hlast with rfl | rfl
    · exact h.ends hwas le_rfl hfiles hfetching hbehind (.inl ⟨rfl, rfl⟩)
    · exact h.ends hwas le_rfl hfiles hfetching hbehind (.inr ⟨rfl, rfl, rfl⟩)

theorem pass (h : Sound σ) {root : List Char → Option Path} (horderly : σ.Orderly (.pass root)) :
    Sound (σ.pass root) := by
  unfold Handoff.pass
  by_cases hwanted : σ.files.wanted = true
  · rw [if_pos hwanted]
    dsimp only
    rcases horderly hwanted with ⟨hidle, hfile⟩ | ⟨hlt, hready⟩
    · -- Something is asked for.
      have hsome : σ.chan.remote_files ≠ [] := by
        obtain ⟨f, hmem, -⟩ := hfile
        exact List.ne_nil_of_mem hmem
      have hfetch : σ.chan.beginFileFetch =
          { σ.chan with fetching := true, fetch_index := 0, fetch_received := 0 }.pump := by
        rw [ClipboardChannel.beginFileFetch, hidle, Bool.false_or, if_neg (by rwa [List.isEmpty_iff])]
      have hasks := pump_asks { σ.chan with fetching := true, fetch_index := 0, fetch_received := 0 } rfl hfile
      rw [hfetch]
      rcases pump_cases { σ.chan with fetching := true, fetch_index := 0, fetch_received := 0 } with hpump | hpump
      · obtain ⟨roots, heq⟩ := foldl_tell_quiet root { σ with
          chan := ({ σ.chan with fetching := true, fetch_index := 0, fetch_received := 0 } : ClipboardChannel).pump.1
          files := { σ.files with wanted := false } } hpump.calls
        rw [heq, if_neg (by rwa [List.isEmpty_iff])]
        exact h.running (.inr hsome) roots false (fun hw => absurd hw Bool.false_ne_true) hpump.expecting
      · exact absurd hpump.out hasks
    · -- The channel has no files: the paste is left with nothing.
      obtain ⟨hnil, hidle⟩ := h.behind hlt
      have hfetch : σ.chan.beginFileFetch = (σ.chan, [], []) := by
        rw [ClipboardChannel.beginFileFetch, hnil, hidle]
        rfl
      rw [hfetch]
      obtain ⟨hcompleted, hfailed⟩ := h.kept (h.wanted hwanted)
      refine ⟨fun paths hpaths => .inr ⟨(Option.some.inj hpaths).symm, hlt⟩, h.order, h.behind, h.expecting, h.source,
        h.waiting, fun _ => ⟨fun paths hcomp => ?_, fun hfail => rfl⟩, h.completed, h.failed,
        fun hw => absurd hw Bool.false_ne_true⟩
      exact absurd (hready.symm.trans (hcompleted paths hcomp)) (by simp)
  · rw [if_neg hwanted]
    exact h

theorem atOnce_eq_none {σ : Handoff Path} : σ.atOnce = none ↔ σ.files.offered ≠ 0 ∧ σ.files.ready = none := by
  unfold Handoff.atOnce
  split
  · simp [*]
  · simp [*]

theorem paste (h : Sound σ) (horderly : σ.Orderly .paste) : Sound (σ.step .paste) := by
  unfold Handoff.step
  dsimp only
  by_cases hbusy : σ.waiting.isSome ∨ σ.atOnce.isSome
  · rw [if_pos hbusy]
    exact h
  · rw [if_neg hbusy]
    obtain ⟨hoffered, hready⟩ := atOnce_eq_none.mp (by simpa using (not_or.mp hbusy).2)
    -- It begins when the newest list is advertised.
    have hnewest : σ.advertised = σ.lists := by
      rcases horderly with heq | (⟨paths, hcomp⟩ | hfail) | hnone
      · exact heq
      · exact absurd (hready.symm.trans ((h.kept hoffered).1 paths hcomp)) (by simp)
      · exact absurd (hready.symm.trans ((h.kept hoffered).2 hfail)) (by simp)
      · exact absurd hnone hoffered
    refine ⟨h.ready, h.order, h.behind, h.expecting, h.source, fun since hsince => ?_, h.kept, h.completed, h.failed,
      fun _ => hoffered⟩
    rw [← Option.some.inj hsince, hnewest]

theorem step (h : Sound σ) (e : Event Path) (horderly : σ.Orderly e) : Sound (σ.step e) := by
  cases e with
  | message p m root => exact h.message p m root
  | pass root => exact h.pass horderly
  | paste => exact h.paste horderly
  | wake timed_out =>
    unfold Handoff.step
    dsimp only
    split
    · exact ⟨h.ready, h.order, h.behind, h.expecting, h.source, fun _ hsince => absurd hsince (by simp), h.kept,
        h.completed, h.failed, h.wanted⟩
    · exact h
  | discarded =>
    unfold Handoff.step
    dsimp only
    split
    · exact h
    · exact ⟨fun _ hready => absurd hready (by simp), h.order, h.behind, h.expecting, h.source, h.waiting,
        fun hnone => absurd rfl hnone, h.completed, h.failed, fun hw => absurd hw Bool.false_ne_true⟩

theorem fair (h : Sound σ) (e : Event Path) (horderly : σ.Orderly e) : σ.Fair e := by
  cases e with
  | paste =>
    intro _ paths hpaths
    unfold Handoff.atOnce at hpaths
    by_cases hoffered : σ.files.offered = 0
    · rw [if_pos hoffered] at hpaths
      exact .inr ⟨(Option.some.inj hpaths).symm, hoffered⟩
    · rw [if_neg hoffered] at hpaths
      refine .inl ?_
      obtain ⟨hcompleted, hfailed⟩ := h.kept hoffered
      rcases horderly with heq | (⟨paths', hcomp⟩ | hfail) | hnone
      · exact (h.ready paths hpaths).resolve_right fun hnil => absurd heq hnil.2.ne
      · rw [hcompleted paths' hcomp] at hpaths
        exact .inl (Option.some.inj hpaths ▸ hcomp)
      · rw [hfailed hfail] at hpaths
        exact .inr ⟨(Option.some.inj hpaths).symm, hfail⟩
      · exact absurd hnone hoffered
  | wake timed_out =>
    intro since hsince paths hpaths
    unfold Handoff.onWake at hpaths
    rcases hready : σ.files.ready with _ | staged
    · rw [hready, Option.none_or] at hpaths
      by_cases htime : timed_out = true
      · rw [if_pos htime] at hpaths
        exact .inr ⟨(Option.some.inj hpaths).symm, .inl htime⟩
      · rw [if_neg htime] at hpaths
        cases hpaths
    · rw [hready] at hpaths
      obtain rfl : staged = paths := Option.some.inj hpaths
      rcases h.ready staged hready with howed | ⟨hnil, hlt⟩
      · exact .inl howed
      · exact .inr ⟨hnil, .inr (lt_of_le_of_lt (h.waiting since hsince) hlt)⟩
  | message | pass | discarded => trivial

end Sound

def takesAll : Provider := ⟨none, [], none, fun _ _ _ => none, true⟩

def sent (m : Message) : Event (List Char) := .message takesAll m some

def offers (files : List ClipFile) : List (Event (List Char)) :=
  [sent (formatList false true false), sent ⟨cbFormatDataResponse, cbResponseOk, fileGroupDescriptor files⟩]

def file : ClipFile := ⟨['a'], 4, false⟩

def folder : ClipFile := ⟨['d'], 0, true⟩

def pasted : List (Event (List Char)) :=
  offers [file] ++ [.paste, .pass some, sent ⟨cbFilecontentsResponse, cbResponseOk, [1, 0, 0, 0, 1, 2, 3, 4]⟩,
    .wake false]

end Rdpio.Client.FileHandoff
