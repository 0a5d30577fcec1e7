import Rdpio.Channels.Cliprdr
import Rdpio.Lib.Run

/-!
# Files served to the session

The other direction of `crates/rdp-channels/src/cliprdr.rs`: the session asks for the list of the local files,
and then for sizes and ranges of its entries.
-/

namespace Rdpio.Channels.Cliprdr

open Lib

structure LocalFile where
  entry : ClipFile
  read : UInt64 → UInt32 → Option (List UInt8)

/-- A session's channel and a local clipboard. -/
structure Serving where
  chan : ClipboardChannel
  clipboard : List LocalFile
  /-- The provider's last `get_files` list. -/
  listed : List LocalFile
  /-- The list whose descriptors were sent last. -/
  sent : Option (List LocalFile)

/-- What happens. -/
inductive ServeEvent where
  /-- Files, or none, are copied locally. -/
  | copy (files : List LocalFile)
  /-- The session is told that the local clipboard changed. -/
  | announce
  /-- The session's files are pasted here. -/
  | paste
  /-- A message of the session; the provider's text and image, and whether it wants remote files. -/
  | message (text : Option (List Char)) (image : Option (List UInt8)) (wants : Bool) (msg : List UInt8)

namespace Serving

def new : Serving := ⟨.new, [], [], none⟩

def readEntry (files : List LocalFile) (index : UInt32) (offset : UInt64) (len : UInt32) :
    Option (List UInt8) := files[index.toNat]?.bind fun f => f.read offset len

def provider (s : Serving) (text : Option (List Char)) (image : Option (List UInt8)) (wants : Bool) : Provider where
  get_text := text
  get_files := s.clipboard.map (·.entry)
  get_image := image
  read_file := readEntry s.listed
  wants_remote_files := wants

def asksDescriptors (m : Message) : Bool :=
  m.msg_type == cbFormatDataRequest && UInt32.ofNat (ofLe (m.data.take 4)) == cfFilegroupdescriptorw

def lists (m : Message) : Bool := m.msg_type == cbMonitorReady || asksDescriptors m

def answer (s : Serving) (text : Option (List Char)) (image : Option (List UInt8)) (wants : Bool)
    (msg : List UInt8) : ClipboardChannel.Outcome := s.chan.process (s.provider text image wants) msg

def step (s : Serving) : ServeEvent → Serving
  | .copy files => { s with clipboard := files }
  | .announce => { s with listed := s.clipboard }
  | .paste => { s with chan := s.chan.beginFileFetch.1 }
  | .message text image wants msg =>
    { s with
      chan := (s.answer text image wants msg).1
      listed := if (Message.read msg).any lists then s.clipboard else s.listed
      sent := if (Message.read msg).any asksDescriptors && !s.clipboard.isEmpty then some s.clipboard
        else s.sent }

/-- A File Contents Request, as the channel reads it. -/
structure Contents where
  stream_id : UInt32
  index : UInt32
  flags : UInt32
  offset : UInt64
  requested : UInt32
deriving DecidableEq

def Contents.ofData (data : List UInt8) : Contents :=
  let rd (i : ℕ) : UInt32 := UInt32.ofNat (ofLe ((data.drop i).take 4))
  ⟨rd 0, rd 4, rd 8, (rd 16).toUInt64 <<< 32 ||| (rd 12).toUInt64, rd 20⟩

def Contents.ofMessage (msg : List UInt8) : Option Contents :=
  (Message.read msg).bind fun m =>
    if m.msg_type = cbFilecontentsRequest then some (.ofData m.data) else none

/-- What a list's own entry says to a request. -/
def Contents.from (r : Contents) (files : List LocalFile) : Option (List UInt8) :=
  if r.flags &&& filecontentsSize ≠ 0 then files[r.index.toNat]?.map fun f => u64le f.entry.size
  else if r.flags &&& filecontentsRange ≠ 0 then readEntry files r.index r.offset r.requested
  else none

def Contents.answers (r : Contents) (data : Option (List UInt8)) : List Message :=
  respond cbFilecontentsResponse (u32le r.stream_id) data

def Served (s : Serving) : ServeEvent → Prop
  | .message text image wants msg => ∀ r files, Contents.ofMessage msg = some r → s.sent = some files →
      (s.answer text image wants msg).2.1 = r.answers (r.from files) ∨
        (s.answer text image wants msg).2.1 = r.answers none
  | _ => True

def Mapped (s : Serving) : ServeEvent → Prop
  | .message _ _ _ msg => ∀ r files, Contents.ofMessage msg = some r → s.sent = some files →
      r.flags &&& filecontentsSize = 0 → r.flags &&& filecontentsRange ≠ 0 →
        readEntry s.listed r.index r.offset r.requested = readEntry files r.index r.offset r.requested ∨
          readEntry s.listed r.index r.offset r.requested = none
  | _ => True

def Steady (s : Serving) : ServeEvent → Prop
  | .copy _ | .paste => True
  | .announce => ∀ files, s.sent = some files → s.clipboard = files
  | .message _ _ _ msg => (Message.read msg).any lists = true →
      (Message.read msg).any asksDescriptors = false → ∀ files, s.sent = some files → s.clipboard = files

theorem pump_local_files (c : ClipboardChannel) : c.pump.1.local_files = c.local_files := by
  fun_induction ClipboardChannel.pump c with
  | case1 c h entry hdir c' out calls hpump ih => rw [hpump] at ih; exact ih
  | case2 c h entry hdir begun hsize c' out calls hpump ih => rw [hpump] at ih; exact ih
  | case3 c h entry hdir begun hsize len c' => rfl
  | case4 c h => rfl

theorem local_files_handle (c : ClipboardChannel) (p : Provider) (m : Message) :
    (c.handle p m).1.local_files = if asksDescriptors m then p.get_files else c.local_files := by
  have hready : (c.onMonitorReady p).1.local_files = c.local_files := rfl
  have hlist : (c.onFormatList p m.data).1.local_files = c.local_files := by
    unfold ClipboardChannel.onFormatList
    split <;> rfl
  have hresponse : ∀ ok, (c.onFormatDataResponse ok m.data).1.local_files = c.local_files := by
    intro ok
    unfold ClipboardChannel.onFormatDataResponse
    split_ifs
    · rfl
    · rfl
    · rcases c.pending_formats.head? with _ | id
      · dsimp only
        split_ifs <;> rfl
      · dsimp only
        split_ifs <;> rfl
  have hcontents : ∀ ok, (c.onFileContentsResponse ok m.data).1.local_files = c.local_files := by
    intro ok
    unfold ClipboardChannel.onFileContentsResponse
    dsimp only
    split_ifs
    · rfl
    · rw [pump_local_files]
    · rw [pump_local_files]
    · rfl
  have hrequest : (c.onFileContentsRequest p m.data).1.local_files = c.local_files := by
    unfold ClipboardChannel.onFileContentsRequest
    dsimp only
    split_ifs <;> rfl
  have hask : ∀ t, m.msg_type = t → t ≠ cbFormatDataRequest → asksDescriptors m = false := by
    intro t ht hne
    rw [asksDescriptors, ht, beq_false_of_ne hne, Bool.false_and]
  unfold ClipboardChannel.handle
  dsimp only
  by_cases h₁ : m.msg_type = cbMonitorReady
  · rw [if_pos h₁, hask _ h₁ (by decide)]
    exact hready
  rw [if_neg h₁]
  by_cases h₂ : m.msg_type = cbFormatList
  · rw [if_pos h₂, hask _ h₂ (by decide)]
    exact hlist
  rw [if_neg h₂]
  by_cases h₃ : m.msg_type = cbFormatDataRequest
  · -- The one message that the list is replaced for.
    have hformat : asksDescriptors m = decide (UInt32.ofNat (ofLe (m.data.take 4)) = cfFilegroupdescriptorw) := by
      rw [asksDescriptors, h₃, beq_self_eq_true, Bool.true_and, beq_eq_decide]
    rw [if_pos h₃, hformat]
    unfold ClipboardChannel.onFormatDataRequest
    dsimp only
    by_cases hdescriptors : UInt32.ofNat (ofLe (m.data.take 4)) = cfFilegroupdescriptorw
    · rw [if_pos hdescriptors, if_pos (decide_eq_true hdescriptors)]
    · rw [decide_eq_false hdescriptors, if_neg hdescriptors, if_neg Bool.false_ne_true]
      split_ifs <;> rfl
  have hno : asksDescriptors m = false := by
    rw [asksDescriptors, beq_false_of_ne h₃, Bool.false_and]
  rw [if_neg h₃, hno, if_neg Bool.false_ne_true]
  split_ifs with h₄ h₅ h₆
  · exact hresponse _
  · exact hcontents _
  · exact hrequest
  · rfl

/-- What the channel keeps is the list that was sent, or nothing. -/
structure Kept (s : Serving) : Prop where
  kept : ∀ files, s.sent = some files → s.chan.local_files = files.map (·.entry) ∨ s.chan.local_files = []

theorem kept_new : new.Kept := ⟨fun files h => absurd h (Option.some_ne_none files).symm⟩

theorem Kept.step {s : Serving} (h : s.Kept) (e : ServeEvent) : (s.step e).Kept := by
  cases e with
  | copy files => exact ⟨h.kept⟩
  | announce => exact ⟨h.kept⟩
  | paste =>
    refine ⟨fun files hsent => ?_⟩
    have hfetch : (s.chan.beginFileFetch).1.local_files = s.chan.local_files := by
      unfold ClipboardChannel.beginFileFetch
      split_ifs
      · rfl
      · rw [pump_local_files]
    rcases h.kept files hsent with hkept | hkept
    · exact .inl (hfetch.trans hkept)
    · exact .inr (hfetch.trans hkept)
  | message text image wants msg =>
    refine ⟨fun files hsent => ?_⟩
    dsimp only [Serving.step, answer, ClipboardChannel.process] at hsent ⊢
    rcases hread : Message.read msg with _ | m
    · rw [hread] at hsent
      exact h.kept files hsent
    rw [hread, Option.any_some] at hsent
    dsimp only
    rw [local_files_handle]
    by_cases hask : asksDescriptors m = true
    · rw [if_pos hask]
      rw [hask, Bool.true_and] at hsent
      rcases hclipboard : s.clipboard with _ | ⟨f, fs⟩
      · exact .inr (congrArg (List.map _) hclipboard)
      · rw [hclipboard] at hsent
        refine .inl ?_
        rw [← Option.some.inj hsent, ← hclipboard]
        rfl
    · rw [if_neg hask]
      rw [Bool.eq_false_of_not_eq_true hask, Bool.false_and] at hsent
      exact h.kept files hsent

/-! ## Which runs are served -/

theorem answer_request {s : Serving} {text : Option (List Char)} {image : Option (List UInt8)} {wants : Bool}
    {msg : List UInt8} {r : Contents} (hr : Contents.ofMessage msg = some r) :
    (s.answer text image wants msg).2.1 = r.answers
      (if r.flags &&& filecontentsSize ≠ 0 then s.chan.local_files[r.index.toNat]?.map fun e => u64le e.size
      else if r.flags &&& filecontentsRange ≠ 0 then readEntry s.listed r.index r.offset r.requested
      else none) := by
  unfold Contents.ofMessage at hr
  rcases hread : Message.read msg with _ | m
  · rw [hread] at hr
    cases hr
  rw [hread, Option.bind_some] at hr
  split_ifs at hr with htype
  cases hr
  unfold answer ClipboardChannel.process
  rw [hread]
  dsimp only
  unfold ClipboardChannel.handle
  rw [htype]
  dsimp only
  rw [if_neg (by decide), if_neg (by decide), if_neg (by decide), if_neg (by decide), if_neg (by decide), if_pos rfl]
  unfold ClipboardChannel.onFileContentsRequest Contents.ofData Contents.answers
  dsimp only
  split_ifs <;> rfl

theorem Contents.answers_inj {r : Contents} {d d' : Option (List UInt8)} : r.answers d = r.answers d' ↔ d = d' := by
  refine ⟨fun h => ?_, fun h => h ▸ rfl⟩
  unfold Contents.answers respond at h
  cases d with
  | none =>
    cases d' with
    | none => rfl
    | some x' =>
      have hflags : cbResponseFail = cbResponseOk := congrArg Message.msg_flags (List.cons.inj h).1
      exact absurd hflags (by decide)
  | some x =>
    cases d' with
    | none =>
      have hflags : cbResponseOk = cbResponseFail := congrArg Message.msg_flags (List.cons.inj h).1
      exact absurd hflags (by decide)
    | some x' =>
      have hdata := congrArg Message.data (List.cons.inj h).1
      exact congrArg some (List.append_cancel_left hdata)

theorem served_step {s : Serving} (h : s.Kept) (e : ServeEvent) : s.Served e ↔ s.Mapped e := by
  cases e with
  | message text image wants msg =>
    unfold Served Mapped
    refine forall_congr' fun r => forall_congr' fun files => forall_congr' fun hr => forall_congr' fun hsent => ?_
    rw [answer_request hr, Contents.answers_inj, Contents.answers_inj]
    unfold Contents.from
    by_cases hsize : r.flags &&& filecontentsSize = 0
    · rw [if_neg (not_not.mpr hsize), if_neg (not_not.mpr hsize)]
      by_cases hrange : r.flags &&& filecontentsRange = 0
      · rw [if_neg (not_not.mpr hrange), if_neg (not_not.mpr hrange)]
        exact iff_of_true (.inl rfl) fun _ h => absurd hrange h
      · rw [if_pos hrange, if_pos hrange]
        exact ⟨fun h _ _ => h, fun h => h hsize hrange⟩
    · -- A size is answered from the list kept, which is the one that was sent.
      rw [if_pos hsize, if_pos hsize]
      refine iff_of_true ?_ fun h => absurd h hsize
      rcases h.kept files hsent with hkept | hkept
      · rw [hkept, List.getElem?_map, Option.map_map]
        exact .inl rfl
      · rw [hkept]
        exact .inr rfl
  | _ => exact iff_of_true trivial trivial

theorem served_run {s : Serving} (h : s.Kept) (es : List ServeEvent) :
    Along step Served s es ↔ Along step Mapped s es := by
  induction es generalizing s with
  | nil => exact Iff.rfl
  | cons e es ih => exact and_congr (served_step h e) (ih (h.step e))

theorem mapped_of_steady {s : Serving} (h : ∀ files, s.sent = some files → s.listed = files ∨ s.listed = [])
    {es : List ServeEvent} (hsteady : Along step Steady s es) : Along step Mapped s es := by
  induction es generalizing s with
  | nil => trivial
  | cons e es ih =>
    obtain ⟨he, hes⟩ := hsteady
    refine ⟨?_, ih ?_ hes⟩
    · cases e with
      | message text image wants msg =>
        intro r files _ hsent _ _
        rcases h files hsent with hlisted | hlisted
        · exact .inl (by rw [hlisted])
        · exact .inr (by rw [hlisted]; rfl)
      | _ => trivial
    · cases e with
      | copy files => exact h
      | announce => exact fun files hsent => .inl (he files hsent)
      | paste => exact h
      | message text image wants msg =>
        intro files hsent
        dsimp only [Serving.step] at hsent ⊢
        by_cases hask : (Message.read msg).any asksDescriptors = true
        · -- The list is asked for: it is the one that is sent, or nothing is there to be read.
          have hlists : (Message.read msg).any lists = true := by
            rcases hread : Message.read msg with _ | m
            · rw [hread] at hask
              cases hask
            · rw [hread, Option.any_some] at hask
              rw [Option.any_some, lists, hask, Bool.or_true]
          rw [if_pos hlists]
          rw [hask, Bool.true_and] at hsent
          rcases hclipboard : s.clipboard with _ | ⟨f, fs⟩
          · exact .inr rfl
          · rw [hclipboard] at hsent
            exact .inl (Option.some.inj hsent)
        · have hask := Bool.eq_false_of_not_eq_true hask
          rw [hask, Bool.false_and, if_neg Bool.false_ne_true] at hsent
          by_cases hlists : (Message.read msg).any lists = true
          · rw [if_pos hlists]
            exact .inl (he hlists hask files hsent)
          · rw [if_neg hlists]
            exact h files hsent

/-- Every request is answered from the list that was sent last, if and only if ranges are asked for only of
entries that the provider's last list reads the same, or not at all; and they are where `get_files` is not
called for other files between the list and the requests. -/
theorem served_iff (es : List ServeEvent) : (Along step Served new es ↔ Along step Mapped new es) ∧
      (Along step Steady new es → Along step Served new es) := by
  have hrun := served_run kept_new es
  refine ⟨hrun, fun hsteady => hrun.mpr (mapped_of_steady ?_ hsteady)⟩
  exact fun files hsent => absurd hsent (Option.some_ne_none files).symm

def oneByte (b : UInt8) : LocalFile where
  entry := ⟨['f'], 1, false⟩
  read _ _ := some [b]

def askDescriptors : ServeEvent :=
  .message none none false (Message.mk cbFormatDataRequest 0 (u32le cfFilegroupdescriptorw)).bytes

def askByte : List UInt8 := (fileContentsRequest 1 0 0 1).bytes

/-- A file is copied and its descriptors are sent; another is copied and announced; then the first byte of
the file that was sent is asked for: it is the other's. -/
theorem served_other_file : (run step new [.copy [oneByte 1], askDescriptors, .copy [oneByte 2], .announce]).sent.map
        (fun files => readEntry files 0 0 1) = some (some [1]) ∧
      ((run step new [.copy [oneByte 1], askDescriptors, .copy [oneByte 2], .announce]).answer none none
        false askByte).2.1 = [⟨cbFilecontentsResponse, cbResponseOk, [1, 0, 0, 0, 2]⟩] ∧
      ¬ Along step Served new [.copy [oneByte 1], askDescriptors, .copy [oneByte 2], .announce,
        .message none none false askByte] := by
  refine ⟨rfl, by decide +kernel, fun h => ?_⟩
  obtain ⟨-, -, -, -, hserved, -⟩ := h
  have hread : Contents.ofMessage askByte = some ⟨1, 0, filecontentsRange, 0, 1⟩ := by decide +kernel
  rcases hserved _ [oneByte 1] hread rfl with hanswer | hanswer
  · exact absurd hanswer (by decide +kernel)
  · exact absurd hanswer (by decide +kernel)

end Serving

end Rdpio.Channels.Cliprdr
