import Rdpio.Channels.Cliprdr
import Rdpio.Lib.Run

/-!
# Pastes are whole and fresh

The session's text and image, as `crates/rdp-channels/src/cliprdr.rs` fetches them: a format list is answered
with a request for one format, each answer with the request for the next, and the last answer should bring one
`set_contents` with all that came.
-/

namespace Rdpio.Channels.Cliprdr

open Lib

/-- What a data request is for. -/
inductive Asked where
  | descriptors
  | format (id : UInt32)
deriving DecidableEq

/-- The channel, with what was asked and answered. -/
structure Paste where
  chan : ClipboardChannel
  lists : ℕ
  /-- Requests not yet answered, oldest first, each with the list that it was made for. -/
  asked : List (ℕ × Asked)
  /-- Requests made for the newest list that were answered with data. -/
  answered : List (UInt32 × List UInt8)
  /-- The contents that the provider was told since the newest list. -/
  told : List (Option (List Char) × Option (List UInt8))

namespace Paste

def new : Paste := ⟨.new, 0, [], [], []⟩

/-- Calls of `set_contents`. -/
def contents (calls : List Call) : List (Option (List Char) × Option (List UInt8)) :=
  calls.filterMap fun
    | .setContents text image => some (text, image)
    | _ => none

def requests (list : ℕ) (out : List Message) : List (ℕ × Asked) :=
  out.filterMap fun m =>
    if m.msg_type = cbFormatDataRequest then some (list, .format (UInt32.ofNat (ofLe m.data))) else none

def takesFiles (p : Provider) (m : Message) : Bool :=
  p.wants_remote_files && (ClipboardChannel.fileFormat m.data).isSome

def step (σ : Paste) (a : Provider × List UInt8) : Paste :=
  let (chan, out, calls) := σ.chan.process a.1 a.2
  match Message.read a.2 with
  | none => σ
  | some m =>
    if m.msg_type = cbFormatList then
      { chan
        lists := σ.lists + 1
        asked := σ.asked ++ if takesFiles a.1 m then [(σ.lists + 1, .descriptors)]
          else requests (σ.lists + 1) out
        answered := []
        told := contents calls }
    else
      let σ := { σ with chan, told := σ.told ++ contents calls }
      if m.msg_type = cbFormatDataResponse then
        { σ with
          asked := σ.asked.tail ++ requests σ.lists out
          answered := match σ.asked.head? with
            | some (list, .format id) =>
              if list = σ.lists ∧ m.msg_flags &&& cbResponseOk ≠ 0 then σ.answered ++ [(id, m.data)]
              else σ.answered
            | _ => σ.answered }
      else { σ with asked := σ.asked ++ requests σ.lists out }

/-- The server answers requests, each once and in order. -/
def Answers (σ : Paste) (a : Provider × List UInt8) : Prop :=
  ∀ m ∈ Message.read a.2, m.msg_type = cbFormatDataResponse → σ.asked ≠ []

instance (σ : Paste) (a : Provider × List UInt8) : Decidable (σ.Answers a) :=
  inferInstanceAs (Decidable (∀ m ∈ Message.read a.2, _))

/-- No list while a request is out, and no failure of a list's last request after one was answered. -/
def Orderly (σ : Paste) (a : Provider × List UInt8) : Prop :=
  ∀ m ∈ Message.read a.2,
    (m.msg_type = cbFormatList → σ.asked = []) ∧
    (m.msg_type = cbFormatDataResponse → m.msg_flags &&& cbResponseOk = 0 → σ.answered = [])

instance (σ : Paste) (a : Provider × List UInt8) : Decidable (σ.Orderly a) :=
  inferInstanceAs (Decidable (∀ m ∈ Message.read a.2, _))

def dataFor (σ : Paste) (id : UInt32) : Option (List UInt8) := (σ.answered.find? (·.1 = id)).map (·.2)

def Whole (σ : Paste) : Prop :=
  σ.told = if (∀ q ∈ σ.asked, q.1 ≠ σ.lists) ∧ σ.answered ≠ [] then
      [((σ.dataFor cfUnicodetext).map decodeUnicode, σ.dataFor cfDib)]
    else []

instance (σ : Paste) : Decidable σ.Whole := inferInstanceAs (Decidable (_ = _))

/-- The part of the channel that pastes live in. -/
structure Holds (c : ClipboardChannel) (pending : List UInt32) (expecting : Bool)
    (text : Option (List Char)) : Prop where
  pending_formats : c.pending_formats = pending
  expecting_descriptors : c.expecting_descriptors = expecting
  paste_text : c.paste_text = text
  paste_image : c.paste_image = none

/-- An outcome that asks for nothing, tells no contents and leaves the paste alone. -/
structure Aside (c : ClipboardChannel) (o : ClipboardChannel.Outcome) : Prop where
  pending_formats : o.1.pending_formats = c.pending_formats
  expecting_descriptors : o.1.expecting_descriptors = c.expecting_descriptors
  paste_text : o.1.paste_text = c.paste_text
  paste_image : o.1.paste_image = c.paste_image
  out : ∀ m ∈ o.2.1, m.msg_type ≠ cbFormatDataRequest
  calls : contents o.2.2 = []

theorem Aside.requests {c : ClipboardChannel} {o : ClipboardChannel.Outcome} (h : Aside c o)
    (list : ℕ) : requests list o.2.1 = [] :=
  List.filterMap_eq_nil_iff.mpr fun m hm => if_neg (h.out m hm)

theorem Aside.holds {c : ClipboardChannel} {o : ClipboardChannel.Outcome} (h : Aside c o)
    {pending : List UInt32} {expecting : Bool} {text : Option (List Char)}
    (hc : Holds c pending expecting text) : Holds o.1 pending expecting text :=
  ⟨h.pending_formats.trans hc.pending_formats,
    h.expecting_descriptors.trans hc.expecting_descriptors, h.paste_text.trans hc.paste_text,
    h.paste_image.trans hc.paste_image⟩

theorem contents_begun (b : Prop) [Decidable b] (name : List Char) (size : UInt64) (calls : List Call) :
    contents ((if b then [.beginRemoteFile name size false] else []) ++ calls) = contents calls := by
  split_ifs <;> rfl

theorem aside_pump (c : ClipboardChannel) : Aside c c.pump := by
  fun_induction ClipboardChannel.pump c with
  | case1 c h entry hdir c' out calls heq ih =>
    rw [heq] at ih
    exact ⟨ih.1, ih.2, ih.3, ih.4, ih.5, ih.6⟩
  | case2 c h entry hdir begun hdone c' out calls heq ih =>
    rw [heq] at ih
    refine ⟨ih.1, ih.2, ih.3, ih.4, ih.5, ?_⟩
    exact (contents_begun _ _ _ _).trans ih.6
  | case3 c h entry hdir begun hdone len c' =>
    refine ⟨rfl, rfl, rfl, rfl, fun m hm => ?_, ?_⟩
    · cases List.mem_singleton.mp hm
      exact (by decide : cbFilecontentsRequest ≠ cbFormatDataRequest)
    · have hnil := contents_begun (c.fetch_received = 0) entry.name entry.size []
      rwa [List.append_nil] at hnil
  | case4 c h => exact ⟨rfl, rfl, rfl, rfl, fun m hm => absurd hm List.not_mem_nil, rfl⟩

theorem aside_file_response (c : ClipboardChannel) (ok : Bool) (data : List UInt8) :
    Aside c (c.onFileContentsResponse ok data) := by
  unfold ClipboardChannel.onFileContentsResponse
  split_ifs
  · exact ⟨rfl, rfl, rfl, rfl, fun m hm => absurd hm List.not_mem_nil, rfl⟩
  · have h := aside_pump { c with
      fetch_received := c.fetch_received + UInt64.ofNat (data.drop 4).length
      remote_files := if (data.drop 4).isEmpty then
          c.remote_files.modify c.fetch_index fun e =>
            { e with size := c.fetch_received + UInt64.ofNat (data.drop 4).length }
        else c.remote_files }
    exact ⟨h.1, h.2, h.3, h.4, h.5, h.6⟩
  · exact ⟨rfl, rfl, rfl, rfl, fun m hm => absurd hm List.not_mem_nil, rfl⟩

theorem aside_respond {c c' : ClipboardChannel} {msg_type : UInt16} {head : List UInt8}
    {d : Option (List UInt8)} (hc : { c with local_files := c'.local_files } = c')
    (htype : msg_type ≠ cbFormatDataRequest) : Aside c (c', respond msg_type head d, []) := by
  rw [← hc]
  refine ⟨rfl, rfl, rfl, rfl, fun m hm => ?_, rfl⟩
  rw [msg_type_respond hm]
  exact htype

theorem aside_data_request (c : ClipboardChannel) (p : Provider) (data : List UInt8) :
    Aside c (c.onFormatDataRequest p data) := by
  have htype : cbFormatDataResponse ≠ cbFormatDataRequest := by decide
  unfold ClipboardChannel.onFormatDataRequest
  dsimp only
  split_ifs <;> exact aside_respond rfl htype

theorem aside_file_request (c : ClipboardChannel) (p : Provider) (data : List UInt8) :
    Aside c (c.onFileContentsRequest p data) := by
  have htype : cbFilecontentsResponse ≠ cbFormatDataRequest := by decide
  unfold ClipboardChannel.onFileContentsRequest
  dsimp only
  split_ifs <;> exact aside_respond rfl htype

theorem aside_handle (c : ClipboardChannel) (p : Provider) {m : Message}
    (hlist : m.msg_type ≠ cbFormatList) (hresponse : m.msg_type ≠ cbFormatDataResponse) :
    Aside c (c.handle p m) := by
  unfold ClipboardChannel.handle
  dsimp only
  rw [if_neg hlist, if_neg hresponse]
  split_ifs
  · refine ⟨rfl, rfl, rfl, rfl, fun m hm => ?_, rfl⟩
    rcases List.mem_cons.mp hm with rfl | hm
    · decide
    · cases List.mem_singleton.mp hm
      exact (by decide : cbFormatList ≠ cbFormatDataRequest)
  · exact aside_data_request c p m.data
  · exact aside_file_response c _ m.data
  · exact aside_file_request c p m.data
  · exact ⟨rfl, rfl, rfl, rfl, fun m hm => absurd hm List.not_mem_nil, rfl⟩

/-! ## The phases of a paste -/

/-- Where a paste stands, in a run that is orderly. -/
inductive Phase (σ : Paste) : Prop
  /-- Nothing is out: everything that came was told. -/
  | idle (hasked : σ.asked = []) (hchan : Holds σ.chan [] false none) (htold : σ.Whole)
  | files (hasked : σ.asked = [(σ.lists, .descriptors)]) (hchan : Holds σ.chan [] true none)
      (hanswered : σ.answered = []) (htold : σ.told = [])
  | first (f : UInt32) (rest : List UInt32) (hf : f :: rest = [cfUnicodetext] ∨ f :: rest = [cfDib] ∨
      f :: rest = [cfUnicodetext, cfDib]) (hasked : σ.asked = [(σ.lists, .format f)])
      (hchan : Holds σ.chan (f :: rest) false none) (hanswered : σ.answered = []) (htold : σ.told = [])
  /-- The image is asked for, the text came. -/
  | second (d : List UInt8) (hasked : σ.asked = [(σ.lists, .format cfDib)])
      (hchan : Holds σ.chan [cfDib] false (some (decodeUnicode d)))
      (hanswered : σ.answered = [(cfUnicodetext, d)]) (htold : σ.told = [])

theorem whole_of_pending {σ : Paste} {q : Asked} (hasked : σ.asked = [(σ.lists, q)])
    (htold : σ.told = []) : σ.Whole := by
  unfold Whole
  rw [htold, hasked, if_neg]
  intro h
  exact h.1 (σ.lists, q) List.mem_cons_self rfl

theorem Phase.whole {σ : Paste} (h : Phase σ) : σ.Whole := by
  cases h with
  | idle hasked hchan htold => exact htold
  | files hasked hchan hanswered htold => exact whole_of_pending hasked htold
  | first f rest hf hasked hchan hanswered htold => exact whole_of_pending hasked htold
  | second d hasked hchan hanswered htold => exact whole_of_pending hasked htold

theorem phase_new : Phase new := .idle rfl ⟨rfl, rfl, rfl, rfl⟩ rfl

theorem requests_next (list : ℕ) (c : ClipboardChannel) {pending : List UInt32}
    (h : c.pending_formats = pending) :
    requests list c.nextFormatRequest = (pending.head?.map fun id => (list, Asked.format id)).toList := by
  subst h
  unfold ClipboardChannel.nextFormatRequest
  cases c.pending_formats with
  | nil => rfl
  | cons id rest =>
    simp only [List.head?_cons, requests, formatDataRequest, List.filterMap_cons, if_true,
      List.filterMap_nil, Option.map_some, Option.toList_some]
    rw [u32le, ofLe_leBytes_of_lt id.toNat_lt, UInt32.ofNat_toNat]

theorem Phase.list {σ : Paste} (h : Phase σ) (p : Provider) {msg : List UInt8} {m : Message}
    (hread : Message.read msg = some m) (hlist : m.msg_type = cbFormatList) (hasked : σ.asked = []) :
    Phase (σ.step (p, msg)) := by
  have hchan : Holds σ.chan [] false none := by
    cases h with
    | idle _ hchan _ => exact hchan
    | files hq _ _ _ => rw [hasked] at hq; cases hq
    | first f rest hf hq _ _ _ => rw [hasked] at hq; cases hq
    | second d hq _ _ _ => rw [hasked] at hq; cases hq
  have hne : m.msg_type ≠ cbMonitorReady := by
    rw [hlist]
    decide
  have hproc : σ.chan.process p msg = σ.chan.onFormatList p m.data := by
    simp only [ClipboardChannel.process, hread, ClipboardChannel.handle, if_neg hne, if_pos hlist]
  unfold step
  simp only [hread, if_pos hlist, hproc, hasked, List.nil_append]
  cases hfiles : (if p.wants_remote_files then ClipboardChannel.fileFormat m.data else none) with
  | some id =>
    have htakes : takesFiles p m = true := by
      unfold takesFiles
      split_ifs at hfiles with hw
      rw [hw, hfiles]
      rfl
    simp only [ClipboardChannel.onFormatList, hfiles, htakes, if_true]
    refine .files rfl ⟨hchan.1, rfl, hchan.3, hchan.4⟩ rfl ?_
    split_ifs <;> rfl
  | none =>
    have htakes : takesFiles p m = false := by
      unfold takesFiles
      split_ifs at hfiles with hw
      · rw [hfiles, Option.isSome_none, Bool.and_false]
      · rw [Bool.not_eq_true] at hw
        rw [hw, Bool.false_and]
    simp only [ClipboardChannel.onFormatList, hfiles, htakes, Bool.false_eq_true, if_false]
    generalize hw : ClipboardChannel.wantedFormats m.data = wanted
    have hreq := requests_next (σ.lists + 1) { σ.chan with pending_formats := wanted } rfl
    have hwanted : wanted = [] ∨ wanted = [cfUnicodetext] ∨ wanted = [cfDib] ∨ wanted = [cfUnicodetext, cfDib] := by
      subst hw
      unfold ClipboardChannel.wantedFormats
      dsimp only
      split_ifs <;> simp
    have hack : ∀ out, requests (σ.lists + 1) (⟨cbFormatListResponse, cbResponseOk, []⟩ :: out) =
        requests (σ.lists + 1) out := fun out => rfl
    rw [hack, hreq]
    cases wanted with
    | nil => exact .idle rfl ⟨rfl, hchan.2, hchan.3, hchan.4⟩ rfl
    | cons f rest =>
      exact .first f rest (hwanted.resolve_left fun h => by cases h) rfl ⟨rfl, hchan.2, hchan.3, hchan.4⟩ rfl rfl

theorem response_descriptors {c : ClipboardChannel} (h : Holds c [] true none) (data : List UInt8) :
    c.onFormatDataResponse true data = ({ c with
          expecting_descriptors := false, remote_files := parseFileDescriptors data
          fetch_index := 0, fetch_received := 0 },
        [], [.offerRemoteFiles (parseFileDescriptors data)]) := by
  unfold ClipboardChannel.onFormatDataResponse
  rw [if_neg (by decide), if_pos h.2]

theorem response_text_last {c : ClipboardChannel} (h : Holds c [cfUnicodetext] false none)
    (data : List UInt8) : c.onFormatDataResponse true data =
      ({ c with pending_formats := [], paste_text := none, paste_image := none }, [],
        [.setContents (some (decodeUnicode data)) none]) := by
  obtain ⟨h1, h2, h3, h4⟩ := h
  cases c
  subst h1 h2 h3 h4
  rfl

theorem response_text {c : ClipboardChannel} (h : Holds c [cfUnicodetext, cfDib] false none)
    (data : List UInt8) : c.onFormatDataResponse true data =
      ({ c with pending_formats := [cfDib], paste_text := some (decodeUnicode data) },
        ClipboardChannel.nextFormatRequest { c with pending_formats := [cfDib] }, []) := by
  obtain ⟨h1, h2, h3, h4⟩ := h
  cases c
  subst h1 h2 h3 h4
  rfl

theorem response_image {c : ClipboardChannel} {text : Option (List Char)}
    (h : Holds c [cfDib] false text) (data : List UInt8) : c.onFormatDataResponse true data =
      ({ c with pending_formats := [], paste_text := none, paste_image := none }, [],
        [.setContents text (some data)]) := by
  obtain ⟨h1, h2, h3, h4⟩ := h
  cases c
  subst h1 h2 h3 h4
  rfl

theorem Phase.response {σ : Paste} (h : Phase σ) (p : Provider) {msg : List UInt8} {m : Message}
    (hread : Message.read msg = some m) (hresponse : m.msg_type = cbFormatDataResponse)
    (hasked : σ.asked ≠ []) (hfail : m.msg_flags &&& cbResponseOk = 0 → σ.answered = []) :
    Phase (σ.step (p, msg)) := by
  have hne : m.msg_type ≠ cbMonitorReady ∧ m.msg_type ≠ cbFormatList ∧ m.msg_type ≠ cbFormatDataRequest := by
    rw [hresponse]
    decide
  have hproc : σ.chan.process p msg = σ.chan.onFormatDataResponse (m.msg_flags &&& cbResponseOk != 0) m.data := by
    simp only [ClipboardChannel.process, hread, ClipboardChannel.handle, if_neg hne.1, if_neg hne.2.1,
      if_neg hne.2.2, if_pos hresponse]
  unfold step
  simp only [hread, if_neg hne.2.1, if_pos hresponse, hproc]
  by_cases hok : m.msg_flags &&& cbResponseOk = 0
  · -- A failure: the next format is asked for, if there is one.
    have hnil := hfail hok
    have hout : σ.chan.onFormatDataResponse (m.msg_flags &&& cbResponseOk != 0) m.data =
        ({ σ.chan with expecting_descriptors := false, pending_formats := σ.chan.pending_formats.tail },
          ClipboardChannel.nextFormatRequest { σ.chan with
            expecting_descriptors := false, pending_formats := σ.chan.pending_formats.tail }, []) := by
      rw [hok]
      rfl
    have hsame : (match σ.asked.head? with
        | some (list, .format id) =>
          if list = σ.lists ∧ m.msg_flags &&& cbResponseOk ≠ 0 then σ.answered ++ [(id, m.data)]
          else σ.answered
        | _ => σ.answered) = [] := by
      split
      · rw [if_neg fun h => h.2 hok, hnil]
      · exact hnil
    rw [hout, hsame, requests_next σ.lists _ rfl]
    cases h with
    | idle hq _ _ => exact absurd hq hasked
    | files hq hchan _ htold =>
      rw [hq, htold, hchan.1]
      exact .idle rfl ⟨rfl, rfl, hchan.3, hchan.4⟩ rfl
    | second d _ _ hanswered _ => rw [hanswered] at hnil; cases hnil
    | first f rest hf hq hchan _ htold =>
      rw [hq, htold, hchan.1]
      cases rest with
      | nil => exact .idle rfl ⟨rfl, rfl, hchan.3, hchan.4⟩ rfl
      | cons g rest =>
        obtain ⟨rfl, rfl, rfl⟩ : f = cfUnicodetext ∧ g = cfDib ∧ rest = [] := by simpa using hf
        exact .first cfDib [] (.inr (.inl rfl)) rfl ⟨rfl, rfl, hchan.3, hchan.4⟩ rfl rfl
  · -- A success: the data is for the format asked for first.
    have htrue : (m.msg_flags &&& cbResponseOk != 0) = true := bne_iff_ne.mpr hok
    rw [htrue]
    cases h with
    | idle hq _ _ => exact absurd hq hasked
    | files hq hchan hanswered htold =>
      rw [response_descriptors hchan, hq, hanswered, htold]
      exact .idle rfl ⟨hchan.1, rfl, hchan.3, hchan.4⟩ rfl
    | first f rest hf hq hchan hanswered htold =>
      rcases hf with hf | hf | hf <;> cases hf
      · rw [response_text_last hchan, hq, hanswered, htold]
        simp only [List.head?_cons, true_and, ne_eq, hok, not_false_eq_true, if_true]
        exact .idle rfl ⟨rfl, hchan.2, rfl, rfl⟩ rfl
      · rw [response_image hchan, hq, hanswered, htold]
        simp only [List.head?_cons, true_and, ne_eq, hok, not_false_eq_true, if_true]
        exact .idle rfl ⟨rfl, hchan.2, rfl, rfl⟩ rfl
      · rw [response_text hchan, hq, hanswered, htold]
        simp only [List.head?_cons, true_and, ne_eq, hok, not_false_eq_true, if_true]
        exact .second m.data (requests_next σ.lists { σ.chan with pending_formats := [cfDib] } rfl)
          ⟨rfl, hchan.2, rfl, hchan.4⟩ rfl rfl
    | second d hq hchan hanswered htold =>
      rw [response_image hchan, hq, hanswered, htold]
      simp only [List.head?_cons, true_and, ne_eq, hok, not_false_eq_true, if_true]
      exact .idle rfl ⟨rfl, hchan.2, rfl, rfl⟩ rfl

theorem Phase.other {σ : Paste} (h : Phase σ) (p : Provider) {msg : List UInt8} {m : Message}
    (hread : Message.read msg = some m) (hlist : m.msg_type ≠ cbFormatList)
    (hresponse : m.msg_type ≠ cbFormatDataResponse) : Phase (σ.step (p, msg)) := by
  have ha := aside_handle σ.chan p hlist hresponse
  have hstep : σ.step (p, msg) = { σ with chan := (σ.chan.handle p m).1 } := by
    unfold step
    simp only [ClipboardChannel.process, hread, if_neg hlist, if_neg hresponse, ha.requests, ha.calls, List.append_nil]
  rw [hstep]
  cases h with
  | idle hasked hchan htold => exact .idle hasked (ha.holds hchan) htold
  | files hasked hchan hanswered htold => exact .files hasked (ha.holds hchan) hanswered htold
  | first f rest hf hasked hchan hanswered htold => exact .first f rest hf hasked (ha.holds hchan) hanswered htold
  | second d hasked hchan hanswered htold => exact .second d hasked (ha.holds hchan) hanswered htold

theorem Phase.step {σ : Paste} (h : Phase σ) (a : Provider × List UInt8) (hans : σ.Answers a)
    (hord : σ.Orderly a) : Phase (σ.step a) := by
  obtain ⟨p, msg⟩ := a
  cases hread : Message.read msg with
  | none =>
    have hstep : σ.step (p, msg) = σ := by
      unfold Paste.step
      simp only [hread]
    rwa [hstep]
  | some m =>
    by_cases hlist : m.msg_type = cbFormatList
    · exact h.list p hread hlist ((hord m hread).1 hlist)
    · by_cases hresponse : m.msg_type = cbFormatDataResponse
      · exact h.response p hread hresponse (hans m hread hresponse) ((hord m hread).2 hresponse)
      · exact h.other p hread hlist hresponse

end Paste

/-- In every run in which the server answers in order, no list comes while a request is out and a list's
last request does not fail after another was answered, what the provider is told is whole and fresh. -/
theorem paste_whole (as : List (Provider × List UInt8)) (hans : Along Paste.step Paste.Answers .new as)
    (hord : Along Paste.step Paste.Orderly .new as) : (run Paste.step .new as).Whole :=
  (invariant_along Paste.Phase Paste.phase_new (fun _ a h ha => h.step a ha.1 ha.2) (along_and.mpr ⟨hans, hord⟩)).whole

def emptyClipboard : Provider := ⟨none, [], none, fun _ _ _ => none, false⟩

def textAndImage : List (Provider × List UInt8) :=
  [(emptyClipboard, (formatList true false true).bytes),
    (emptyClipboard, (⟨cbFormatDataResponse, cbResponseOk, [65, 0, 0, 0]⟩ : Message).bytes)]

/-- The image comes, too. -/
theorem paste_whole_text_and_image : (run Paste.step .new (textAndImage ++
    [(emptyClipboard, (⟨cbFormatDataResponse, cbResponseOk, [40, 0]⟩ : Message).bytes)])).Whole :=
  paste_whole _ (by decide +kernel) (by decide +kernel)

/-- The image fails, and the text is never told. -/
theorem paste_text_lost :
    let as := textAndImage ++
      [(emptyClipboard, (⟨cbFormatDataResponse, cbResponseFail, []⟩ : Message).bytes)]
    Along Paste.step Paste.Answers .new as ∧ ¬ (run Paste.step .new as).Whole ∧
      (run Paste.step .new as).asked = [] ∧ (run Paste.step .new as).told = [] := by
  decide +kernel

end Rdpio.Channels.Cliprdr
