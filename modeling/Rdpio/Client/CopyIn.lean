import Rdpio.Client.HyperClipboard
import Rdpio.Lib.Run
import Rdpio.Lib.Transducer

/-!
# A copy that comes in whole

An honest peer sends the list of a copy and then the data of its files, each file's from its start on.
-/

namespace Rdpio.Client.HyperClipboard

open Lib

structure World where
  slot : Option Incoming := none
  disk : Disk
  pasted : Option (List Path) := none

def World.step (w : World) (event : Env × Message) : World :=
  let o := applyNow event.1 w.slot event.2
  ⟨o.slot, o.ops.foldl Op.apply w.disk, o.paste⟩

/-- A file system that does what it is asked to: everything can be created and written. -/
def Env.Works (env : Env) : Prop := env.creates = (fun _ => true) ∧ env.stops = none

def Distinct (entries : List FileEntry) : Prop :=
  entries.Pairwise fun a b => a.is_dir = false → b.is_dir = false → relativePath a.name ≠ relativePath b.name

instance (entries : List FileEntry) : Decidable (Distinct entries) := inferInstanceAs (Decidable (List.Pairwise _ _))

/-- Chunks of files, in the order they are sent: none is empty, and no file gets more than its size. -/
structure Stream (entries : List FileEntry) (chunks : List (UInt32 × List UInt8)) : Prop where
  file : ∀ c ∈ chunks, c.2 ≠ [] ∧ ∃ e, entries[c.1.toNat]? = some e ∧ e.is_dir = false
  fits : ∀ c ∈ chunks, ∀ e, entries[c.1.toNat]? = some e → (under c.1 chunks).flatten.length ≤ e.size.toNat

def chunkMessage (transfer : UInt32) (before : List (UInt32 × List UInt8))
    (c : UInt32 × List UInt8) : Message :=
  .fileChunk transfer c.1 (UInt64.ofNat (under c.1 before).flatten.length) c.2

def chunkMessages (transfer : UInt32) (before : List (UInt32 × List UInt8)) : List (UInt32 × List UInt8) → List Message
  | [] => []
  | c :: chunks => chunkMessage transfer before c :: chunkMessages transfer (before ++ [c]) chunks

theorem writeAt_end (bytes data : List UInt8) : writeAt bytes bytes.length data = bytes ++ data := by
  unfold writeAt
  rw [List.take_length, Nat.sub_self, List.replicate_zero, List.append_nil,
    List.drop_eq_nil_of_le (Nat.le_add_right ..), List.append_nil]

theorem apply_chunk (disk : Disk) (path : Path) (bytes data : List UInt8) (hdata : data ≠ [])
    (opened : List Op)
    (h : opened = [.create path] ∧ bytes = [] ∨ opened = [] ∧ disk path = some bytes) :
    (opened ++ [Op.write path bytes.length data]).foldl Op.apply disk =
      Function.update disk path (some (bytes ++ data)) := by
  rcases h with ⟨rfl, rfl⟩ | ⟨rfl, h⟩
  · simp only [List.singleton_append, List.foldl_cons, List.foldl_nil, Op.apply, if_neg hdata,
      Function.update_self, Function.update_idem, Option.getD_some]
    rw [List.length_nil, ← List.length_nil, writeAt_end]
  · simp only [List.nil_append, List.foldl_cons, List.foldl_nil, Op.apply, if_neg hdata, h,
      Option.getD_some, writeAt_end]

theorem layOut_keeps (env : Env) (dir : Path) (entries : List FileEntry) {disk : Disk} {path : Path}
    (h : disk path = some []) :
    (entries.flatMap (layOutEntry env dir)).foldl Op.apply disk path = some [] := by
  have hop : ∀ (ops : List Op) (disk : Disk), disk path = some [] →
      (∀ op ∈ ops, (∃ p, op = .createDirAll p) ∨ ∃ p, op = .create p) →
      ops.foldl Op.apply disk path = some [] := by
    intro ops
    induction ops with
    | nil => exact fun disk h _ => h
    | cons op ops ih =>
      intro disk h hops
      rw [List.foldl_cons]
      refine ih _ ?_ fun o ho => hops o (List.mem_cons_of_mem op ho)
      rcases hops op (List.mem_cons_self ..) with ⟨p, rfl⟩ | ⟨p, rfl⟩
      · exact h
      · by_cases hp : path = p
        · subst hp
          exact Function.update_self ..
        · exact (Function.update_of_ne hp ..).trans h
  refine hop _ disk h fun op hmem => ?_
  obtain ⟨e, -, he⟩ := List.mem_flatMap.mp hmem
  unfold layOutEntry at he
  cases hpath : safeJoin dir e.name with
  | none =>
    rw [hpath] at he
    cases he
  | some p =>
    rw [hpath] at he
    dsimp only at he
    split_ifs at he <;> simp at he
    all_goals grind

theorem layOut_empty (env : Env) (hworks : env.Works) (dir : Path) {entries : List FileEntry}
    {e : FileEntry} (he : e ∈ entries) (hdir : e.is_dir = false) (hsize : e.size = 0) {path : Path}
    (hpath : safeJoin dir e.name = some path) (disk : Disk) :
    (entries.flatMap (layOutEntry env dir)).foldl Op.apply disk path = some [] := by
  obtain ⟨before, after, rfl⟩ := List.append_of_mem he
  have hentry : layOutEntry env dir e = [.createDirAll path.dropLast, .create path] := by
    unfold layOutEntry
    rw [hpath]
    simp [hdir, hsize, hworks.1]
  rw [List.flatMap_append, List.flatMap_cons, hentry, List.foldl_append, List.foldl_append]
  exact layOut_keeps env dir after (Function.update_self ..)

theorem relativePath_of_checkNames {entries : List FileEntry} {total total' : ℕ}
    (h : checkNames entries total = .ok total') : ∀ e ∈ entries, relativePath e.name ≠ none := by
  induction entries generalizing total with
  | nil => simp
  | cons e entries ih =>
    rw [checkNames] at h
    split_ifs at h with hname hpath <;> exact List.forall_mem_cons.mpr ⟨hpath, ih h⟩

theorem accepted {entries : List FileEntry} {total : ℕ} (h : checkEntries entries = .ok total) :
    entries.length ≤ maxFiles ∧ ∀ e ∈ entries, relativePath e.name ≠ none := by
  unfold checkEntries at h
  split_ifs at h with hlen
  refine ⟨Nat.not_lt.mp hlen, ?_⟩
  cases hnames : checkNames entries 0 with
  | error why =>
    rw [hnames] at h
    cases h
  | ok t => exact relativePath_of_checkNames hnames

theorem safeJoin_of_ne_none {name : List Char} (h : relativePath name ≠ none) (dir : Path) :
    ∃ path, safeJoin dir name = some path := by
  obtain ⟨rel, hrel⟩ := Option.ne_none_iff_exists'.mp h
  exact ⟨dir ++ rel, by rw [safeJoin, hrel, Option.map_some]⟩

theorem Distinct.path_ne {entries : List FileEntry} (h : Distinct entries) {i j : ℕ}
    {a b : FileEntry} (ha : entries[i]? = some a) (hb : entries[j]? = some b) (hij : i ≠ j)
    (hda : a.is_dir = false) (hdb : b.is_dir = false) {dir p q : Path}
    (hp : safeJoin dir a.name = some p) (hq : safeJoin dir b.name = some q) : p ≠ q := by
  have hne : relativePath a.name ≠ relativePath b.name := by
    obtain ⟨hi, rfl⟩ := List.getElem?_eq_some_iff.mp ha
    obtain ⟨hj, rfl⟩ := List.getElem?_eq_some_iff.mp hb
    have hpair := List.pairwise_iff_getElem.mp h
    rcases Nat.lt_or_gt_of_ne hij with hlt | hlt
    · exact hpair i j hi hj hlt hda hdb
    · exact (hpair j i hj hi hlt hdb hda).symm
  rintro rfl
  rw [safeJoin, Option.map_eq_some_iff] at hp hq
  obtain ⟨r, hr, hrp⟩ := hp
  obtain ⟨t, ht, htp⟩ := hq
  have heq : r = t := List.append_cancel_left (hrp.trans htp.symm)
  rw [hr, ht, heq] at hne
  exact hne rfl

/-! ## What a copy knows -/

def sent (chunks : List (UInt32 × List UInt8)) (i : UInt32) : List UInt8 := (under i chunks).flatten

@[simp]
theorem sent_nil (i : UInt32) : sent [] i = [] := rfl

theorem sent_concat_self (chunks : List (UInt32 × List UInt8)) (i : UInt32) (data : List UInt8) :
    sent (chunks ++ [(i, data)]) i = sent chunks i ++ data := by
  rw [sent, under_append, under_cons_self, under_nil, List.flatten_append, List.flatten_singleton]
  rfl

theorem sent_concat_of_ne (chunks : List (UInt32 × List UInt8)) {i j : UInt32} (h : j ≠ i)
    (data : List UInt8) : sent (chunks ++ [(i, data)]) j = sent chunks j := by
  rw [sent, under_append, under_cons_of_ne h.symm, under_nil, List.append_nil]
  rfl

/-- Whether there is still data to come of a file. -/
def unfinished (entries : List FileEntry) (chunks : List (UInt32 × List UInt8)) (i : ℕ) : Bool :=
  (entries[i]?).any fun e => hasData e && (sent chunks (UInt32.ofNat i)).length < e.size.toNat

/-- The copy, and the disk, after some chunks. -/
structure Facts (root : Path) (transfer : UInt32) (entries : List FileEntry)
    (chunks : List (UInt32 × List UInt8)) (inc : Incoming) (disk : Disk) : Prop where
  transfer_eq : inc.transfer = transfer
  dir_eq : inc.dir = root ++ [Nat.toDigits 10 transfer.toNat]
  entries_eq : inc.entries = entries
  received : ∀ i, inc.received i = (sent chunks i).length
  open_files : ∀ i e, entries[i.toNat]? = some e → (i ∈ inc.open_files ↔
    sent chunks i ≠ [] ∧ (sent chunks i).length < e.size.toNat)
  remaining : (List.range entries.length).countP (unfinished entries chunks) ≤ inc.remaining
  got : ∀ i : UInt32, i.toNat < entries.length → inc.got[i.toNat]? = some (sent chunks i).length
  disk : ∀ (i : UInt32) e path, entries[i.toNat]? = some e → e.is_dir = false →
    safeJoin inc.dir e.name = some path → sent chunks i ≠ [] ∨ e.size = 0 →
    disk path = some (sent chunks i)

/-- Every file of the list is on the disk with what was sent of it. -/
def Complete (root : Path) (transfer : UInt32) (entries : List FileEntry)
    (chunks : List (UInt32 × List UInt8)) (disk : Disk) : Prop :=
  ∀ (i : UInt32) e, entries[i.toNat]? = some e → e.is_dir = false →
    ∃ path, safeJoin (root ++ [Nat.toDigits 10 transfer.toNat]) e.name = some path ∧ disk path = some (sent chunks i)

section Facts
variable {root : Path} {transfer : UInt32} {entries : List FileEntry}
  {chunks : List (UInt32 × List UInt8)} {inc : Incoming} {disk : Disk}

theorem Facts.complete (h : Facts root transfer entries chunks inc disk)
    (hvetted : ∀ e ∈ entries, relativePath e.name ≠ none) (hzero : inc.remaining = 0) :
    Complete root transfer entries chunks disk := by
  intro i e he hdir
  have hpath := hvetted e (List.mem_of_getElem? he)
  obtain ⟨path, hjoin⟩ := safeJoin_of_ne_none hpath (root ++ [Nat.toDigits 10 transfer.toNat])
  refine ⟨path, hjoin, h.disk i e path he hdir (by rw [h.dir_eq, hjoin]) ?_⟩
  by_cases hsize : e.size = 0
  · exact .inr hsize
  · refine .inl fun hnil => ?_
    -- Nothing of it was sent, so it is still counted.
    have hmem : i.toNat ∈ List.range entries.length := List.mem_range.mpr (List.getElem?_eq_some_iff.mp he).1
    have hpos : 0 < e.size.toNat := by
      rcases Nat.eq_zero_or_pos e.size.toNat with h0 | h0
      · exact absurd (UInt64.toNat_inj.mp h0) hsize
      · exact h0
    have hunfinished : unfinished entries chunks i.toNat = true := by
      rw [unfinished, he, UInt32.ofNat_toNat, hnil]
      simp [hasData, hdir, hsize, hpath, Option.isSome_iff_ne_none, hpos]
    have hcount := List.countP_pos_iff.mpr ⟨_, hmem, hunfinished⟩
    have hrem := h.remaining
    omega

theorem countP_lt {α : Type*} {l : List α} {p q : α → Bool} (h : ∀ x ∈ l, q x = true → p x = true)
    {y : α} (hy : y ∈ l) (hp : p y = true) (hq : q y = false) : l.countP q < l.countP p := by
  induction l with
  | nil => cases hy
  | cons x l ih =>
    have hle := List.countP_mono_left fun z hz => h z (List.mem_cons_of_mem x hz)
    rcases List.mem_cons.mp hy with rfl | hy
    · rw [List.countP_cons_of_pos hp, List.countP_cons_of_neg (by simp [hq])]
      omega
    · have hlt := ih (fun z hz => h z (List.mem_cons_of_mem x hz)) hy
      rw [List.countP_cons, List.countP_cons]
      by_cases hqx : q x = true
      · rw [if_pos hqx, if_pos (h x (List.mem_cons_self ..) hqx)]
        omega
      · rw [if_neg hqx]
        omega

theorem Stream.left {before after : List (UInt32 × List UInt8)}
    (h : Stream entries (before ++ after)) : Stream entries before := by
  refine ⟨fun d hd => h.file d (List.mem_append_left _ hd), fun d hd e he => ?_⟩
  have hfits := h.fits d (List.mem_append_left _ hd) e he
  rw [under_append, List.flatten_append, List.length_append] at hfits
  omega

theorem fileChunk_inside {env : Env} (hworks : env.Works) {i : UInt32} {e : FileEntry}
    {offset : UInt64} {data : List UInt8} {path : Path} (ht : inc.transfer = transfer)
    (he : inc.entries[i.toNat]? = some e) (hout : outside e offset data = false)
    (hpath : safeJoin inc.dir e.name = some path) (hleft : inc.received i < e.size.toNat) :
    fileChunk env (some inc) transfer i offset data =
      if i ∉ inc.open_files ∧ env.acts = false then
        { slot := none, ops := abandon env (some inc) }
      else
        written inc i e.size.toNat data
          ((if i ∈ inc.open_files then [] else [Op.create path]) ++
            [.write path offset.toNat data]) := by
  have hslot : (some inc).filter (·.transfer = transfer) = some inc := Option.filter_some_pos (by simpa using ht)
  unfold fileChunk
  rw [hslot]
  dsimp only
  rw [he]
  dsimp only
  rw [hout, hpath]
  dsimp only
  rw [if_neg Bool.false_ne_true, if_neg (Nat.not_le.mpr hleft), hworks.1, hworks.2, Bool.and_true]

/-- The copy after a chunk that is not its file's last. -/
def Incoming.wrote (inc : Incoming) (i : UInt32) (data : List UInt8) : Incoming :=
  { inc with
    open_files := i :: inc.open_files
    received := Function.update inc.received i (inc.received i + data.length)
    got := inc.got.set i.toNat (inc.received i + data.length) }

/-- The copy after a file's last chunk. -/
def Incoming.closed (inc : Incoming) (i : UInt32) (data : List UInt8) : Incoming :=
  { inc.wrote i data with
    open_files := (i :: inc.open_files).filter (· ≠ i)
    remaining := inc.remaining - 1 }

theorem written_eq (inc : Incoming) (i : UInt32) (size : ℕ) (data : List UInt8) (ops : List Op) :
    written inc i size data ops =
      if inc.received i + data.length < size then { slot := some (inc.wrote i data), ops }
      else if 0 < inc.remaining - 1 then { slot := some (inc.closed i data), ops }
      else { slot := none, ops, paste := finished (inc.closed i data) } := rfl

theorem Facts.wrote (h : Facts root transfer entries chunks inc disk) (hdistinct : Distinct entries)
    (hlen : entries.length ≤ maxFiles) {i : UInt32} {data : List UInt8}
    (hs : Stream entries (chunks ++ [(i, data)])) {e : FileEntry}
    (he : entries[i.toNat]? = some e) (hdir : e.is_dir = false) {path : Path}
    (hpath : safeJoin inc.dir e.name = some path) {inc' : Incoming}
    (hsame : inc'.transfer = inc.transfer ∧ inc'.dir = inc.dir ∧ inc'.entries = inc.entries ∧
      inc'.received = (inc.wrote i data).received ∧ inc'.got = (inc.wrote i data).got)
    (hopen : ∀ j, j ≠ i → (j ∈ inc'.open_files ↔ j ∈ inc.open_files))
    (hopen_self : i ∈ inc'.open_files ↔ inc.received i + data.length < e.size.toNat)
    (hrem : inc.received i + data.length < e.size.toNat ∧ inc'.remaining = inc.remaining ∨
      e.size.toNat ≤ inc.received i + data.length ∧ inc'.remaining = inc.remaining - 1) :
    Facts root transfer entries (chunks ++ [(i, data)]) inc'
      (Function.update disk path (some (sent chunks i ++ data))) := by
  obtain ⟨htransfer, hdireq, hentries, hreceived, hgot⟩ := hsame
  have hdata : data ≠ [] := (hs.file (i, data) (by simp)).1
  have hpos : 0 < data.length := List.length_pos_iff.mpr hdata
  have hself := sent_concat_self chunks i data
  have hfits : (sent chunks i ++ data).length ≤ e.size.toNat := by
    rw [← hself]
    exact hs.fits (i, data) (by simp) e he
  rw [List.length_append] at hfits
  have hn := h.received i
  have hi : i.toNat < entries.length := (List.getElem?_eq_some_iff.mp he).1
  have hother : ∀ j : ℕ, j < entries.length → j ≠ i.toNat → UInt32.ofNat j ≠ i := by
    rintro j hj hne rfl
    rw [UInt32.toNat_ofNat'] at hne
    unfold maxFiles at hlen
    omega
  constructor
  case transfer_eq => rw [htransfer, h.transfer_eq]
  case dir_eq => rw [hdireq, h.dir_eq]
  case entries_eq => rw [hentries, h.entries_eq]
  case received =>
    intro j
    rw [hreceived]
    by_cases hj : j = i
    · subst hj
      rw [hself, List.length_append, ← hn]
      exact Function.update_self ..
    · rw [sent_concat_of_ne chunks hj, ← h.received j]
      exact Function.update_of_ne hj ..
  case open_files =>
    intro j a ha
    by_cases hj : j = i
    · subst hj
      rw [he] at ha
      cases ha
      rw [hopen_self, hself, List.length_append, hn]
      simp [hdata]
    · rw [hopen j hj, sent_concat_of_ne chunks hj]
      exact h.open_files j a ha
  -- Files are only ever finished by a chunk, and at most the chunk's own.
  case remaining =>
    have hle := h.remaining
    have hkept : ∀ j ∈ List.range entries.length,
        unfinished entries (chunks ++ [(i, data)]) j = true → unfinished entries chunks j = true := by
      intro j hj hu
      have hlt := List.mem_range.mp hj
      by_cases hji : j = i.toNat
      · subst hji
        unfold unfinished at hu ⊢
        rw [he, UInt32.ofNat_toNat, hself] at hu
        rw [he, UInt32.ofNat_toNat]
        simp only [Option.any_some, Bool.and_eq_true, List.length_append, decide_eq_true_eq] at hu ⊢
        exact ⟨hu.1, by omega⟩
      · unfold unfinished at hu ⊢
        rwa [sent_concat_of_ne chunks (hother j hlt hji)] at hu
    rcases hrem with ⟨-, hrem⟩ | ⟨hdone, hrem⟩
    · have hmono := List.countP_mono_left hkept
      omega
    · -- The file was counted before its last chunk, and is not after it.
      have hbefore : unfinished entries chunks i.toNat = true := by
        have hvetted : (relativePath e.name).isSome := by
          rw [safeJoin, Option.map_eq_some_iff] at hpath
          obtain ⟨r, hr, -⟩ := hpath
          rw [hr]
          rfl
        have hsize : e.size ≠ 0 := by
          intro h0
          rw [h0] at hfits
          have hzero : (0 : UInt64).toNat = 0 := rfl
          omega
        rw [unfinished, he, UInt32.ofNat_toNat]
        simp only [Option.any_some, hasData, hdir, hvetted, Bool.and_eq_true, decide_eq_true_eq]
        exact ⟨by simpa using hsize, by omega⟩
      have hafter : unfinished entries (chunks ++ [(i, data)]) i.toNat = false := by
        rw [unfinished, he, UInt32.ofNat_toNat, hself, List.length_append]
        simp only [Option.any_some, Bool.and_eq_false_iff, decide_eq_false_iff_not]
        exact .inr (by omega)
      have hlt := countP_lt hkept (List.mem_range.mpr hi) hbefore hafter
      omega
  case got =>
    intro j hj
    rw [hgot]
    change (inc.got.set i.toNat _)[j.toNat]? = _
    by_cases hji : j = i
    · subst hji
      have hlt : j.toNat < inc.got.length := (List.getElem?_eq_some_iff.mp (h.got j hj)).1
      rw [List.getElem?_set_self hlt, hself, List.length_append, hn]
    · have hne : i.toNat ≠ j.toNat := fun heq => hji (UInt32.toNat_inj.mp heq).symm
      rw [List.getElem?_set_ne hne, h.got j hj, sent_concat_of_ne chunks hji]
  case disk =>
    intro j a q ha hda hq hsent
    rw [hdireq] at hq
    by_cases hji : j = i
    · subst hji
      rw [he] at ha
      cases ha
      rw [hpath] at hq
      cases hq
      rw [hself]
      exact Function.update_self ..
    · -- Another file has another path, which the write leaves alone.
      have hne : q ≠ path := hdistinct.path_ne ha he (fun heq => hji (UInt32.toNat_inj.mp heq)) hda hdir hq hpath
      rw [sent_concat_of_ne chunks hji] at hsent ⊢
      rw [Function.update_of_ne hne]
      exact h.disk j a q ha hda hq hsent

def Held (root : Path) (transfer : UInt32) (entries : List FileEntry)
    (chunks : List (UInt32 × List UInt8)) (w : World) : Prop :=
  (∀ inc, w.slot = some inc → Facts root transfer entries chunks inc w.disk) ∧
    (w.pasted ≠ none → Complete root transfer entries chunks w.disk)

theorem Held.chunk {w : World} (h : Held root transfer entries chunks w)
    (hdistinct : Distinct entries) (hlen : entries.length ≤ maxFiles)
    (hvetted : ∀ e ∈ entries, relativePath e.name ≠ none) {c : UInt32 × List UInt8}
    (hs : Stream entries (chunks ++ [c])) {env : Env} (hworks : env.Works) :
    Held root transfer entries (chunks ++ [c]) (w.step (env, chunkMessage transfer chunks c)) := by
  obtain ⟨i, data⟩ := c
  unfold World.step chunkMessage
  dsimp only
  rw [applyNow]
  cases hslot : w.slot with
  | none =>
    refine ⟨fun inc hinc => ?_, fun hp => ?_⟩
    · cases hinc
    · exact absurd rfl hp
  | some inc =>
    have hf := h.1 inc hslot
    obtain ⟨hdata, e, he, hdir⟩ := hs.file (i, data) (by simp)
    have hfits := hs.fits (i, data) (by simp) e he
    change (sent (chunks ++ [(i, data)]) i).length ≤ _ at hfits
    rw [sent_concat_self, List.length_append] at hfits
    have hpos : 0 < data.length := List.length_pos_iff.mpr hdata
    have hn := hf.received i
    have hoffset : (UInt64.ofNat (under i chunks).flatten.length).toNat = (sent chunks i).length := by
      have hsize := e.size.toNat_lt
      have hlt : (sent chunks i).length < 2^64 := by omega
      exact UInt64.toNat_ofNat_of_lt' hlt
    obtain ⟨path, hpath⟩ := safeJoin_of_ne_none (hvetted e (List.mem_of_getElem? he)) inc.dir
    have hout : outside e (UInt64.ofNat (under i chunks).flatten.length) data = false := by
      unfold outside
      rw [hdir, hoffset, Bool.false_or]
      exact decide_eq_false (by omega)
    have hchunk := fileChunk_inside hworks hf.transfer_eq
      (show inc.entries[i.toNat]? = some e by rw [hf.entries_eq, he]) hout hpath (by omega)
    rw [hchunk]
    by_cases hfail : i ∉ inc.open_files ∧ env.acts = false
    · rw [if_pos hfail]
      refine ⟨fun inc hinc => ?_, fun hp => ?_⟩
      · cases hinc
      · exact absurd rfl hp
    · rw [if_neg hfail]
      have hopened := hf.open_files i e he
      -- A file that is not open has nothing in it yet.
      have hdisk : ((if i ∈ inc.open_files then [] else [Op.create path]) ++
          [Op.write path (UInt64.ofNat (under i chunks).flatten.length).toNat data]).foldl Op.apply
            w.disk = Function.update w.disk path (some (sent chunks i ++ data)) := by
        rw [hoffset]
        refine apply_chunk w.disk path (sent chunks i) data hdata _ ?_
        by_cases ho : i ∈ inc.open_files
        · rw [if_pos ho]
          exact .inr ⟨rfl, hf.disk i e path he hdir hpath (.inl (hopened.mp ho).1)⟩
        · rw [if_neg ho]
          refine .inl ⟨rfl, ?_⟩
          by_contra hne
          exact ho (hopened.mpr ⟨hne, by omega⟩)
      generalize (if i ∈ inc.open_files then [] else [Op.create path]) ++
        [Op.write path (UInt64.ofNat (under i chunks).flatten.length).toNat data] = ops at hdisk ⊢
      rw [written_eq]
      split_ifs with hmore hleft
      · refine ⟨fun inc' hinc => ?_, fun hp => absurd rfl hp⟩
        cases hinc
        dsimp only
        rw [hdisk]
        exact hf.wrote hdistinct hlen hs he hdir hpath ⟨rfl, rfl, rfl, rfl, rfl⟩
          (fun j hj => by simp [Incoming.wrote, hj]) (by simp [Incoming.wrote, hmore])
          (.inl ⟨hmore, rfl⟩)
      · refine ⟨fun inc' hinc => ?_, fun hp => absurd rfl hp⟩
        cases hinc
        dsimp only
        rw [hdisk]
        exact hf.wrote hdistinct hlen hs he hdir hpath ⟨rfl, rfl, rfl, rfl, rfl⟩
          (fun j hj => by simp [Incoming.closed, hj]) (by simp [Incoming.closed, hmore])
          (.inr ⟨by omega, rfl⟩)
      · refine ⟨fun inc' hinc => (by cases hinc), fun _ => ?_⟩
        dsimp only
        rw [hdisk]
        have hclosed : Facts root transfer entries (chunks ++ [(i, data)]) (inc.closed i data)
            (Function.update w.disk path (some (sent chunks i ++ data))) :=
          hf.wrote hdistinct hlen hs he hdir hpath ⟨rfl, rfl, rfl, rfl, rfl⟩
            (fun j hj => by simp [Incoming.closed, hj]) (by simp [Incoming.closed, hmore])
            (.inr ⟨by omega, rfl⟩)
        exact hclosed.complete hvetted (Nat.eq_zero_of_not_pos hleft)

theorem countP_range_any {α : Type*} (l : List α) (p : α → Bool) :
    (List.range l.length).countP (fun i => (l[i]?).any p) = l.countP p := by
  induction l using List.reverseRecOn with
  | nil => rfl
  | append_singleton l a ih =>
    have hinit : (List.range l.length).countP (fun i => ((l ++ [a])[i]?).any p) =
        (List.range l.length).countP (fun i => (l[i]?).any p) := by
      refine List.countP_congr fun i hi => ?_
      rw [List.getElem?_append_left (List.mem_range.mp hi)]
    rw [List.length_append, List.length_singleton, List.range_succ, List.countP_append, hinit, ih, List.countP_append]
    simp [List.countP_cons]

theorem facts_laid_out {env : Env} (hworks : env.Works) (disk : Disk)
    {inc : Incoming} (htransfer : inc.transfer = transfer)
    (hdir : inc.dir = root ++ [Nat.toDigits 10 transfer.toNat]) (hentries : inc.entries = entries)
    (hopen : inc.open_files = []) (hreceived : inc.received = fun _ => 0)
    (hremaining : inc.remaining = entries.countP hasData)
    (hgot : inc.got = List.replicate entries.length 0) :
    Facts root transfer entries [] inc
      ((entries.flatMap (layOutEntry env inc.dir)).foldl Op.apply disk) := by
  constructor
  case transfer_eq => exact htransfer
  case dir_eq => exact hdir
  case entries_eq => exact hentries
  case received => exact fun i => by rw [hreceived, sent_nil, List.length_nil]
  case open_files =>
    intro i e _
    rw [hopen]
    simp
  case remaining =>
    rw [hremaining, ← countP_range_any entries hasData]
    refine List.countP_mono_left fun i _ hu => ?_
    unfold unfinished at hu
    rw [Option.any_eq_true] at hu ⊢
    obtain ⟨e, he, hdata⟩ := hu
    exact ⟨e, he, (Bool.and_eq_true_iff.mp hdata).1⟩
  case got =>
    intro i hi
    rw [hgot, List.getElem?_replicate, if_pos hi]
    rfl
  case disk =>
    intro i e path he hda hpath hempty
    have hsize : e.size = 0 := hempty.resolve_left fun h => h rfl
    exact layOut_empty env hworks inc.dir (List.mem_of_getElem? he) hda hsize hpath disk

theorem Held.files {total : ℕ} (haccept : checkEntries entries = .ok total) (w : World) {env : Env}
    (hworks : env.Works) (hroot : ∀ r ∈ env.user, r = root) :
    Held root transfer entries [] (w.step (env, .clipboardFiles transfer entries)) := by
  have hnothing : ∀ ops, Held root transfer entries []
      ⟨none, List.foldl Op.apply w.disk ops, none⟩ := fun ops =>
    ⟨fun inc hinc => (by cases hinc), fun hp => absurd rfl hp⟩
  obtain ⟨hlen, hvetted⟩ := accepted haccept
  unfold World.step
  dsimp only
  rw [applyNow]
  cases huser : env.user with
  | none => exact hnothing _
  | some r =>
    obtain rfl : r = root := hroot r huser
    dsimp only
    unfold beginFiles
    rw [haccept]
    dsimp only
    by_cases hacts : env.acts = true
    · rw [if_pos hacts]
      unfold layOut
      by_cases hfree : env.free.any (· < saturatingAdd total minFreeBytes) = true
      · rw [if_pos hfree]
        exact hnothing _
      · rw [if_neg hfree, hworks.1, if_pos rfl]
        dsimp only
        generalize hinc : ({
          transfer
          dir := r ++ [Nat.toDigits 10 transfer.toNat]
          root := r
          entries
          remaining := entries.countP hasData
          got := List.replicate entries.length 0 } : Incoming) = inc
        have hfacts : ∀ disk, Facts r transfer entries [] inc ((entries.flatMap
            (layOutEntry env (r ++ [Nat.toDigits 10 transfer.toNat]))).foldl Op.apply disk) := by
          subst hinc
          exact fun disk => facts_laid_out hworks disk rfl rfl rfl rfl rfl rfl rfl
        have hrem : inc.remaining = entries.countP hasData := by rw [← hinc]
        generalize (if env.removes then [Op.removeDirAll r] else []) = removed
        by_cases hzero : entries.countP hasData = 0
        · -- No file has data: the copy is whole at once.
          rw [if_pos hzero]
          refine ⟨fun inc hinc => (by cases hinc), fun _ => ?_⟩
          dsimp only
          rw [List.foldl_append, List.foldl_append]
          exact (hfacts _).complete hvetted (hrem.trans hzero)
        · rw [if_neg hzero]
          refine ⟨fun inc' hinc' => ?_, fun hp => absurd rfl hp⟩
          cases hinc'
          dsimp only
          rw [List.foldl_append, List.foldl_append]
          exact hfacts _
    · rw [if_neg hacts]
      exact hnothing _

theorem Held.stream (hdistinct : Distinct entries) {total : ℕ}
    (haccept : checkEntries entries = .ok total) {before : List (UInt32 × List UInt8)} {w : World}
    (h : Held root transfer entries before w) (cs : List (UInt32 × List UInt8))
    (hs : Stream entries (before ++ cs)) {events : List (Env × Message)}
    (hworks : ∀ event ∈ events, event.1.Works)
    (hevents : events.map Prod.snd = chunkMessages transfer before cs) :
    Held root transfer entries (before ++ cs) (run World.step w events) := by
  obtain ⟨hlen, hvetted⟩ := accepted haccept
  induction cs generalizing before w events with
  | nil =>
    rw [chunkMessages, List.map_eq_nil_iff] at hevents
    rw [hevents, List.append_nil]
    exact h
  | cons c cs ih =>
    rw [chunkMessages] at hevents
    obtain ⟨event, events, rfl, hc, hrest⟩ := List.map_eq_cons_iff.mp hevents
    rw [← List.singleton_append, ← List.append_assoc] at hs ⊢
    have hstep := h.chunk hdistinct hlen hvetted hs.left (hworks event (List.mem_cons_self ..))
    rw [run_cons]
    refine ih ?_ hs (fun e he => hworks e (List.mem_cons_of_mem event he)) hrest
    rwa [← hc] at hstep

end Facts

/-- A copy arrives as it was sent: whenever the paste is returned, every file of the list is on the disk
with the bytes sent for it, and what the arrival says of a file is on the disk at every moment before. -/
theorem copy_arrives (root : Path) (transfer : UInt32) (entries : List FileEntry)
    (hdistinct : Distinct entries) (total : ℕ) (haccept : checkEntries entries = .ok total)
    (chunks : List (UInt32 × List UInt8)) (hs : Stream entries chunks) (w : World) (env : Env)
    (events : List (Env × Message)) (hroot : ∀ r ∈ env.user, r = root) (henv : env.Works)
    (hworks : ∀ event ∈ events, event.1.Works)
    (hevents : events.map Prod.snd = chunkMessages transfer [] chunks) :
    let w := run World.step (w.step (env, .clipboardFiles transfer entries)) events
    let dir := root ++ [Nat.toDigits 10 transfer.toNat]
    (w.pasted ≠ none → ∀ i e, entries[i]? = some e → e.is_dir = false →
      ∃ path, safeJoin dir e.name = some path ∧ w.disk path = some (sent chunks (UInt32.ofNat i))) ∧
    ∀ inc, w.slot = some inc → ∀ i e path g, entries[i]? = some e → e.is_dir = false →
      safeJoin dir e.name = some path → inc.got[i]? = some g →
      g ≤ (sent chunks (UInt32.ofNat i)).length ∧ (sent chunks (UInt32.ofNat i)).take g <+: (w.disk path).getD [] := by
  intro w dir
  obtain ⟨hlen, -⟩ := accepted haccept
  have hheld : Held root transfer entries chunks w :=
    (Held.files haccept _ henv hroot).stream hdistinct haccept chunks hs hworks hevents
  have hindex : ∀ i e, entries[i]? = some e → (UInt32.ofNat i).toNat = i := by
    intro i e he
    have hi := (List.getElem?_eq_some_iff.mp he).1
    unfold maxFiles at hlen
    exact UInt32.toNat_ofNat_of_lt' (show i < 2^32 by omega)
  refine ⟨fun hp i e he hda => ?_, fun inc hinc i e path g he hda hpath hg => ?_⟩
  · refine hheld.2 hp (UInt32.ofNat i) e ?_ hda
    rw [hindex i e he, he]
  · -- The count is of the bytes sent, and these are on the disk unless there are none.
    have hf := hheld.1 inc hinc
    have hi := (List.getElem?_eq_some_iff.mp he).1
    have hgot := hf.got (UInt32.ofNat i) (by rw [hindex i e he]; exact hi)
    rw [hindex i e he, hg] at hgot
    cases hgot
    refine ⟨le_refl _, ?_⟩
    rw [List.take_length]
    by_cases hsent : sent chunks (UInt32.ofNat i) = []
    · rw [hsent]
      exact List.nil_prefix
    · have hdisk := hf.disk (UInt32.ofNat i) e path (by rw [hindex i e he, he]) hda
        (by rw [hf.dir_eq]; exact hpath) (.inl hsent)
      rw [hdisk]
      exact List.prefix_rfl

def working : Env := { user := some [['t']] }

/-- Two files, one of two chunks, and an empty one. -/
theorem copy_arrives_three :
    let entries : List FileEntry := [⟨['a'], 3, false⟩, ⟨['d', '/', 'b'], 1, false⟩, ⟨['c'], 0, false⟩]
    let chunks : List (UInt32 × List UInt8) := [(0, [1, 2]), (0, [3]), (1, [4])]
    let w := run World.step (World.step ⟨none, fun _ => none, none⟩
        (working, .clipboardFiles 7 entries))
      ((chunkMessages 7 [] chunks).map fun m => (working, m))
    w.pasted ≠ none ∧ w.disk [['t'], ['7'], ['a']] = some [1, 2, 3] := by
  intro entries chunks w
  have hs : Stream entries chunks := by
    constructor
    · simp only [chunks, List.forall_mem_cons, List.not_mem_nil, false_implies, implies_true,
        and_true]
      exact ⟨⟨by decide, _, rfl, rfl⟩, ⟨by decide, _, rfl, rfl⟩, ⟨by decide, _, rfl, rfl⟩⟩
    · decide
  have h := copy_arrives [['t']] 7 entries (by decide +kernel) 4 (by decide +kernel) chunks hs
    ⟨none, fun _ => none, none⟩ working ((chunkMessages 7 [] chunks).map fun m => (working, m))
    (by decide) ⟨rfl, rfl⟩ (by simp [Env.Works, working]) (by simp)
  have hp : w.pasted ≠ none := by decide +kernel
  obtain ⟨path, hpath, hdisk⟩ := h.1 hp 0 ⟨['a'], 3, false⟩ rfl rfl
  have hjoin : safeJoin ([['t']] ++ [Nat.toDigits 10 (7 : UInt32).toNat]) ['a'] =
      some [['t'], ['7'], ['a']] := by decide +kernel
  obtain rfl : path = [['t'], ['7'], ['a']] := Option.some.inj (hpath.symm.trans hjoin)
  exact ⟨hp, hdisk⟩

/-- The same name twice, as from two folders: the paste is returned, and the first file has the second
one's byte. -/
theorem copy_same_path :
    let entries : List FileEntry := [⟨['a'], 1, false⟩, ⟨['a'], 1, false⟩]
    let chunks : List (UInt32 × List UInt8) := [(0, [1]), (1, [2])]
    let w := run World.step (World.step ⟨none, fun _ => none, none⟩
        (working, .clipboardFiles 7 entries))
      ((chunkMessages 7 [] chunks).map fun m => (working, m))
    checkEntries entries = .ok 2 ∧ w.pasted ≠ none ∧ sent chunks 0 = [1] ∧ w.disk [['t'], ['7'], ['a']] = some [2] := by
  decide +kernel

end Rdpio.Client.HyperClipboard
