import Rdpio.Client.CopyBounds

/-!
# Files pasted from the session

`Win32Clipboard` of `crates/rdp-client/src/clipboard.rs`, as the clipboard channel calls it for a list of
entries: each is begun, gets its chunks and is ended, and at the end the top-level entries are reported as
staged.
-/

namespace Rdpio.Client.RdpPaste

open HyperClipboard (Path isSeparator Plain)

/-- The loop of `safe_join`. -/
def safeComponents : List (List Char) → Option Path
  | [] => some []
  | comp :: comps =>
    if comp = [] ∨ comp = ['.'] then safeComponents comps
    else if comp = ['.', '.'] then none
    else if comp.contains ':' then none -- drive-qualified
    else (safeComponents comps).map (comp :: ·)

def safeJoin (base : Path) (name : List Char) : Option Path :=
  ((safeComponents (name.splitOnP isSeparator)).filter (· ≠ [])).map (base ++ ·)

structure Entry where
  name : List Char
  is_dir : Bool
  /-- Each chunk, and after how many bytes its write fails, if it does. -/
  chunks : List (List UInt8 × Option ℕ)
  /-- Can the staging folder be made, where it has to be? -/
  staging : Bool
  create : Bool
  /-- Is space reserved for the whole file? -/
  reserve : Bool

def received (chunks : List (List UInt8 × Option ℕ)) : List UInt8 := chunks.flatMap Prod.fst

def topLevel (name : List Char) : Bool := !name.any isSeparator

section Paste

variable {κ : Type} [DecidableEq κ] (key : Path → κ) (dir : Path)

structure Win32Clipboard (κ : Type) where
  staging : Bool := false
  staged_roots : List Path := []
  /-- The open file, and where its next byte goes. -/
  current : Option (Path × ℕ) := none
  disk : κ → Option (List UInt8) := fun _ => none
  /-- The paths that were to be made or written. -/
  asked : List Path := []

def beginRemoteFile (w : Win32Clipboard κ) (e : Entry) : Win32Clipboard κ :=
  let w := { w with current := none }
  if w.staging || e.staging then
    let w := { w with staging := true }
    match safeJoin dir e.name with
    | none => w
    | some path =>
      let w := if topLevel e.name then { w with staged_roots := w.staged_roots ++ [path] } else w
      if e.is_dir then { w with asked := w.asked ++ [path] }
      else
        let w := { w with asked := w.asked ++ [path.dropLast, path] }
        if e.create then
          let space := if e.reserve then List.replicate (received e.chunks).length 0 else []
          { w with disk := Function.update w.disk (key path) (some space), current := some (path, 0) }
        else w
  else w

def overwrite (old : List UInt8) (pos : ℕ) (data : List UInt8) : List UInt8 :=
  old.take pos ++ data ++ old.drop (pos + data.length)

def writeRemoteChunk (w : Win32Clipboard κ) (chunk : List UInt8 × Option ℕ) : Win32Clipboard κ :=
  match w.current with
  | none => w
  | some (path, pos) =>
    let old := (w.disk (key path)).getD []
    match chunk.2 with
    | none =>
      { w with disk := Function.update w.disk (key path) (some (overwrite old pos chunk.1))
               current := some (path, pos + chunk.1.length) }
    | some n =>
      { w with disk := Function.update w.disk (key path) (some (overwrite old pos (chunk.1.take n))), current := none }

def endRemoteFile (w : Win32Clipboard κ) : Win32Clipboard κ := { w with current := none }

/-- The calls that the channel makes for an entry. -/
def entry (w : Win32Clipboard κ) (e : Entry) : Win32Clipboard κ :=
  endRemoteFile ((if e.is_dir then [] else e.chunks).foldl (writeRemoteChunk key) (beginRemoteFile key dir w e))

def paste (entries : List Entry) : Win32Clipboard κ := entries.foldl (entry key dir) {}

/-- No two files are one. -/
def Own (entries : List Entry) : Prop :=
  entries.Pairwise fun e e' => e.is_dir = false → e'.is_dir = false → ∀ path path',
    safeJoin dir e.name = some path → safeJoin dir e'.name = some path' → key path ≠ key path'

structure Whole (entries : List Entry) : Prop where
  files : ∀ e ∈ entries, e.is_dir = false →
    ∃ path, safeJoin dir e.name = some path ∧ (paste key dir entries).disk (key path) = some (received e.chunks)
  own : Own key dir entries
  inside : ∀ path ∈ (paste key dir entries).asked, ∃ names, path = dir ++ names ∧ ∀ c ∈ names, Plain c

def housed (entries : List Entry) : List Entry := entries.dropWhile fun e => !e.staging

def unhoused (entries : List Entry) : List Entry := entries.takeWhile fun e => !e.staging

/-- How many bytes of an entry reach its file. -/
def landed : List (List UInt8 × Option ℕ) → ℕ
  | [] => 0
  | (data, none) :: chunks => data.length + landed chunks
  | (data, some n) :: _ => min n data.length

/-- Every byte reaches the file, or those that do not are the zeros that are reserved there. -/
def Filled (e : Entry) : Prop :=
  (received e.chunks).drop (landed e.chunks) =
    List.replicate ((if e.reserve then (received e.chunks).length else 0) - landed e.chunks) 0

structure GoesWell (entries : List Entry) : Prop where
  unhoused : ∀ e ∈ unhoused entries, e.is_dir = true
  created : ∀ e ∈ entries, e.is_dir = false → (safeJoin dir e.name).isSome ∧ e.create = true ∧ Filled e
  own : Own key dir entries
  plain : ∀ e ∈ housed entries, ∀ names, safeJoin dir e.name = some (dir ++ names) → ∀ c ∈ names, Plain c

/-! ## One entry -/

/-- What a file holds after its chunks. -/
def fill : List UInt8 → ℕ → List (List UInt8 × Option ℕ) → List UInt8
  | old, _, [] => old
  | old, pos, (data, none) :: chunks => fill (overwrite old pos data) (pos + data.length) chunks
  | old, pos, (data, some n) :: _ => overwrite old pos (data.take n)

theorem overwrite_zeros (pre data : List UInt8) (z : ℕ) :
    overwrite (pre ++ List.replicate z 0) pre.length data = pre ++ data ++ List.replicate (z - data.length) 0 := by
  unfold overwrite
  rw [List.take_left, ← List.drop_drop, List.drop_left, List.drop_replicate]

theorem fill_eq (pre : List UInt8) (z : ℕ) (chunks : List (List UInt8 × Option ℕ)) :
    fill (pre ++ List.replicate z 0) pre.length chunks =
      pre ++ (received chunks).take (landed chunks) ++ List.replicate (z - landed chunks) 0 := by
  induction chunks generalizing pre z with
  | nil => rw [fill, landed, List.take_zero, List.append_nil, Nat.sub_zero]
  | cons chunk chunks ih =>
    obtain ⟨data, fail⟩ := chunk
    have hreceived : received ((data, fail) :: chunks) = data ++ received chunks := List.flatMap_cons ..
    cases fail with
    | none =>
      have hrest := ih (pre ++ data) (z - data.length)
      rw [List.length_append] at hrest
      rw [fill, overwrite_zeros, hrest, landed, hreceived, List.take_length_add_append, Nat.sub_sub]
      simp only [List.append_assoc]
    | some n =>
      have hlen : (data.take n).length = min n data.length := List.length_take
      rw [fill, overwrite_zeros, landed, hreceived, hlen, List.take_append_of_le_length (Nat.min_le_right ..),
        List.take_eq_take_min]

/-- What a file that is made holds at the end. -/
def left (e : Entry) : List UInt8 :=
  (received e.chunks).take (landed e.chunks) ++
    List.replicate ((if e.reserve then (received e.chunks).length else 0) - landed e.chunks) 0

theorem left_eq_iff (e : Entry) : left e = received e.chunks ↔ Filled e := by
  have hsplit := List.take_append_drop (landed e.chunks) (received e.chunks)
  unfold left Filled
  constructor
  · intro h
    exact List.append_cancel_left (hsplit.trans h.symm)
  · intro h
    rw [← h, hsplit]

theorem foldl_write_closed {w : Win32Clipboard κ} (hcur : w.current = none) (chunks : List (List UInt8 × Option ℕ)) :
    chunks.foldl (writeRemoteChunk key) w = w := by
  induction chunks with
  | nil => rfl
  | cons chunk chunks ih =>
    have hstep : writeRemoteChunk key w chunk = w := by
      unfold writeRemoteChunk
      rw [hcur]
    rw [List.foldl_cons, hstep, ih]

theorem foldl_write {w : Win32Clipboard κ} {path : Path} {pos : ℕ} {old : List UInt8}
    (hcur : w.current = some (path, pos)) (hdisk : w.disk (key path) = some old)
    (chunks : List (List UInt8 × Option ℕ)) :
    endRemoteFile (chunks.foldl (writeRemoteChunk key) w) =
      { w with disk := Function.update w.disk (key path) (some (fill old pos chunks)), current := none } := by
  induction chunks generalizing w pos old with
  | nil =>
    have hsame : Function.update w.disk (key path) (some old) = w.disk := Function.update_eq_self_iff.mpr hdisk.symm
    rw [List.foldl_nil, fill, hsame]
    rfl
  | cons chunk chunks ih =>
    obtain ⟨data, fail⟩ := chunk
    rw [List.foldl_cons]
    cases fail with
    | none =>
      have hstep : writeRemoteChunk key w (data, none) =
          { w with disk := Function.update w.disk (key path) (some (overwrite old pos data))
                   current := some (path, pos + data.length) } := by
        unfold writeRemoteChunk
        rw [hcur]
        dsimp only
        rw [hdisk]
        rfl
      rw [hstep, ih rfl (Function.update_self ..), fill]
      dsimp only
      rw [Function.update_idem]
    | some n =>
      have hstep : writeRemoteChunk key w (data, some n) =
          { w with disk := Function.update w.disk (key path) (some (overwrite old pos (data.take n)))
                   current := none } := by
        unfold writeRemoteChunk
        rw [hcur]
        dsimp only
        rw [hdisk]
        rfl
      rw [hstep, foldl_write_closed key rfl, fill]
      rfl

/-- An entry in a staging folder that is there. -/
def settle (w : Win32Clipboard κ) (e : Entry) : Win32Clipboard κ :=
  match safeJoin dir e.name with
  | none => { w with staging := true, current := none }
  | some path =>
    { staging := true
      staged_roots := w.staged_roots ++ if topLevel e.name then [path] else []
      current := none
      disk := if e.is_dir = false ∧ e.create = true then Function.update w.disk (key path) (some (left e)) else w.disk
      asked := w.asked ++ if e.is_dir then [path] else [path.dropLast, path] }

theorem entry_eq (w : Win32Clipboard κ) (e : Entry) :
    entry key dir w e = if w.staging || e.staging then settle key dir w e else { w with current := none } := by
  unfold entry beginRemoteFile settle
  dsimp only
  by_cases hstaging : (w.staging || e.staging) = true
  · rw [if_pos hstaging, if_pos hstaging]
    cases hjoin : safeJoin dir e.name with
    | none =>
      dsimp only
      rw [foldl_write_closed key rfl]
      rfl
    | some path =>
      dsimp only
      have hroots : (if topLevel e.name = true then
          ({ w with current := none, staging := true, staged_roots := w.staged_roots ++ [path] } : Win32Clipboard κ)
          else { w with current := none, staging := true }) =
          { w with current := none, staging := true
                   staged_roots := w.staged_roots ++ if topLevel e.name then [path] else [] } := by
        split_ifs
        · rfl
        · rw [List.append_nil]
      rw [hroots]
      generalize (w.staged_roots ++ if topLevel e.name then [path] else []) = roots
      cases hdir : e.is_dir with
      | true => rfl
      | false =>
        cases hcreate : e.create with
        | true =>
          have hleft : fill (if e.reserve = true then List.replicate (received e.chunks).length 0 else []) 0 e.chunks =
              left e := by
            have hfill := fill_eq [] (if e.reserve = true then (received e.chunks).length else 0) e.chunks
            rw [List.nil_append, List.nil_append, List.length_nil] at hfill
            unfold left
            rw [← hfill]
            congr 1
            split_ifs <;> rfl
          simp only [Bool.false_eq_true, if_false, if_true, and_self]
          rw [foldl_write key rfl (Function.update_self ..) e.chunks]
          dsimp only
          rw [Function.update_idem, hleft]
        | false => exact congrArg endRemoteFile (foldl_write_closed key rfl e.chunks)
  · rw [if_neg hstaging, if_neg hstaging, foldl_write_closed key rfl]
    rfl

/-! ## All of them -/

theorem foldl_unhoused (entries : List Entry) :
    (unhoused entries).foldl (entry key dir) ({} : Win32Clipboard κ) = {} := by
  have hnone : ∀ e ∈ unhoused entries, e.staging = false := fun e he => by
    simpa using List.mem_takeWhile_imp he
  generalize unhoused entries = l at hnone
  induction l with
  | nil => rfl
  | cons e l ih =>
    have hfirst : entry key dir ({} : Win32Clipboard κ) e = {} := by
      rw [entry_eq, hnone e List.mem_cons_self]
      rfl
    rw [List.foldl_cons, hfirst]
    exact ih fun e' he' => hnone e' (List.mem_cons_of_mem e he')

theorem settle_staging (w : Win32Clipboard κ) (e : Entry) : (settle key dir w e).staging = true := by
  unfold settle
  cases safeJoin dir e.name <;> rfl

theorem foldl_settle {w : Win32Clipboard κ} (h : w.staging = true) (l : List Entry) :
    l.foldl (entry key dir) w = l.foldl (settle key dir) w := by
  induction l generalizing w with
  | nil => rfl
  | cons e l ih =>
    have hfirst : entry key dir w e = settle key dir w e := by
      rw [entry_eq, h, Bool.true_or, if_pos rfl]
    rw [List.foldl_cons, List.foldl_cons, hfirst, ih (settle_staging key dir w e)]

theorem paste_eq (entries : List Entry) : paste key dir entries = (housed entries).foldl (settle key dir) {} := by
  have hsplit : entries = unhoused entries ++ housed entries := List.takeWhile_append_dropWhile.symm
  have hall : paste key dir entries = (housed entries).foldl (entry key dir) {} := by
    unfold paste
    conv_lhs => rw [hsplit]
    rw [List.foldl_append, foldl_unhoused]
  rw [hall]
  cases hhoused : housed entries with
  | nil => rfl
  | cons e l =>
    have hstaging : e.staging = true := by
      have hhead := List.head?_dropWhile_not (fun e : Entry => !e.staging) entries
      unfold housed at hhoused
      rw [hhoused] at hhead
      simpa using hhead
    have hfirst : entry key dir ({} : Win32Clipboard κ) e = settle key dir {} e := by
      rw [entry_eq, hstaging, Bool.or_true, if_pos rfl]
    rw [List.foldl_cons, List.foldl_cons, hfirst, foldl_settle key dir (settle_staging key dir _ e)]

def asks (e : Entry) : List Path :=
  match safeJoin dir e.name with
  | none => []
  | some path => if e.is_dir then [path] else [path.dropLast, path]

theorem asked_foldl (w : Win32Clipboard κ) (l : List Entry) :
    (l.foldl (settle key dir) w).asked = w.asked ++ l.flatMap (asks dir) := by
  induction l generalizing w with
  | nil => rw [List.foldl_nil, List.flatMap_nil, List.append_nil]
  | cons e l ih =>
    rw [List.foldl_cons, ih, List.flatMap_cons, ← List.append_assoc]
    congr 1
    unfold settle asks
    cases safeJoin dir e.name with
    | none => exact (List.append_nil _).symm
    | some path => rfl

def Makes (k : κ) (e : Entry) : Prop :=
  e.is_dir = false ∧ e.create = true ∧ ∃ path, safeJoin dir e.name = some path ∧ key path = k

theorem disk_settle_of_not_makes {w : Win32Clipboard κ} {k : κ} {e : Entry} (h : ¬ Makes key dir k e) :
    (settle key dir w e).disk k = w.disk k := by
  unfold settle
  cases hjoin : safeJoin dir e.name with
  | none => rfl
  | some path =>
    dsimp only
    split_ifs with hmade
    · refine Function.update_of_ne ?_ _ _
      rintro rfl
      exact h ⟨hmade.1, hmade.2, path, hjoin, rfl⟩
    · rfl

theorem disk_foldl_of_not_makes {w : Win32Clipboard κ} {k : κ} {l : List Entry} (h : ∀ e ∈ l, ¬ Makes key dir k e) :
    (l.foldl (settle key dir) w).disk k = w.disk k := by
  induction l generalizing w with
  | nil => rfl
  | cons e l ih =>
    rw [List.foldl_cons, ih fun e' he' => h e' (List.mem_cons_of_mem e he')]
    exact disk_settle_of_not_makes key dir (h e List.mem_cons_self)

theorem disk_settle_of_makes {w : Win32Clipboard κ} {path : Path} {e : Entry} (hdir : e.is_dir = false)
    (hcreate : e.create = true) (hjoin : safeJoin dir e.name = some path) :
    (settle key dir w e).disk (key path) = some (left e) := by
  unfold settle
  rw [hjoin]
  dsimp only
  rw [if_pos ⟨hdir, hcreate⟩, Function.update_self]

theorem disk_paste {entries : List Entry} (hown : Own key dir entries) {e : Entry} (he : e ∈ entries)
    (hdir : e.is_dir = false) {path : Path} (hjoin : safeJoin dir e.name = some path) :
    (paste key dir entries).disk (key path) = some (received e.chunks) ↔
      e ∉ unhoused entries ∧ e.create = true ∧ Filled e := by
  have hsplit : entries = unhoused entries ++ housed entries := List.takeWhile_append_dropWhile.symm
  -- No other entry makes that file.
  have hothers : ∀ a b, entries = a ++ e :: b → (∀ e' ∈ a, ¬ Makes key dir (key path) e') ∧
      ∀ e' ∈ b, ¬ Makes key dir (key path) e' := by
    intro a b heq
    unfold Own at hown
    rw [heq, List.pairwise_append, List.pairwise_cons] at hown
    obtain ⟨-, ⟨hafter, -⟩, hbefore⟩ := hown
    constructor
    · rintro e' he' ⟨hdir', -, path', hjoin', hkey⟩
      exact hbefore e' he' e List.mem_cons_self hdir' hdir path' path hjoin' hjoin hkey
    · rintro e' he' ⟨hdir', -, path', hjoin', hkey⟩
      exact hafter e' he' hdir hdir' path path' hjoin hjoin' hkey.symm
  rw [paste_eq]
  by_cases hunhoused : e ∈ unhoused entries
  · refine iff_of_false ?_ fun h => h.1 hunhoused
    obtain ⟨a, b, hab⟩ := List.append_of_mem hunhoused
    have hlater : ∀ e' ∈ housed entries, ¬ Makes key dir (key path) e' := by
      intro e' he'
      refine (hothers a (b ++ housed entries) ?_).2 e' (List.mem_append_right b he')
      rw [← List.cons_append, ← List.append_assoc, ← hab, ← hsplit]
    rw [disk_foldl_of_not_makes key dir hlater]
    exact fun h => nomatch h
  · have hhoused : e ∈ housed entries := by
      rw [hsplit] at he
      exact (List.mem_append.mp he).resolve_left hunhoused
    obtain ⟨a, b, hab⟩ := List.append_of_mem hhoused
    obtain ⟨hbefore, hafter⟩ := hothers (unhoused entries ++ a) b (by
      rw [List.append_assoc, ← hab]
      exact hsplit)
    rw [hab, List.foldl_append, List.foldl_cons, disk_foldl_of_not_makes key dir hafter]
    by_cases hcreate : e.create = true
    · rw [disk_settle_of_makes key dir hdir hcreate hjoin, Option.some.injEq, left_eq_iff]
      exact ⟨fun h => ⟨hunhoused, hcreate, h⟩, fun h => h.2.2⟩
    · refine iff_of_false ?_ fun h => hcreate h.2.1
      rw [disk_settle_of_not_makes key dir fun h => hcreate h.2.1,
        disk_foldl_of_not_makes key dir fun e' he' => hbefore e' (List.mem_append_right _ he')]
      exact fun h => nomatch h

omit [DecidableEq κ] in
theorem safeJoin_eq {name : List Char} {path : Path} (h : safeJoin dir name = some path) :
    ∃ names, names ≠ [] ∧ path = dir ++ names := by
  obtain ⟨names, hnames, rfl⟩ := Option.map_eq_some_iff.mp h
  exact ⟨names, by simpa using (Option.filter_eq_some_iff.mp hnames).2, rfl⟩

theorem whole_iff (entries : List Entry) : Whole key dir entries ↔ GoesWell key dir entries := by
  have hmem : ∀ e, e ∈ unhoused entries ∨ e ∈ housed entries → e ∈ entries := by
    intro e he
    have hsplit : entries = unhoused entries ++ housed entries := List.takeWhile_append_dropWhile.symm
    rw [hsplit]
    exact List.mem_append.mpr he
  have hasked : (paste key dir entries).asked = (housed entries).flatMap (asks dir) := by
    rw [paste_eq, asked_foldl]
    rfl
  constructor
  · intro h
    constructor
    case own => exact h.own
    case unhoused =>
      intro e he
      by_contra hdir
      obtain ⟨path, hjoin, hdisk⟩ := h.files e (hmem e (.inl he)) (by simpa using hdir)
      exact ((disk_paste key dir h.own (hmem e (.inl he)) (by simpa using hdir) hjoin).1 hdisk).1 he
    case created =>
      intro e he hdir
      obtain ⟨path, hjoin, hdisk⟩ := h.files e he hdir
      obtain ⟨-, hcreate, hfilled⟩ := (disk_paste key dir h.own he hdir hjoin).1 hdisk
      exact ⟨by rw [hjoin]; rfl, hcreate, hfilled⟩
    case plain =>
      intro e he names hjoin
      have hask : dir ++ names ∈ (paste key dir entries).asked := by
        rw [hasked]
        refine List.mem_flatMap.mpr ⟨e, he, ?_⟩
        unfold asks
        rw [hjoin]
        dsimp only
        split_ifs <;> simp
      obtain ⟨names', heq, hplain⟩ := h.inside _ hask
      rwa [List.append_cancel_left heq]
  · intro h
    constructor
    case own => exact h.own
    case files =>
      intro e he hdir
      obtain ⟨hsome, hcreate, hfilled⟩ := h.created e he hdir
      obtain ⟨path, hjoin⟩ := Option.isSome_iff_exists.mp hsome
      refine ⟨path, hjoin, (disk_paste key dir h.own he hdir hjoin).2 ⟨fun hun => ?_, hcreate, hfilled⟩⟩
      rw [h.unhoused e hun] at hdir
      cases hdir
    case inside =>
      intro path hpath
      rw [hasked] at hpath
      obtain ⟨e, he, hask⟩ := List.mem_flatMap.mp hpath
      unfold asks at hask
      cases hjoin : safeJoin dir e.name with
      | none =>
        rw [hjoin] at hask
        exact absurd hask List.not_mem_nil
      | some joined =>
        rw [hjoin] at hask
        obtain ⟨names, hne, rfl⟩ := safeJoin_eq dir hjoin
        have hplain := h.plain e he names hjoin
        have hcases : path = (dir ++ names).dropLast ∨ path = dir ++ names := by
          dsimp only at hask
          split_ifs at hask
          · exact .inr (List.mem_singleton.mp hask)
          · simpa using hask
        rcases hcases with rfl | rfl
        · refine ⟨names.dropLast, List.dropLast_append_of_ne_nil hne, fun c hc => ?_⟩
          exact hplain c ((List.dropLast_sublist names).subset hc)
        · exact ⟨names, rfl, hplain⟩

/-- Does a paste report anything: an entry at the top that is joined, in a folder that is there. -/
def Reports (entries : List Entry) : Prop := ∃ e ∈ housed entries, topLevel e.name = true ∧ (safeJoin dir e.name).isSome

theorem roots_foldl (w : Win32Clipboard κ) (l : List Entry) : (l.foldl (settle key dir) w).staged_roots ≠ [] ↔
      w.staged_roots ≠ [] ∨ ∃ e ∈ l, topLevel e.name = true ∧ (safeJoin dir e.name).isSome := by
  induction l generalizing w with
  | nil => simp
  | cons e l ih =>
    have hfirst : (settle key dir w e).staged_roots ≠ [] ↔
        w.staged_roots ≠ [] ∨ topLevel e.name = true ∧ (safeJoin dir e.name).isSome := by
      unfold settle
      cases safeJoin dir e.name with
      | none => simp
      | some path => cases topLevel e.name <;> simp
    rw [List.foldl_cons, ih, hfirst, List.exists_mem_cons_iff, or_assoc]

/-- A finished paste that reports anything is whole just where nothing goes wrong. -/
theorem paste_whole_iff (entries : List Entry) : ((paste key dir entries).staged_roots ≠ [] → Whole key dir entries) ↔
      (Reports dir entries → GoesWell key dir entries) := by
  have hroots : (paste key dir entries).staged_roots ≠ [] ↔ Reports dir entries := by
    rw [paste_eq, roots_foldl]
    exact or_iff_right fun h => h rfl
  rw [hroots, whole_iff]

end Paste

def fullDisk : List Entry := [⟨['a'], false, [([1, 2], some 1)], true, true, true⟩]

/-- The paste is reported all the same, with a zero in place of the second byte. -/
theorem half_file_reported : ¬ ((paste id [['s']] fullDisk).staged_roots ≠ [] → Whole id [['s']] fullDisk) := by
  intro h
  obtain ⟨path, hjoin, hdisk⟩ := (h (by decide)).files _ List.mem_cons_self rfl
  have hpath : safeJoin [['s']] ['a'] = some [['s'], ['a']] := by decide
  rw [hpath] at hjoin
  obtain rfl := Option.some.inj hjoin
  revert hdisk
  decide

end Rdpio.Client.RdpPaste
