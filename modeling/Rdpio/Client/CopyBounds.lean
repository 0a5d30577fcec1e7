import Mathlib.Algebra.BigOperators.Group.List.Basic
import Rdpio.Client.CopyIn

/-!
# Copies of a hostile peer

What any messages may write, and where (`hostile_peer`).
-/

namespace Rdpio.Client.HyperClipboard

open Lib

/-! ## Plain names -/

def deviceNames : List (List Char) :=
  devices ++ deviceDigits.map (['C', 'O', 'M'] ++ ·) ++ deviceDigits.map (['L', 'P', 'T'] ++ ·)

/-- A name that Windows opens as a device: in any case, with spaces or an extension behind it. -/
def DosDevice (name : List Char) : Prop :=
  ∃ stem spaces rest, name = stem ++ (spaces ++ rest) ∧ stem.map Char.toUpper ∈ deviceNames ∧
    (∀ c ∈ spaces, c = ' ') ∧ (rest = [] ∨ rest.head? = some '.')

/-- A component of a path that means a file or a folder of its own. -/
structure Plain (name : List Char) : Prop where
  ne_nil : name ≠ []
  ne_dot : name ≠ ['.']
  ne_dots : name ≠ ['.', '.']
  last_ne_dot : name.getLast? ≠ some '.'
  last_ne_space : name.getLast? ≠ some ' '
  colon : ':' ∉ name
  separator : ∀ c ∈ name, isSeparator c = false
  device : ¬ DosDevice name

theorem isDeviceName_of_dosDevice {name : List Char} (h : DosDevice name) : isDeviceName name = true := by
  obtain ⟨stem, spaces, rest, rfl, hstem, hspaces, hrest⟩ := h
  -- No name of a device has a dot or a space in it, nor has the stem.
  have hplain : ∀ c ∈ stem, c ≠ '.' ∧ c ≠ ' ' := by
    have hnames : ∀ d ∈ deviceNames, '.' ∉ d ∧ ' ' ∉ d := by decide
    intro c hc
    have hup := List.mem_map_of_mem (f := Char.toUpper) hc
    constructor
    · rintro rfl
      exact (hnames _ hstem).1 hup
    · rintro rfl
      exact (hnames _ hstem).2 hup
  have hne : stem ≠ [] := by
    rintro rfl
    exact absurd hstem (by decide)
  have htake : (stem ++ (spaces ++ rest)).takeWhile (· ≠ '.') = stem ++ spaces := by
    rw [List.takeWhile_append_of_pos (by simpa using fun c hc => (hplain c hc).1),
      List.takeWhile_append_of_pos (by
        intro c hc
        rw [hspaces c hc]
        decide)]
    rcases hrest with rfl | hdot
    · rw [List.takeWhile_nil, List.append_nil]
    · obtain ⟨rest, rfl⟩ : ∃ rest', rest = '.' :: rest' := by
        cases rest with
        | nil => cases hdot
        | cons c rest => exact ⟨rest, by rw [Option.some.inj hdot]⟩
      rw [List.takeWhile_cons_of_neg (by decide), List.append_nil]
  have hdrop : (stem ++ spaces).rdropWhile (· = ' ') = stem := by
    rw [List.rdropWhile, List.reverse_append, List.dropWhile_append_of_pos (by
      intro c hc
      rw [hspaces c (List.mem_reverse.mp hc)]
      rfl)]
    obtain ⟨front, last, rfl⟩ := (List.eq_nil_or_concat stem).resolve_left hne
    have hlast := (hplain last (by simp)).2
    rw [List.concat_eq_append, List.reverse_concat, List.dropWhile_cons_of_neg (by simpa using hlast),
      ← List.reverse_concat, List.reverse_reverse]
  have hdevices : ∀ d ∈ deviceNames, (devices.contains d ||
      ((['C', 'O', 'M'].isPrefixOf d || ['L', 'P', 'T'].isPrefixOf d) &&
        deviceDigits.contains (d.drop 3))) = true := by decide
  unfold isDeviceName
  rw [htake, hdrop]
  exact hdevices _ hstem

theorem plain_digits (n : ℕ) : Plain (Nat.toDigits 10 n) := by
  have hdigit : ∀ c ∈ Nat.toDigits 10 n, c.isDigit = true := fun c hc =>
    Nat.isDigit_of_mem_toDigits (by decide) (by decide) hc
  have hnot : ∀ c, c.isDigit = false → c ∉ Nat.toDigits 10 n := fun c hc hmem => by
    rw [hdigit c hmem] at hc
    cases hc
  have hlast : ∀ c, c.isDigit = false → (Nat.toDigits 10 n).getLast? ≠ some c := fun c hc hl =>
    hnot c hc (List.mem_of_getLast? hl)
  constructor
  case ne_nil => exact Nat.toDigits_ne_nil
  case ne_dot => exact fun h => hnot '.' (by decide) (by rw [h]; decide)
  case ne_dots => exact fun h => hnot '.' (by decide) (by rw [h]; decide)
  case last_ne_dot => exact hlast '.' (by decide)
  case last_ne_space => exact hlast ' ' (by decide)
  case colon => exact hnot ':' (by decide)
  case separator =>
    intro c hc
    by_contra hs
    rw [Bool.not_eq_false, isSeparator, Bool.or_eq_true, decide_eq_true_eq, decide_eq_true_eq] at hs
    rcases hs with rfl | rfl
    · exact hnot _ (by decide) hc
    · exact hnot _ (by decide) hc
  case device =>
    -- Every device begins with a letter.
    rintro ⟨stem, spaces, rest, hname, hstem, -⟩
    have hletters : ∀ d ∈ deviceNames, d.any (fun c => !c.isDigit) = true := by decide
    obtain ⟨c, hc, hletter⟩ := List.any_eq_true.mp (hletters _ hstem)
    rw [Bool.not_eq_true'] at hletter
    obtain ⟨x, hx, rfl⟩ := List.mem_map.mp hc
    have hxdigit := hdigit x (by rw [hname]; exact List.mem_append_left _ hx)
    have hup : x.toUpper = x := by
      unfold Char.toUpper
      rw [dif_neg]
      simp only [Char.isDigit, Bool.and_eq_true, decide_eq_true_eq] at hxdigit
      intro hle
      have h1 := UInt32.le_iff_toNat_le.mp hle.1
      have h2 := UInt32.le_iff_toNat_le.mp hxdigit.2
      have h3 : ('a'.val).toNat = 97 := rfl
      have h4 : ('9'.val).toNat = 57 := rfl
      omega
    rw [hup, hxdigit] at hletter
    cases hletter

theorem separator_of_mem_split {name c : List Char} (hc : c ∈ name.splitOnP isSeparator) :
    ∀ x ∈ c, isSeparator x = false := by
  induction name generalizing c with
  | nil =>
    rw [List.splitOnP_nil, List.mem_singleton] at hc
    subst hc
    simp
  | cons a name ih =>
    rw [List.splitOnP_cons_eq_if_modifyHead] at hc
    split_ifs at hc with ha
    · rcases List.mem_cons.mp hc with rfl | hc
      · simp
      · exact ih hc
    · obtain ⟨front, rest, hsplit⟩ := List.exists_cons_of_ne_nil
        (List.splitOnP_ne_nil isSeparator name)
      rw [hsplit, List.modifyHead_cons] at hc
      rcases List.mem_cons.mp hc with rfl | hc
      · intro x hx
        rcases List.mem_cons.mp hx with rfl | hx
        · simpa using ha
        · exact ih (by rw [hsplit]; exact List.mem_cons_self ..) x hx
      · exact ih (by rw [hsplit]; exact List.mem_cons_of_mem _ hc)

theorem plain_of_relativeComponents {cs rel : List (List Char)}
    (h : relativeComponents cs = some rel) (hsep : ∀ c ∈ cs, ∀ x ∈ c, isSeparator x = false) :
    ∀ c ∈ rel, Plain c := by
  induction cs generalizing rel with
  | nil =>
    cases h
    simp
  | cons c cs ih =>
    rw [relativeComponents] at h
    split_ifs at h with hskip hrefused
    · exact ih h fun d hd => hsep d (List.mem_cons_of_mem c hd)
    · obtain ⟨rest, hrest, rfl⟩ := Option.map_eq_some_iff.mp h
      refine List.forall_mem_cons.mpr ⟨?_, ih hrest fun d hd => hsep d (List.mem_cons_of_mem c hd)⟩
      simp only [refusedComponent, Bool.or_eq_true, not_or, Bool.not_eq_true] at hrefused
      obtain ⟨⟨hlast, hcolon⟩, hdevice⟩ := hrefused
      rw [Option.any_eq_false] at hlast
      constructor
      case ne_nil => exact fun h => hskip (.inl h)
      case ne_dot => exact fun h => hskip (.inr h)
      case ne_dots => exact fun h => by simpa [h] using hlast '.'
      case last_ne_dot => exact fun h => by simpa using hlast '.' h
      case last_ne_space => exact fun h => by simpa using hlast ' ' h
      case colon => exact fun h => by simp [h] at hcolon
      case separator => exact hsep c (List.mem_cons_self ..)
      case device => exact fun h => by rw [isDeviceName_of_dosDevice h] at hdevice; cases hdevice

theorem plain_of_safeJoin {base path : Path} {name : List Char} (h : safeJoin base name = some path) :
    ∃ rel, path = base ++ rel ∧ rel ≠ [] ∧ ∀ c ∈ rel, Plain c := by
  obtain ⟨rel, hrel, rfl⟩ := Option.map_eq_some_iff.mp h
  obtain ⟨hcomponents, hne⟩ := Option.filter_eq_some_iff.mp hrel
  exact ⟨rel, rfl, by simpa using hne, plain_of_relativeComponents hcomponents fun c hc => separator_of_mem_split hc⟩

/-! ## What a message does -/

def folder (root : Path) (transfer : UInt32) : Path := root ++ [Nat.toDigits 10 transfer.toNat]

/-- The path that an operation creates or writes. -/
def Op.target : Op → Option Path
  | .removeDirAll _ => none
  | .createDirAll path => some path
  | .create path => some path
  | .write path _ _ => some path

/-- A path that is a folder joined with plain names, at least one. -/
def Inside (root path : Path) : Prop := ∃ names, path = root ++ names ∧ names ≠ [] ∧ ∀ c ∈ names, Plain c

/-- A list that is refused: by its names, its length and sizes, or for want of space. -/
def Refused (env : Env) (entries : List FileEntry) : Prop :=
  ∀ total, checkEntries entries = .ok total → env.free.any (· < saturatingAdd total minFreeBytes) = true

/-- What is done is that the unfinished copy is dropped, if anything. -/
def Drops (slot : Option Incoming) (o : Outcome) : Prop :=
  o.slot = none ∧ o.paste = none ∧ ∀ op ∈ o.ops, ∃ inc, slot = some inc ∧ op = .removeDirAll inc.dir

theorem drops_abandon (env : Env) (slot : Option Incoming) : Drops slot { slot := none, ops := abandon env slot } := by
  refine ⟨rfl, rfl, fun op hop => ?_⟩
  cases slot with
  | none => cases hop
  | some inc =>
    change op ∈ (if env.acts && env.removes then [Op.removeDirAll inc.dir] else []) at hop
    split_ifs at hop
    · exact ⟨inc, rfl, List.mem_singleton.mp hop⟩
    · cases hop

theorem applyNow_files (env : Env) (slot : Option Incoming) (transfer : UInt32)
    (entries : List FileEntry) :
    let o := applyNow env slot (.clipboardFiles transfer entries)
    Drops slot o ∨ ∃ root total, env.user = some root ∧ checkEntries entries = .ok total ∧ ¬ Refused env entries ∧
      o.ops = abandon env slot ++ (layOut env root (folder root transfer) entries total).2 ∧
      ∀ inc, o.slot = some inc → inc.root = root ∧ inc.dir = folder root transfer ∧ inc.entries = entries := by
  intro o
  have ho : o = applyNow env slot (.clipboardFiles transfer entries) := rfl
  have hdrops := drops_abandon env slot
  rw [applyNow] at ho
  -- Laid out only for a user, within the limits, on an active side with room.
  cases huser : env.user with
  | none =>
    rw [huser] at ho
    rw [ho]
    exact .inl hdrops
  | some root =>
    rw [huser] at ho
    unfold beginFiles at ho
    cases hcheck : checkEntries entries with
    | error why =>
      rw [hcheck] at ho
      dsimp only at ho
      rw [List.append_nil] at ho
      rw [ho]
      exact .inl hdrops
    | ok total =>
      rw [hcheck] at ho
      dsimp only at ho
      by_cases hacts : env.acts = true
      · rw [if_pos hacts] at ho
        by_cases hfree : env.free.any (· < saturatingAdd total minFreeBytes) = true
        · have hnone : layOut env root (root ++ [Nat.toDigits 10 transfer.toNat]) entries total =
              (none, []) := if_pos hfree
          rw [hnone] at ho
          dsimp only at ho
          rw [List.append_nil] at ho
          rw [ho]
          exact .inl hdrops
        · -- There is room: the operations are the layout's, whether it comes to a copy or not.
          refine .inr ⟨root, total, rfl, rfl, fun h => hfree (h total hcheck), ?_⟩
          unfold folder
          rcases hlaid : layOut env root (root ++ [Nat.toDigits 10 transfer.toNat]) entries total with
            ⟨_ | remaining, ops⟩
          · rw [hlaid] at ho
            rw [ho]
            exact ⟨rfl, fun inc hinc => by cases hinc⟩
          · rw [hlaid] at ho
            dsimp only at ho
            split_ifs at ho
            · rw [ho]
              exact ⟨rfl, fun inc hinc => by cases hinc⟩
            · rw [ho]
              refine ⟨rfl, fun inc hinc => ?_⟩
              cases hinc
              exact ⟨rfl, rfl, rfl⟩
      · rw [if_neg hacts] at ho
        dsimp only at ho
        rw [List.append_nil] at ho
        rw [ho]
        exact .inl hdrops

theorem fileChunk_cases (env : Env) (slot : Option Incoming) (transfer index : UInt32)
    (offset : UInt64) (data : List UInt8) :
    let o := fileChunk env slot transfer index offset data
    (o.slot = slot ∧ o.ops = []) ∨ Drops slot o ∨
      ∃ inc e path opened d dropped, slot = some inc ∧ inc.entries[index.toNat]? = some e ∧
        outside e offset data = false ∧ safeJoin inc.dir e.name = some path ∧ d <+: data ∧
        (opened = [] ∨ opened = [Op.create path]) ∧
        (∀ op ∈ dropped, op = .removeDirAll inc.dir) ∧
        o.ops = opened ++ [.write path offset.toNat d] ++ dropped ∧
        ∀ inc', o.slot = some inc' → inc'.root = inc.root ∧ inc'.dir = inc.dir ∧ inc'.entries = inc.entries := by
  intro o
  have ho : o = fileChunk env slot transfer index offset data := rfl
  have hdrops := drops_abandon env slot
  unfold fileChunk at ho
  cases hfilter : slot.filter (·.transfer = transfer) with
  | none =>
    rw [hfilter] at ho
    rw [ho]
    exact .inl ⟨rfl, rfl⟩
  | some inc =>
    obtain ⟨hslot, -⟩ := Option.filter_eq_some_iff.mp hfilter
    rw [hfilter] at ho
    dsimp only at ho
    cases he : inc.entries[index.toNat]? with
    | none =>
      rw [he] at ho
      rw [ho]
      exact .inl ⟨rfl, rfl⟩
    | some e =>
      rw [he] at ho
      dsimp only at ho
      by_cases hout : outside e offset data = true
      · rw [if_pos hout] at ho
        rw [ho]
        exact .inr (.inl hdrops)
      · rw [if_neg hout] at ho
        cases hpath : safeJoin inc.dir e.name with
        | none =>
          rw [hpath] at ho
          rw [ho]
          exact .inl ⟨rfl, rfl⟩
        | some path =>
          rw [hpath] at ho
          dsimp only at ho
          by_cases hdone : e.size.toNat ≤ inc.received index
          · rw [if_pos hdone] at ho
            rw [ho]
            exact .inl ⟨rfl, rfl⟩
          · rw [if_neg hdone] at ho
            by_cases hfail : index ∉ inc.open_files ∧ (env.acts && env.creates path) = false
            · rw [if_pos hfail] at ho
              rw [ho]
              exact .inr (.inl hdrops)
            · rw [if_neg hfail] at ho
              have hopened : (if index ∈ inc.open_files then [] else [Op.create path]) = [] ∨
                  (if index ∈ inc.open_files then [] else [Op.create path]) = [Op.create path] := by
                split_ifs
                · exact .inl rfl
                · exact .inr rfl
              generalize (if index ∈ inc.open_files then [] else [Op.create path]) = opened at ho hopened
              have hinside : outside e offset data = false := by simpa using hout
              cases hstops : env.stops with
              | some k =>
                -- The write fails after a part of the data.
                rw [hstops] at ho
                have hdropped : ∀ op ∈ abandon env slot, op = .removeDirAll inc.dir := by
                  intro op hop
                  obtain ⟨inc', hinc', rfl⟩ := hdrops.2.2 op hop
                  rw [hslot] at hinc'
                  cases hinc'
                  rfl
                rw [ho]
                exact .inr (.inr ⟨inc, e, path, opened, data.take k, abandon env slot, hslot, he,
                  hinside, hpath, List.take_prefix k data, hopened, hdropped, rfl,
                  fun inc' hinc => by cases hinc⟩)
              | none =>
                rw [hstops] at ho
                dsimp only at ho
                rw [written_eq] at ho
                refine .inr (.inr ⟨inc, e, path, opened, data, [], hslot, he, hinside, hpath,
                  List.prefix_rfl, hopened, fun op hop => (by cases hop), ?_⟩)
                rw [List.append_nil]
                split_ifs at ho
                · rw [ho]
                  refine ⟨rfl, fun inc' hinc => ?_⟩
                  cases hinc
                  exact ⟨rfl, rfl, rfl⟩
                · rw [ho]
                  refine ⟨rfl, fun inc' hinc => ?_⟩
                  cases hinc
                  exact ⟨rfl, rfl, rfl⟩
                · rw [ho]
                  exact ⟨rfl, fun inc' hinc => by cases hinc⟩

theorem inside_folder (root : Path) (transfer : UInt32) {rel : Path} (h : ∀ c ∈ rel, Plain c) :
    Inside root (folder root transfer ++ rel) :=
  ⟨Nat.toDigits 10 transfer.toNat :: rel, by simp [folder], List.cons_ne_nil _ _,
    List.forall_mem_cons.mpr ⟨plain_digits transfer.toNat, h⟩⟩

theorem layOutEntry_ops (env : Env) {root : Path} (transfer : UInt32) (e : FileEntry) :
    ∀ op ∈ layOutEntry env (folder root transfer) e,
      (∃ path, op = .createDirAll path ∧ Inside root path) ∨
      ∃ path, op = .create path ∧ Inside root path ∧ e.is_dir = false ∧
        safeJoin (folder root transfer) e.name = some path := by
  intro op hop
  unfold layOutEntry at hop
  cases hpath : safeJoin (folder root transfer) e.name with
  | none =>
    rw [hpath] at hop
    cases hop
  | some path =>
    rw [hpath] at hop
    dsimp only at hop
    obtain ⟨rel, rfl, hne, hplain⟩ := plain_of_safeJoin hpath
    have hparent : Inside root (folder root transfer ++ rel).dropLast := by
      rw [List.dropLast_append_of_ne_nil hne]
      exact inside_folder root transfer fun c hc => hplain c (List.dropLast_subset rel hc)
    by_cases hdir : e.is_dir = true
    · rw [if_pos hdir] at hop
      split_ifs at hop
      · exact .inl ⟨_, List.mem_singleton.mp hop, inside_folder root transfer hplain⟩
      · cases hop
    · rw [if_neg hdir] at hop
      rcases List.mem_append.mp hop with hop | hop
      · split_ifs at hop
        · exact .inl ⟨_, List.mem_singleton.mp hop, hparent⟩
        · cases hop
      · split_ifs at hop
        · exact .inr ⟨_, List.mem_singleton.mp hop, inside_folder root transfer hplain,
            by simpa using hdir, rfl⟩
        · cases hop

theorem layOut_ops (env : Env) (root : Path) (transfer : UInt32) (entries : List FileEntry)
    (total : ℕ) : ∀ op ∈ (layOut env root (folder root transfer) entries total).2,
      op = .removeDirAll root ∨ (∃ path, op = .createDirAll path ∧ Inside root path) ∨
      ∃ e ∈ entries, ∃ path, op = .create path ∧ Inside root path ∧ e.is_dir = false ∧
        safeJoin (folder root transfer) e.name = some path := by
  have hremoved : ∀ op ∈ (if env.removes then [Op.removeDirAll root] else []),
      op = .removeDirAll root := by
    intro op hop
    split_ifs at hop
    · exact List.mem_singleton.mp hop
    · cases hop
  have hfolder : Inside root (folder root transfer) := by
    have hnil : ∀ c ∈ ([] : Path), Plain c := fun c hc => absurd hc List.not_mem_nil
    have h := inside_folder root transfer hnil
    rwa [List.append_nil] at h
  intro op hop
  unfold layOut at hop
  by_cases hfree : env.free.any (· < saturatingAdd total minFreeBytes) = true
  · rw [if_pos hfree] at hop
    cases hop
  · rw [if_neg hfree] at hop
    dsimp only at hop
    by_cases hdir : env.creates (folder root transfer) = true
    · rw [if_pos hdir] at hop
      simp only [List.mem_append, List.mem_singleton, List.mem_flatMap] at hop
      rcases hop with (hop | rfl) | ⟨e, he, hop⟩
      · exact .inl (hremoved op hop)
      · exact .inr (.inl ⟨_, rfl, hfolder⟩)
      · rcases layOutEntry_ops env transfer e op hop with h | h
        · exact .inr (.inl h)
        · exact .inr (.inr ⟨e, he, h⟩)
    · rw [if_neg hdir] at hop
      exact .inl (hremoved op hop)

/-! ## What a copy has on the disk -/

structure Staging where
  world : World
  dir : Path := []
  entries : List FileEntry := []
  staged : Disk := fun _ => none

def Staging.step (s : Staging) (event : Env × Message) : Staging :=
  let ops := (applyNow event.1 s.world.slot event.2).ops
  match event.2 with
  | .clipboardFiles transfer entries =>
    { world := s.world.step event
      dir := folder (event.1.user.getD []) transfer
      entries := match checkEntries entries with
        | .ok _ => entries
        | .error _ => []
      staged := ops.foldl Op.apply fun _ => none }
  | .fileChunk _ _ _ _ =>
    { s with world := s.world.step event, staged := ops.foldl Op.apply s.staged }

/-- Every staged file belongs to an entry and is not longer than it declares. -/
def Bounded (dir : Path) (entries : List FileEntry) (staged : Disk) : Prop :=
  ∀ path bytes, staged path = some bytes → ∃ e ∈ entries, e.is_dir = false ∧
    safeJoin dir e.name = some path ∧ bytes.length ≤ e.size.toNat

section Bounded
variable {dir : Path} {entries : List FileEntry} {staged : Disk}

theorem Bounded.remove (h : Bounded dir entries staged) (path : Path) :
    Bounded dir entries (Op.apply staged (.removeDirAll path)) := by
  intro p bytes hp
  change (if path <+: p then none else staged p) = some bytes at hp
  split_ifs at hp
  exact h p bytes hp

theorem Bounded.create (h : Bounded dir entries staged) {e : FileEntry} (he : e ∈ entries)
    (hdir : e.is_dir = false) {path : Path} (hpath : safeJoin dir e.name = some path) :
    Bounded dir entries (Op.apply staged (.create path)) := by
  intro p bytes hp
  by_cases hpp : p = path
  · subst hpp
    rw [Op.apply, Function.update_self] at hp
    cases hp
    exact ⟨e, he, hdir, hpath, Nat.zero_le _⟩
  · rw [Op.apply, Function.update_of_ne hpp] at hp
    exact h p bytes hp

theorem length_writeAt (bytes : List UInt8) (offset : ℕ) (data : List UInt8) :
    (writeAt bytes offset data).length = max bytes.length (offset + data.length) := by
  unfold writeAt
  simp only [List.length_append, List.length_take, List.length_replicate, List.length_drop]
  omega

theorem Bounded.write (h : Bounded dir entries staged) {e : FileEntry} (he : e ∈ entries)
    (hdir : e.is_dir = false) {path : Path} (hpath : safeJoin dir e.name = some path)
    {offset : ℕ} {data : List UInt8} (hfits : offset + data.length ≤ e.size.toNat) :
    Bounded dir entries (Op.apply staged (.write path offset data)) := by
  intro p bytes hp
  change (if data = [] then staged else Function.update staged path _) p = some bytes at hp
  split_ifs at hp
  · exact h p bytes hp
  · by_cases hpp : p = path
    · subst hpp
      rw [Function.update_self] at hp
      obtain rfl := Option.some.inj hp
      -- The file was longer, and then bounded by an entry; or this entry bounds it now.
      by_cases hlonger : offset + data.length < ((staged p).getD []).length
      · obtain ⟨old, hold⟩ : ∃ old, staged p = some old := by
          cases hs : staged p with
          | none =>
            rw [hs] at hlonger
            exact absurd hlonger (Nat.not_lt_zero _)
          | some old => exact ⟨old, rfl⟩
        obtain ⟨e', he', hdir', hpath', hlen'⟩ := h p old hold
        rw [hold, Option.getD_some] at hlonger
        refine ⟨e', he', hdir', hpath', ?_⟩
        rw [length_writeAt, hold, Option.getD_some]
        omega
      · refine ⟨e, he, hdir, hpath, ?_⟩
        rw [length_writeAt]
        omega
    · rw [Function.update_of_ne hpp] at hp
      exact h p bytes hp

def Within (dir : Path) (entries : List FileEntry) (op : Op) : Prop :=
  (∃ path, op = .removeDirAll path) ∨ (∃ path, op = .createDirAll path) ∨
    ∃ e ∈ entries, ∃ path, e.is_dir = false ∧ safeJoin dir e.name = some path ∧
      (op = .create path ∨ ∃ offset data, op = .write path offset data ∧ offset + data.length ≤ e.size.toNat)

theorem Bounded.foldl (h : Bounded dir entries staged) {ops : List Op}
    (hops : ∀ op ∈ ops, Within dir entries op) :
    Bounded dir entries (ops.foldl Op.apply staged) := by
  induction ops generalizing staged with
  | nil => exact h
  | cons op ops ih =>
    refine ih ?_ fun o ho => hops o (List.mem_cons_of_mem op ho)
    rcases hops op (List.mem_cons_self ..) with
      ⟨path, rfl⟩ | ⟨path, rfl⟩ | ⟨e, he, path, hdir, hpath, rfl | ⟨offset, data, rfl, hfits⟩⟩
    · exact h.remove path
    · exact h
    · exact h.create he hdir hpath
    · exact h.write he hdir hpath hfits

theorem sum_le_of_cover {α κ : Type*} [DecidableEq α] (f : κ → ℕ) (g : α → ℕ) (key : α → Option κ)
    {ks : List κ} (hks : ks.Nodup) {l : List α}
    (h : ∀ k ∈ ks, f k = 0 ∨ ∃ a ∈ l, key a = some k ∧ f k ≤ g a) :
    (ks.map f).sum ≤ (l.map g).sum := by
  induction ks generalizing l with
  | nil => exact Nat.zero_le _
  | cons k ks ih =>
    obtain ⟨hk, hks⟩ := List.nodup_cons.mp hks
    rw [List.map_cons, List.sum_cons]
    rcases h k (List.mem_cons_self ..) with h0 | ⟨a, ha, hkey, hle⟩
    · rw [h0, Nat.zero_add]
      exact ih hks fun k' hk' => h k' (List.mem_cons_of_mem k hk')
    · rw [← List.sum_map_erase g ha]
      refine Nat.add_le_add hle (ih hks fun k' hk' => ?_)
      rcases h k' (List.mem_cons_of_mem k hk') with h0 | ⟨b, hb, hkey', hle'⟩
      · exact .inl h0
      · refine .inr ⟨b, (List.mem_erase_of_ne ?_).mpr hb, hkey', hle'⟩
        rintro rfl
        rw [hkey] at hkey'
        cases hkey'
        exact hk hk'

def declared (entries : List FileEntry) : ℕ := ((entries.filter (!·.is_dir)).map (·.size.toNat)).sum

theorem declared_le_of_checkNames {total total' : ℕ} (h : checkNames entries total = .ok total')
    (hmax : total' ≤ maxFilesBytes) : total + declared entries ≤ total' := by
  induction entries generalizing total with
  | nil =>
    cases h
    exact le_refl _
  | cons e entries ih =>
    rw [checkNames] at h
    split_ifs at h with hname hpath hdir
    · have hrest := ih h
      rwa [declared, List.filter_cons_of_neg (by simp [hdir])]
    · have hrest := ih h
      rw [declared, List.filter_cons_of_pos (by simp [hdir]), List.map_cons, List.sum_cons]
      unfold saturatingAdd at hrest
      unfold declared at hrest
      unfold maxFilesBytes at hmax
      omega

theorem declared_le {total : ℕ} (h : checkEntries entries = .ok total) : declared entries ≤ maxFilesBytes := by
  unfold checkEntries at h
  split_ifs at h
  cases hnames : checkNames entries 0 with
  | error why =>
    rw [hnames] at h
    cases h
  | ok t =>
    rw [hnames] at h
    dsimp only at h
    split_ifs at h with hmax
    have hle := declared_le_of_checkNames hnames (Nat.not_lt.mp hmax)
    omega

theorem Bounded.sum_le (h : Bounded dir entries staged) {paths : List Path} (hpaths : paths.Nodup) :
    (paths.map fun p => ((staged p).getD []).length).sum ≤ declared entries := by
  refine sum_le_of_cover _ _ (fun e => safeJoin dir e.name) hpaths fun p _ => ?_
  cases hp : staged p with
  | none => exact .inl rfl
  | some bytes =>
    obtain ⟨e, he, hdir, hpath, hlen⟩ := h p bytes hp
    exact .inr ⟨e, List.mem_filter.mpr ⟨he, by simp [hdir]⟩, hpath, hlen⟩

end Bounded

/-! ## Every run -/

structure Kept (env : Env) (slot : Option Incoming) (message : Message) (o : Outcome) : Prop where
  /-- Everything created or written is the paste folder joined with plain names. -/
  inside : ∀ op ∈ o.ops, ∀ path ∈ op.target, ∃ root,
    (env.user = some root ∨ ∃ inc, slot = some inc ∧ inc.root = root) ∧ Inside root path
  /-- Data is written into a file of the list, up to the size that it declares. -/
  declared : ∀ path offset data, .write path offset data ∈ o.ops → ∃ inc e, slot = some inc ∧
    e ∈ inc.entries ∧ e.is_dir = false ∧ safeJoin inc.dir e.name = some path ∧
    offset + data.length ≤ e.size.toNat
  /-- A refused list creates nothing, and removes nothing but an unfinished copy. -/
  refused : ∀ transfer entries, message = .clipboardFiles transfer entries → Refused env entries → Drops slot o
  outside : ∀ transfer index offset data inc e, message = .fileChunk transfer index offset data →
    slot = some inc → inc.transfer = transfer → inc.entries[index.toNat]? = some e →
    outside e offset data = true → Drops slot o

/-- The copy in the slot is the newest one, of an accepted list, and what it staged is bounded. -/
structure Staging.Inv (s : Staging) : Prop where
  slot : ∀ inc, s.world.slot = some inc → inc.dir = s.dir ∧ inc.entries = s.entries ∧
    ∃ transfer, inc.dir = folder inc.root transfer
  accepted : ∃ total, checkEntries s.entries = .ok total
  bounded : Bounded s.dir s.entries s.staged

theorem bounded_empty (dir : Path) (entries : List FileEntry) :
    Bounded dir entries fun _ => none := fun _ _ h => by cases h

theorem Drops.within {slot : Option Incoming} {o : Outcome} (h : Drops slot o) (dir : Path)
    (entries : List FileEntry) : ∀ op ∈ o.ops, Within dir entries op := by
  intro op hop
  obtain ⟨inc, -, rfl⟩ := h.2.2 op hop
  exact .inl ⟨_, rfl⟩

theorem fits_of_outside {e : FileEntry} {offset : UInt64} {data d : List UInt8}
    (h : outside e offset data = false) (hd : d <+: data) :
    e.is_dir = false ∧ offset.toNat + d.length ≤ e.size.toNat := by
  unfold outside at h
  rw [Bool.or_eq_false_iff, decide_eq_false_iff_not] at h
  have hle := hd.length_le
  exact ⟨h.1, by omega⟩

theorem Staging.Inv.step {s : Staging} (hi : s.Inv) (event : Env × Message) : (s.step event).Inv := by
  obtain ⟨env, message⟩ := event
  cases message with
  | clipboardFiles transfer entries =>
    have haccepted : ∃ total, checkEntries (s.step (env, .clipboardFiles transfer entries)).entries = .ok total := by
      change ∃ total, checkEntries (match checkEntries entries with
        | .ok _ => entries
        | .error _ => []) = .ok total
      cases h : checkEntries entries with
      | ok total => exact ⟨total, h⟩
      | error why => exact ⟨0, (by decide : checkEntries [] = .ok 0)⟩
    rcases applyNow_files env s.world.slot transfer entries with
      hdrops | ⟨root, total, huser, hcheck, -, hops, hslot⟩
    · -- No new copy: the old one's directory at most is removed.
      refine ⟨fun inc hinc => ?_, haccepted, (bounded_empty _ _).foldl (hdrops.within _ _)⟩
      change (applyNow env s.world.slot (.clipboardFiles transfer entries)).slot = some inc at hinc
      rw [hdrops.1] at hinc
      cases hinc
    · have hentries : (s.step (env, .clipboardFiles transfer entries)).entries = entries := by
        change (match checkEntries entries with
          | .ok _ => entries
          | .error _ => []) = entries
        rw [hcheck]
      have hdir : (s.step (env, .clipboardFiles transfer entries)).dir = folder root transfer := by
        change folder (env.user.getD []) transfer = _
        rw [huser]
        rfl
      refine ⟨fun inc hinc => ?_, haccepted, ?_⟩
      · obtain ⟨hroot, hd, he⟩ := hslot inc hinc
        rw [hdir, hentries]
        exact ⟨hd, he, transfer, by rw [hd, hroot]⟩
      · rw [hdir, hentries]
        refine (bounded_empty _ _).foldl fun op hop => ?_
        dsimp only at hop
        rw [hops] at hop
        rcases List.mem_append.mp hop with hop | hop
        · exact (drops_abandon env s.world.slot).within _ _ op hop
        · rcases layOut_ops env root transfer entries total op hop with
            rfl | ⟨path, rfl, -⟩ | ⟨e, he, path, rfl, -, hda, hpath⟩
          · exact .inl ⟨_, rfl⟩
          · exact .inr (.inl ⟨_, rfl⟩)
          · exact .inr (.inr ⟨e, he, path, hda, hpath, .inl rfl⟩)
  | fileChunk transfer index offset data =>
    rcases fileChunk_cases env s.world.slot transfer index offset data with
      ⟨hslot, hops⟩ | hdrops |
      ⟨inc, e, path, opened, d, dropped, hinc, he, hout, hpath, hd, hopened, hdropped, hops, hslot⟩
    · -- The chunk is for no copy.
      refine ⟨fun inc hinc => hi.slot inc (hslot ▸ hinc), hi.accepted, ?_⟩
      change Bounded s.dir s.entries (List.foldl Op.apply s.staged (fileChunk ..).ops)
      rw [hops]
      exact hi.bounded
    · -- The chunk ends the copy.
      refine ⟨fun inc hinc => ?_, hi.accepted, hi.bounded.foldl (hdrops.within _ _)⟩
      change (fileChunk env s.world.slot transfer index offset data).slot = some inc at hinc
      rw [hdrops.1] at hinc
      cases hinc
    · -- The chunk is written: within its entry, by the check before it.
      obtain ⟨hdir, hentries, t, hfolder⟩ := hi.slot inc hinc
      refine ⟨fun inc' hinc' => ?_, hi.accepted, hi.bounded.foldl fun op hop => ?_⟩
      · obtain ⟨hr, hdr, hen⟩ := hslot inc' hinc'
        exact ⟨hdr.trans hdir, hen.trans hentries, t, by rw [hdr, hr, hfolder]⟩
      · have hmem : e ∈ s.entries := by
          rw [← hentries]
          exact List.mem_of_getElem? he
        obtain ⟨hda, hfits⟩ := fits_of_outside hout hd
        rw [hdir] at hpath
        change op ∈ (fileChunk env s.world.slot transfer index offset data).ops at hop
        rw [hops] at hop
        rcases List.mem_append.mp hop with hop | hop
        · rcases List.mem_append.mp hop with hop | hop
          · rcases hopened with rfl | rfl
            · cases hop
            · exact .inr (.inr ⟨e, hmem, path, hda, hpath, .inl (List.mem_singleton.mp hop)⟩)
          · exact .inr (.inr ⟨e, hmem, path, hda, hpath, .inr ⟨_, d, List.mem_singleton.mp hop, hfits⟩⟩)
        · exact .inl ⟨_, hdropped op hop⟩

theorem fileChunk_outside (env : Env) {inc : Incoming} {transfer index : UInt32} {offset : UInt64}
    {data : List UInt8} {e : FileEntry} (ht : inc.transfer = transfer)
    (he : inc.entries[index.toNat]? = some e) (hout : outside e offset data = true) :
    Drops (some inc) (fileChunk env (some inc) transfer index offset data) := by
  have hslot : (some inc).filter (·.transfer = transfer) = some inc := Option.filter_some_pos (by simpa using ht)
  unfold fileChunk
  rw [hslot]
  dsimp only
  rw [he]
  dsimp only
  rw [if_pos hout]
  exact drops_abandon env (some inc)

theorem Staging.Inv.kept {s : Staging} (hi : s.Inv) (env : Env) (message : Message) :
    Kept env s.world.slot message (applyNow env s.world.slot message) := by
  have hnowhere : ∀ {o : Outcome} {op : Op}, Drops s.world.slot o → op ∈ o.ops → op.target = none := by
    intro o op hdrops hop
    obtain ⟨inc, -, rfl⟩ := hdrops.2.2 op hop
    rfl
  have hunwritten : ∀ {o : Outcome} {path : Path} {offset : ℕ} {data : List UInt8},
      Drops s.world.slot o → .write path offset data ∉ o.ops := by
    intro o path offset data hdrops hop
    obtain ⟨inc, -, h⟩ := hdrops.2.2 _ hop
    cases h
  cases message with
  | clipboardFiles transfer entries =>
    rcases applyNow_files env s.world.slot transfer entries with
      hdrops | ⟨root, total, huser, hcheck, hnot, hops, -⟩
    · constructor
      case inside =>
        intro op hop path hpath
        rw [hnowhere hdrops hop] at hpath
        cases hpath
      case declared => exact fun path offset data hop => absurd hop (hunwritten hdrops)
      case refused => exact fun _ _ _ _ => hdrops
      case outside => rintro t i off data inc e ⟨⟩
    · -- Laid out: every path is a vetted name under the copy's own directory.
      have hdropped := drops_abandon env s.world.slot
      have hlaid := layOut_ops env root transfer entries total
      constructor
      case inside =>
        intro op hop path hpath
        rw [hops] at hop
        rcases List.mem_append.mp hop with hop | hop
        · rw [hnowhere hdropped hop] at hpath
          cases hpath
        · refine ⟨root, .inl huser, ?_⟩
          rcases hlaid op hop with rfl | ⟨p, rfl, hin⟩ | ⟨e, -, p, rfl, hin, -⟩
          · cases hpath
          · cases hpath
            exact hin
          · cases hpath
            exact hin
      case declared =>
        intro path offset data hop
        rw [hops] at hop
        rcases List.mem_append.mp hop with hop | hop
        · exact absurd hop (hunwritten hdropped)
        · rcases hlaid _ hop with h | ⟨p, h, -⟩ | ⟨e, -, p, h, -⟩ <;> cases h
      case refused =>
        rintro t es ⟨⟩ hrefused
        exact absurd hrefused hnot
      case outside => rintro t i off data inc e ⟨⟩
  | fileChunk transfer index offset data =>
    have hcases := fileChunk_cases env s.world.slot transfer index offset data
    constructor
    case inside =>
      intro op hop p hp
      rcases hcases with ⟨-, hops⟩ | hdrops |
        ⟨inc, e, path, opened, d, dropped, hinc, -, -, hpath, -, hopened, hdropped, hops, -⟩
      · rw [applyNow, hops] at hop
        cases hop
      · rw [hnowhere hdrops hop] at hp
        cases hp
      · refine ⟨inc.root, .inr ⟨inc, hinc, rfl⟩, ?_⟩
        -- The copy's directory is a folder of its root, and the name goes no higher.
        obtain ⟨-, -, t, hfolder⟩ := hi.slot inc hinc
        obtain ⟨rel, hrel, -, hplain⟩ := plain_of_safeJoin hpath
        have hin : Inside inc.root path := by
          rw [hrel, hfolder]
          exact inside_folder inc.root t hplain
        rw [applyNow, hops] at hop
        rcases List.mem_append.mp hop with hop | hop
        · rcases List.mem_append.mp hop with hop | hop
          · rcases hopened with rfl | rfl
            · cases hop
            · rw [List.mem_singleton.mp hop] at hp
              cases hp
              exact hin
          · rw [List.mem_singleton.mp hop] at hp
            cases hp
            exact hin
        · rw [hdropped op hop] at hp
          cases hp
    case declared =>
      intro p off b hop
      rcases hcases with ⟨-, hops⟩ | hdrops |
        ⟨inc, e, path, opened, d, dropped, hinc, he, hout, hpath, hd, hopened, hdropped, hops, -⟩
      · rw [applyNow, hops] at hop
        cases hop
      · exact absurd hop (hunwritten hdrops)
      · obtain ⟨hda, hfits⟩ := fits_of_outside hout hd
        rw [applyNow, hops] at hop
        rcases List.mem_append.mp hop with hop | hop
        · rcases List.mem_append.mp hop with hop | hop
          · rcases hopened with rfl | rfl
            · cases hop
            · cases List.mem_singleton.mp hop
          · cases List.mem_singleton.mp hop
            exact ⟨inc, e, hinc, List.mem_of_getElem? he, hda, hpath, hfits⟩
        · cases hdropped _ hop
    case refused => rintro t es ⟨⟩
    case outside =>
      rintro t i off b inc e ⟨⟩ hinc ht he hout
      rw [hinc]
      exact fileChunk_outside env ht he hout

/-- Any messages at all: what each may do to the file system, and that the files of a copy are never
longer than its list declares, nor all of them together than the limit. -/
theorem hostile_peer (disk : Disk) (before : List (Env × Message)) (env : Env) (message : Message) :
    let s := run Staging.step { world := ⟨none, disk, none⟩ } before
    let s' := s.step (env, message)
    Kept env s.world.slot message (applyNow env s.world.slot message) ∧ Bounded s'.dir s'.entries s'.staged ∧
      ∀ paths : List Path, paths.Nodup → (paths.map fun p => ((s'.staged p).getD []).length).sum ≤ maxFilesBytes := by
  intro s s'
  have hi : s.Inv := by
    refine invariant_run Staging.Inv ⟨fun inc h => ?_, ⟨0, (by decide : checkEntries [] = .ok 0)⟩, bounded_empty _ _⟩
      (fun s event hi => hi.step event) before
    cases h
  have hi' : s'.Inv := hi.step (env, message)
  obtain ⟨total, haccepted⟩ := hi'.accepted
  exact ⟨hi.kept env message, hi'.bounded, fun paths hpaths =>
    (hi'.bounded.sum_le hpaths).trans (declared_le haccepted)⟩

def Op.dataBytes : Op → ℕ
  | .write _ _ data => data.length
  | _ => 0

def bytesWritten (slot : Option Incoming) : List (Env × Message) → ℕ
  | [] => 0
  | (env, message) :: events =>
    let o := applyNow env slot message
    (o.ops.map Op.dataBytes).sum + bytesWritten o.slot events

theorem bytesWritten_overlaid {e : FileEntry} {data : List UInt8} {path : Path}
    (hout : outside e 0 data = false) (n : ℕ) (inc : Incoming) (he : inc.entries[0]? = some e)
    (hpath : safeJoin inc.dir e.name = some path)
    (hleft : inc.received 0 + data.length * n < e.size.toNat + data.length) :
    bytesWritten (some inc)
      (List.replicate n (working, .fileChunk inc.transfer 0 0 data)) = data.length * n := by
  induction n generalizing inc with
  | zero => rfl
  | succ n ih =>
    have hmul : data.length * (n + 1) = data.length * n + data.length := Nat.mul_succ _ _
    have hstep := fileChunk_inside (show working.Works from ⟨rfl, rfl⟩) (i := 0) rfl he hout hpath (by omega)
    rw [if_neg (by simp [working]), written_eq] at hstep
    rw [List.replicate_succ]
    dsimp only [bytesWritten]
    rw [applyNow, hstep]
    have hops : ((((if (0 : UInt32) ∈ inc.open_files then [] else [Op.create path]) ++
        [Op.write path (0 : UInt64).toNat data]).map Op.dataBytes).sum) = data.length := by
      split_ifs <;> simp [Op.dataBytes]
    by_cases hopen : inc.received 0 + data.length < e.size.toNat
    · rw [if_pos hopen]
      have hreceived : (inc.wrote 0 data).received 0 = inc.received 0 + data.length := by
        change Function.update inc.received 0 (inc.received 0 + data.length) 0 = _
        rw [Function.update_self]
      have hrest := ih (inc.wrote 0 data) he hpath (by rw [hreceived]; omega)
      change (List.map Op.dataBytes _).sum + bytesWritten (some (inc.wrote 0 data)) _ = _
      rw [hops, show inc.transfer = (inc.wrote 0 data).transfer from rfl, hrest]
      omega
    · -- The file has its size: this was the last chunk.
      obtain rfl : n = 0 := by
        by_contra hn
        have : data.length ≤ data.length * n := Nat.le_mul_of_pos_right _ (Nat.pos_of_ne_zero hn)
        omega
      rw [if_neg hopen]
      split_ifs at hops ⊢ <;> simpa [bytesWritten] using hops

/-- A list that asks for all of the limit, and three bytes that come over and over for the start of its
file: more is written than the limit. -/
theorem written_past_limit :
    let entries : List FileEntry := [⟨['a'], 4294967296, false⟩]
    let chunk : Env × Message := (working, .fileChunk 7 0 0 [1, 2, 3])
    checkEntries entries = .ok maxFilesBytes ∧ maxFilesBytes <
        bytesWritten none ((working, .clipboardFiles 7 entries) :: List.replicate 1431655766 chunk) := by
  intro entries chunk
  have hcheck : checkEntries entries = .ok maxFilesBytes := by decide +kernel
  refine ⟨hcheck, ?_⟩
  obtain ⟨n, hn⟩ : ∃ n, n = 1431655766 := ⟨_, rfl⟩
  rw [← hn]
  let inc : Incoming :=
    { transfer := 7, dir := [['t'], ['7']], root := [['t']], entries, remaining := 1, got := [0] }
  have hdir : [['t']] ++ [Nat.toDigits 10 (7 : UInt32).toNat] = [['t'], ['7']] := by decide +kernel
  have hlaid : layOut working [['t']] [['t'], ['7']] entries maxFilesBytes = (some 1,
      [.removeDirAll [['t']], .createDirAll [['t'], ['7']], .createDirAll [['t'], ['7']]]) := by decide +kernel
  have hbegun : applyNow working none (.clipboardFiles 7 entries) =
      ⟨some inc, [.removeDirAll [['t']], .createDirAll [['t'], ['7']],
        .createDirAll [['t'], ['7']]], none⟩ := by
    have hbegin : beginFiles working none [['t']] 7 entries =
        ⟨some inc, [.removeDirAll [['t']], .createDirAll [['t'], ['7']],
          .createDirAll [['t'], ['7']]], none⟩ := by
      rw [beginFiles, hcheck]
      dsimp only
      rw [if_pos (show working.acts = true from rfl), hdir, hlaid]
      rfl
    change ({ beginFiles working none [['t']] 7 entries with
      ops := [] ++ (beginFiles working none [['t']] 7 entries).ops } : Outcome) = _
    rw [hbegin]
    rfl
  have hout : outside ⟨['a'], 4294967296, false⟩ 0 [1, 2, 3] = false := by decide
  have hrest := bytesWritten_overlaid hout n inc rfl
    (show safeJoin [['t'], ['7']] ['a'] = some [['t'], ['7'], ['a']] by decide +kernel)
    (by simp [inc]; omega)
  change List.sum _ + _ > _
  rw [hbegun]
  change _ < 0 + bytesWritten (some inc) _
  rw [Nat.zero_add]
  change _ < bytesWritten (some inc) (List.replicate n (working, .fileChunk inc.transfer 0 0 [1, 2, 3]))
  rw [hrest, hn]
  decide

end Rdpio.Client.HyperClipboard
