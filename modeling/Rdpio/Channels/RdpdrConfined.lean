import Rdpio.Channels.Rdpdr
import Rdpio.Lib.Run

/-!
# A drive and its share

Which requests keep a redirected drive inside its share: every path touched is the drive's root or below it,
and the root itself is neither removed nor renamed.
-/

namespace Rdpio.Channels.Rdpdr

open Lib
open Channels.Cliprdr (decodeUnicode)

variable {σ H M : Type} (platform : Platform) (fs : Fs σ H M)

structure Ordinary (n : Name) : Prop where
  ne_nil : n ≠ []
  ne_dot : n ≠ ['.']
  ne_dots : n ≠ ['.', '.']
  no_separator : '/' ∉ n ∧ '\\' ∉ n
  no_prefix : platform.hasPrefix n = false

/-- The root of a drive, or a path below it. -/
structure Inside (device_id : UInt32) (p : Path) : Prop where
  base : p.base = .share device_id
  names : ∀ n ∈ p.names, Ordinary platform n

/-- The path is in the share, and if it is removed or renamed it is not the root. -/
structure Touch.Good (device_id : UInt32) (t : Touch) : Prop where
  inside : Inside platform device_id t.path
  root : t.op = .remove ∨ t.op = .renameFrom → t.path ≠ ⟨.share device_id, []⟩

theorem no_separator_components (wire : List Char) : ∀ c ∈ components wire, '/' ∉ c ∧ '\\' ∉ c := by
  induction wire with
  | nil =>
    intro c hc
    rw [List.mem_singleton.mp hc]
    exact ⟨List.not_mem_nil, List.not_mem_nil⟩
  | cons x wire ih =>
    rw [components]
    split_ifs with hsep
    · intro c hc
      rcases List.mem_cons.mp hc with rfl | hc
      · exact ⟨List.not_mem_nil, List.not_mem_nil⟩
      · exact ih c hc
    · rw [not_or] at hsep
      rcases hrest : components wire with _ | ⟨name, names⟩
      · intro c hc
        rw [List.mem_singleton.mp hc, List.mem_singleton, List.mem_singleton]
        exact ⟨fun h => hsep.2 h.symm, fun h => hsep.1 h.symm⟩
      · intro c hc
        rw [hrest] at ih
        rcases List.mem_cons.mp hc with rfl | hc
        · have hname := ih name List.mem_cons_self
          rw [List.mem_cons, List.mem_cons, not_or, not_or]
          exact ⟨⟨fun h => hsep.2 h.symm, hname.1⟩, fun h => hsep.1 h.symm, hname.2⟩
        · exact ih c (List.mem_cons_of_mem _ hc)

/-- No component that is pushed carries a prefix. -/
def NoPrefix (wire : List Char) : Prop := ∀ c ∈ components wire, c ≠ [] → c ≠ ['.'] → platform.hasPrefix c = false

variable {platform}

theorem inside_push {device_id : UInt32} {p : Path} {c : Name} (hne : c ≠ []) (hdot : c ≠ ['.'])
    (hdots : c ≠ ['.', '.']) (hsep : '/' ∉ c ∧ '\\' ∉ c) :
    Inside platform device_id (platform.push p c) ↔ Inside platform device_id p ∧ platform.hasPrefix c = false := by
  unfold Platform.push
  rw [if_neg hdot]
  split_ifs with hprefix
  · exact iff_of_false (fun h => Base.noConfusion h.base) fun h => Bool.false_ne_true (h.2.symm.trans hprefix)
  · have hprefix := Bool.eq_false_of_not_eq_true hprefix
    constructor
    · intro h
      exact ⟨⟨h.base, fun n hn => h.names n (List.mem_append_left _ hn)⟩, hprefix⟩
    · rintro ⟨h, -⟩
      refine ⟨h.base, fun n hn => ?_⟩
      rcases List.mem_append.mp hn with hn | hn
      · exact h.names n hn
      · rw [List.mem_singleton.mp hn]
        exact ⟨hne, hdot, hdots, hsep, hprefix⟩

theorem inside_foldlM {device_id : UInt32} {cs : List Name} (hsep : ∀ c ∈ cs, '/' ∉ c ∧ '\\' ∉ c) {p q : Path}
    (h : cs.foldlM (resolveStep platform) p = some q) :
    Inside platform device_id q ↔ Inside platform device_id p ∧
      ∀ c ∈ cs, c ≠ [] → c ≠ ['.'] → platform.hasPrefix c = false := by
  induction cs generalizing p with
  | nil =>
    cases h
    exact (and_iff_left fun c hc => absurd hc List.not_mem_nil).symm
  | cons c cs ih =>
    rw [List.foldlM_cons] at h
    obtain ⟨p', hp', hq⟩ := Option.bind_eq_some_iff.mp h
    rw [ih (fun c hc => hsep c (List.mem_cons_of_mem _ hc)) hq, List.forall_mem_cons]
    unfold resolveStep at hp'
    split_ifs at hp' with hskip hdots
    · -- Nothing is pushed.
      cases hp'
      refine and_congr_right fun _ => (and_iff_right fun hne hdot => ?_).symm
      rcases hskip with hnil | hone
      · exact absurd hnil hne
      · exact absurd hone hdot
    · cases hp'
      rw [not_or] at hskip
      rw [inside_push hskip.1 hskip.2 hdots (hsep c List.mem_cons_self), and_assoc]
      refine and_congr_right fun _ => and_congr_left fun _ => ?_
      exact ⟨fun h _ _ => h, fun h => h hskip.1 hskip.2⟩

theorem inside_resolvePath {device_id : UInt32} {wire : List Char} {p : Path}
    (h : resolvePath platform device_id wire = some p) :
    Inside platform device_id p ↔ NoPrefix platform wire := by
  rw [inside_foldlM (no_separator_components wire) h]
  exact and_iff_right ⟨rfl, fun n hn => absurd hn List.not_mem_nil⟩

/-! ## One request -/

section Request

variable (platform)

/-- The names of an enumeration: ordinary ones, and the two that are put first. -/
def Listed (names : List Name) : Prop := ∀ n ∈ names, n = ['.'] ∨ n = ['.', '.'] ∨ Ordinary platform n

/-- Every handle of a drive has a path in the share. -/
structure DriveDevice.Held (d : DriveDevice H) : Prop where
  path : ∀ id f, d.files id = some f → Inside platform d.device_id f.path
  entries : ∀ id f names, d.files id = some f → f.dir_entries = some names → Listed platform names

variable {platform} {fs} {s : State σ H}

theorem DriveDevice.Held.none {d : DriveDevice H} (h : d.Held platform) (file_id : UInt32) :
    DriveDevice.Held platform { d with files := Function.update d.files file_id none } := by
  constructor
  · intro id f hf
    by_cases hid : id = file_id
    · rw [hid] at hf
      dsimp only at hf
      rw [Function.update_self] at hf
      cases hf
    · dsimp only at hf
      rw [Function.update_of_ne hid] at hf
      exact h.path id f hf
  · intro id f names hf
    by_cases hid : id = file_id
    · rw [hid] at hf
      dsimp only at hf
      rw [Function.update_self] at hf
      cases hf
    · dsimp only at hf
      rw [Function.update_of_ne hid] at hf
      exact h.entries id f names hf

theorem DriveDevice.Held.update {d : DriveDevice H} (h : d.Held platform) (file_id next : UInt32)
    {f : OpenFile H} (hpath : Inside platform d.device_id f.path)
    (hentries : ∀ names, f.dir_entries = some names → Listed platform names) :
    DriveDevice.Held platform
      { d with files := Function.update d.files file_id (some f), next_file_id := next } := by
  constructor
  · intro id g hg
    dsimp only at hg ⊢
    by_cases hid : id = file_id
    · rw [hid, Function.update_self] at hg
      rw [← Option.some.inj hg]
      exact hpath
    · rw [Function.update_of_ne hid] at hg
      exact h.path id g hg
  · intro id g names hg
    dsimp only at hg
    by_cases hid : id = file_id
    · rw [hid, Function.update_self] at hg
      rw [← Option.some.inj hg]
      exact hentries names
    · rw [Function.update_of_ne hid] at hg
      exact h.entries id g names hg

/-- A reply that leaves the handles in the share if it touches only good paths. -/
structure Reply.Confined (platform : Platform) (s : State σ H) (fits : Prop) (r : Reply σ H M) : Prop where
  touched : (∀ t ∈ r.touched, t.Good platform s.drive.device_id) ↔ fits
  held : fits → r.state.drive.Held platform
  device : r.state.drive.device_id = s.drive.device_id

theorem confined_of_nil (hs : s.drive.Held platform) {tree : σ} {status : UInt32} {payload : Payload M} :
    Reply.Confined platform s True ⟨⟨s.drive, tree⟩, [], status, payload⟩ :=
  ⟨iff_of_true (fun _ ht => absurd ht List.not_mem_nil) trivial, fun _ => hs, rfl⟩

theorem good_of_op {device_id : UInt32} {op : Op} {p : Path} (h : op ≠ .remove ∧ op ≠ .renameFrom) :
    Touch.Good platform device_id ⟨op, p⟩ ↔ Inside platform device_id p :=
  ⟨Touch.Good.inside, fun hp => ⟨hp, fun hop => absurd hop (not_or.mpr h)⟩⟩

theorem confined_of_path (hs : s.drive.Held platform) {path : Path} {wire : List Char} {r : Reply σ H M}
    (hpath : s.resolve platform wire = some path)
    (htouched : r.touched ≠ [] ∧ ∀ t ∈ r.touched, t.path = path ∧ t.op ≠ .remove ∧ t.op ≠ .renameFrom)
    (hstate : r.state = s ∨ ∃ f tree, r.state = s.insert f tree ∧ f.path = path ∧ f.dir_entries = none) :
    Reply.Confined platform s (NoPrefix platform wire) r := by
  have hinside : Inside platform s.drive.device_id path ↔ NoPrefix platform wire := inside_resolvePath hpath
  refine ⟨?_, fun hfits => ?_, ?_⟩
  · rw [← hinside]
    constructor
    · intro h
      obtain ⟨t, ht⟩ := List.exists_mem_of_ne_nil _ htouched.1
      rw [← (htouched.2 t ht).1]
      exact (h t ht).inside
    · intro h t ht
      obtain ⟨hp, hop⟩ := htouched.2 t ht
      have hgood : Touch.Good platform s.drive.device_id ⟨t.op, t.path⟩ := (good_of_op hop).mpr (hp ▸ h)
      exact hgood
  · rcases hstate with hstate | ⟨f, tree, hstate, hf, hentries⟩
    · rw [hstate]
      exact hs
    · rw [hstate]
      refine hs.update _ _ ?_ fun names hnames => ?_
      · rw [hf]
        exact hinside.mpr hfits
      · rw [hentries] at hnames
        cases hnames
  · rcases hstate with hstate | ⟨f, tree, hstate, -, -⟩
    · rw [hstate]
    · rw [hstate]
      rfl

theorem stat_then (path : Path) (ops : List Op) (hops : ∀ op ∈ ops, op ≠ .remove ∧ op ≠ .renameFrom) :
    [(⟨.stat, path⟩ : Touch)] ++ ops.map (⟨·, path⟩) ≠ [] ∧ ∀ t ∈ [(⟨.stat, path⟩ : Touch)] ++ ops.map (⟨·, path⟩),
        t.path = path ∧ t.op ≠ .remove ∧ t.op ≠ .renameFrom := by
  refine ⟨List.cons_ne_nil _ _, fun t ht => ?_⟩
  rcases List.mem_cons.mp ht with rfl | ht
  · exact ⟨rfl, Op.noConfusion, Op.noConfusion⟩
  · obtain ⟨op, hop, rfl⟩ := List.mem_map.mp ht
    exact ⟨rfl, hops op hop⟩

variable (platform fs s) in
def createName (p : List UInt8) : List Char := decodeUnicode (bytesAt p 32 ((u32le p 28).getD 0).toNat)

theorem createFolder_confined (hs : s.drive.Held platform) {path : Path} {wire : List Char}
    (hpath : s.resolve platform wire = some path) (disposition : UInt32) (there : Bool) :
    Reply.Confined platform s (NoPrefix platform wire)
      (s.createFolder fs path disposition there [⟨.stat, path⟩]) := by
  have hstat := stat_then path [] fun _ hop => absurd hop List.not_mem_nil
  have hmade := stat_then path [.createDir] fun op hop => by
    rw [List.mem_singleton.mp hop]
    exact ⟨Op.noConfusion, Op.noConfusion⟩
  unfold State.createFolder
  split_ifs
  · rcases fs.createDir s.tree path with _ | tree
    · exact confined_of_path hs hpath hmade (.inl rfl)
    · exact confined_of_path hs hpath hmade (.inr ⟨_, tree, rfl, rfl, rfl⟩)
  · exact confined_of_path hs hpath hstat (.inr ⟨_, s.tree, rfl, rfl, rfl⟩)
  · exact confined_of_path hs hpath hstat (.inl rfl)
  · exact confined_of_path hs hpath hstat (.inr ⟨_, s.tree, rfl, rfl, rfl⟩)

theorem createFile_confined (hs : s.drive.Held platform) {path : Path} {wire : List Char}
    (hpath : s.resolve platform wire = some path) (disposition : UInt32) (there : Bool) :
    Reply.Confined platform s (NoPrefix platform wire)
      (s.createFile fs path disposition there [⟨.stat, path⟩]) := by
  have hstat := stat_then path [] fun _ hop => absurd hop List.not_mem_nil
  have hopened := stat_then path [.openFile] fun op hop => by
    rw [List.mem_singleton.mp hop]
    exact ⟨Op.noConfusion, Op.noConfusion⟩
  unfold State.createFile
  rcases State.fileDisposition disposition there with status | ⟨opts, information⟩
  · exact confined_of_path hs hpath hstat (.inl rfl)
  dsimp only
  rcases fs.openWith s.tree path opts with _ | ⟨f, tree⟩
  · dsimp only
    rcases fs.openRead s.tree path with _ | f
    · exact confined_of_path hs hpath hopened (.inl rfl)
    · exact confined_of_path hs hpath hopened (.inr ⟨_, s.tree, rfl, rfl, rfl⟩)
  · exact confined_of_path hs hpath hopened (.inr ⟨_, tree, rfl, rfl, rfl⟩)

theorem create_confined (hs : s.drive.Held platform) (p : List UInt8) :
    Reply.Confined platform s (∀ path, s.resolve platform (createName p) = some path →
      NoPrefix platform (createName p)) (s.create platform fs p) := by
  unfold State.create
  dsimp only
  rcases hpath : s.resolve platform (createName p) with _ | path
  · have hpath' := hpath
    rw [createName] at hpath'
    rw [hpath']
    exact ⟨iff_of_true (fun _ ht => absurd ht List.not_mem_nil)
      fun path hp => absurd hp (Option.some_ne_none path).symm, fun _ => hs, rfl⟩
  · have hpath' := hpath
    rw [createName] at hpath'
    rw [hpath']
    dsimp only
    have hfits : NoPrefix platform (createName p) ↔
        ∀ path', some path = some path' → NoPrefix platform (createName p) :=
      ⟨fun h _ _ => h, fun h => h path rfl⟩
    rw [← hfits]
    split_ifs
    · exact createFolder_confined hs hpath _ _
    · exact createFile_confined hs hpath _ _

theorem close_confined (hs : s.drive.Held platform) (file_id : UInt32) :
    Reply.Confined platform s (∀ f, s.drive.files file_id = some f → f.delete_on_close = true → f.path ≠ s.root)
      (s.close fs file_id : Reply σ H M) := by
  unfold State.close
  dsimp only
  rcases hf : s.drive.files file_id with _ | f
  · exact ⟨iff_of_true (fun _ ht => absurd ht List.not_mem_nil)
      fun f h => absurd h (Option.some_ne_none f).symm, fun _ => hs, rfl⟩
  have hforall : (∀ g, some f = some g → g.delete_on_close = true → g.path ≠ s.root) ↔
      (f.delete_on_close = true → f.path ≠ s.root) :=
    ⟨fun h => h f rfl, fun h g hg => Option.some.inj hg ▸ h⟩
  rw [hforall]
  dsimp only
  by_cases hdelete : f.delete_on_close = true
  · rw [if_pos hdelete]
    refine ⟨?_, fun _ => hs.none file_id, rfl⟩
    rw [List.forall_mem_singleton]
    constructor
    · exact fun h _ => h.root (.inl rfl)
    · exact fun h => ⟨hs.path file_id f hf, fun _ => h hdelete⟩
  · rw [if_neg hdelete]
    exact ⟨iff_of_true (fun _ ht => absurd ht List.not_mem_nil) fun h => absurd h hdelete,
      fun _ => hs.none file_id, rfl⟩

theorem read_confined (hs : s.drive.Held platform) (file_id : UInt32) (p : List UInt8) :
    Reply.Confined platform s True (s.read fs file_id p : Reply σ H M) := by
  unfold State.read
  dsimp only
  rcases s.drive.files file_id with _ | f
  · exact confined_of_nil hs
  dsimp only
  rcases f.file with _ | file
  · exact confined_of_nil hs
  dsimp only
  rcases fs.read s.tree file _ _ with _ | buf
  · exact confined_of_nil hs
  · exact confined_of_nil hs

theorem write_confined (hs : s.drive.Held platform) (file_id : UInt32) (p : List UInt8) :
    Reply.Confined platform s True (s.write fs file_id p : Reply σ H M) := by
  unfold State.write
  dsimp only
  rcases s.drive.files file_id with _ | f
  · exact confined_of_nil hs
  dsimp only
  rcases f.file with _ | file
  · exact confined_of_nil hs
  dsimp only
  rcases fs.write s.tree file _ _ with _ | tree
  · exact confined_of_nil hs
  · exact confined_of_nil hs

theorem queryInfo_confined (hs : s.drive.Held platform) (file_id : UInt32) (p : List UInt8) :
    Reply.Confined platform s True (s.queryInfo fs file_id p : Reply σ H M) := by
  unfold State.queryInfo
  dsimp only
  rcases hf : s.drive.files file_id with _ | f
  · exact confined_of_nil hs
  -- A handle's own path is in the share.
  have hstat : (∀ t ∈ [(⟨.stat, f.path⟩ : Touch)], t.Good platform s.drive.device_id) ↔ True := by
    rw [List.forall_mem_singleton]
    exact iff_of_true ((good_of_op ⟨Op.noConfusion, Op.noConfusion⟩).mpr (hs.path file_id f hf)) trivial
  dsimp only
  rcases fs.metadata s.tree f.path with _ | md
  · exact ⟨hstat, fun _ => hs, rfl⟩
  · dsimp only
    split_ifs
    · exact ⟨hstat, fun _ => hs, rfl⟩
    · exact ⟨hstat, fun _ => hs, rfl⟩

theorem queryVolume_confined (hs : s.drive.Held platform) (p : List UInt8) :
    Reply.Confined platform s True (s.queryVolume p : Reply σ H M) := by
  unfold State.queryVolume
  dsimp only
  split_ifs
  · exact confined_of_nil hs
  · exact confined_of_nil hs

def setBuffer (p : List UInt8) : List UInt8 := bytesAt p 32 ((u32le p 4).getD 0).toNat

/-- A rename stays in the share if its name does, and if it is not one of the root. -/
def RenameFits (platform : Platform) (s : State σ H) (file_id : UInt32) (p : List UInt8) : Prop :=
  (u32le p 0).getD 0 = fileRenameInformation → ∀ f dest, s.drive.files file_id = some f →
    s.resolve platform (State.renameName (setBuffer p)) = some dest →
      NoPrefix platform (State.renameName (setBuffer p)) ∧ f.path ≠ s.root

theorem setInfo_confined (hs : s.drive.Held platform) (file_id : UInt32) (p : List UInt8) :
    Reply.Confined platform s (RenameFits platform s file_id p) (s.setInfo platform fs file_id p) := by
  unfold State.setInfo RenameFits
  dsimp only
  rcases hf : s.drive.files file_id with _ | f
  · exact ⟨iff_of_true (fun _ ht => absurd ht List.not_mem_nil)
      fun _ f _ h => absurd h (Option.some_ne_none f).symm, fun _ => hs, rfl⟩
  have hother : ∀ {tree : σ} {status : UInt32} {payload : Payload M} {d : DriveDevice H},
      (u32le p 0).getD 0 ≠ fileRenameInformation → d.Held platform → d.device_id = s.drive.device_id →
      Reply.Confined platform s ((u32le p 0).getD 0 = fileRenameInformation → ∀ g dest, some f = some g →
        s.resolve platform (State.renameName (setBuffer p)) = some dest →
          NoPrefix platform (State.renameName (setBuffer p)) ∧ g.path ≠ s.root)
        ⟨⟨d, tree⟩, [], status, payload⟩ := fun hne hd hid =>
    ⟨iff_of_true (fun _ ht => absurd ht List.not_mem_nil) fun h => absurd h hne, fun _ => hd, hid⟩
  dsimp only
  by_cases heof : (u32le p 0).getD 0 = fileEndOfFileInformation ∨ (u32le p 0).getD 0 = fileAllocationInformation
  · have hne : (u32le p 0).getD 0 ≠ fileRenameInformation := by
      rcases heof with h | h <;> rw [h] <;> decide
    rw [if_pos heof]
    rcases f.file.bind fun file => fs.setLen s.tree file _ with _ | tree
    · exact hother hne hs rfl
    · exact hother hne hs rfl
  rw [if_neg heof]
  by_cases hdisposition : (u32le p 0).getD 0 = fileDispositionInformation
  · have hne : (u32le p 0).getD 0 ≠ fileRenameInformation := by
      rw [hdisposition]
      decide
    rw [if_pos hdisposition]
    exact hother hne (hs.update file_id _ (hs.path file_id f hf) (hs.entries file_id f · hf)) rfl
  rw [if_neg hdisposition]
  by_cases hrename : (u32le p 0).getD 0 = fileRenameInformation
  · rw [if_pos hrename]
    rcases hdest : s.resolve platform (State.renameName (setBuffer p)) with _ | dest
    · rw [setBuffer] at hdest
      rw [hdest]
      exact ⟨iff_of_true (fun _ ht => absurd ht List.not_mem_nil)
        fun _ _ dest _ h => absurd h (Option.some_ne_none dest).symm, fun _ => hs, rfl⟩
    have hinside : Inside platform s.drive.device_id dest ↔ NoPrefix platform (State.renameName (setBuffer p)) :=
      inside_resolvePath hdest
    have hfits : ((u32le p 0).getD 0 = fileRenameInformation → ∀ g dest', some f = some g → some dest = some dest' →
        NoPrefix platform (State.renameName (setBuffer p)) ∧ g.path ≠ s.root) ↔
        NoPrefix platform (State.renameName (setBuffer p)) ∧ f.path ≠ s.root := by
      constructor
      · exact fun h => h hrename f dest rfl rfl
      · rintro h - g dest' hg -
        rw [← Option.some.inj hg]
        exact h
    have htouched : (∀ t ∈ [(⟨.renameFrom, f.path⟩ : Touch), ⟨.renameTo, dest⟩],
        t.Good platform s.drive.device_id) ↔
        NoPrefix platform (State.renameName (setBuffer p)) ∧ f.path ≠ s.root := by
      rw [List.forall_mem_cons, List.forall_mem_singleton,
        good_of_op (show Op.renameTo ≠ .remove ∧ Op.renameTo ≠ .renameFrom by decide), hinside, and_comm]
      refine and_congr_right fun _ => ?_
      exact ⟨fun h => h.root (.inr rfl), fun h => ⟨hs.path file_id f hf, fun _ => h⟩⟩
    rw [hfits]
    rw [setBuffer] at hdest
    rw [hdest]
    dsimp only
    rcases fs.rename s.tree f.path dest with _ | tree
    · exact ⟨htouched, fun _ => hs, rfl⟩
    · exact ⟨htouched, fun h => hs.update file_id _ (hinside.mpr h.1) (hs.entries file_id f · hf), rfl⟩
  rw [if_neg hrename]
  split_ifs
  · exact hother hrename hs rfl
  · exact hother hrename hs rfl

/-- What `read_dir` gives are ordinary names. -/
def Fs.Lists (platform : Platform) (fs : Fs σ H M) : Prop :=
  ∀ tree path names, fs.readDir tree path = some names → ∀ n ∈ names, Ordinary platform n

theorem listed_entries (hdir : fs.Lists platform) (hs : s.drive.Held platform) {file_id : UInt32}
    {f : OpenFile H} (hf : s.drive.files file_id = some f) (initial : Bool) :
    Listed platform (s.entries fs f initial).1 ∧ ∀ t ∈ (s.entries fs f initial).2.2, t = ⟨.list, f.path⟩ := by
  have hlist : Listed platform (['.'] :: ['.', '.'] :: (fs.readDir s.tree f.path).getD []) := by
    intro n hn
    rcases List.mem_cons.mp hn with rfl | hn
    · exact .inl rfl
    rcases List.mem_cons.mp hn with rfl | hn
    · exact .inr (.inl rfl)
    rcases hread : fs.readDir s.tree f.path with _ | names
    · rw [hread] at hn
      exact absurd hn List.not_mem_nil
    · rw [hread] at hn
      exact .inr (.inr (hdir _ _ names hread n hn))
  unfold State.entries
  rcases hentries : f.dir_entries with _ | names
  · exact ⟨hlist, fun t ht => List.mem_singleton.mp ht⟩
  · dsimp only
    split_ifs
    · exact ⟨hlist, fun t ht => List.mem_singleton.mp ht⟩
    · exact ⟨hs.entries file_id f names hf hentries, fun t ht => absurd ht List.not_mem_nil⟩

/-- The next entry of an enumeration is not the folder above. -/
def EntryFits (fs : Fs σ H M) (s : State σ H) (file_id : UInt32) (p : List UInt8) : Prop :=
  ∀ f, s.drive.files file_id = some f → f.is_dir = true →
    (s.entries fs f (p[4]?.any (· ≠ 0))).1[(s.entries fs f (p[4]?.any (· ≠ 0))).2.1]? ≠ some ['.', '.']

theorem queryDirectory_confined (hdir : fs.Lists platform) (hs : s.drive.Held platform) (file_id : UInt32)
    (p : List UInt8) :
    Reply.Confined platform s (EntryFits fs s file_id p) (s.queryDirectory platform fs file_id p) := by
  unfold State.queryDirectory EntryFits
  dsimp only
  rcases hf : s.drive.files file_id with _ | f
  · exact ⟨iff_of_true (fun _ ht => absurd ht List.not_mem_nil)
      fun f h => absurd h (Option.some_ne_none f).symm, fun _ => hs, rfl⟩
  dsimp only
  by_cases hfolder : f.is_dir = true
  swap
  · rw [Bool.eq_false_of_not_eq_true hfolder]
    refine ⟨iff_of_true (fun _ ht => absurd ht List.not_mem_nil) fun g hg hg' => ?_, fun _ => hs, rfl⟩
    rw [← Option.some.inj hg] at hg'
    exact absurd hg' hfolder
  rw [hfolder, Bool.not_true, if_neg Bool.false_ne_true]
  obtain ⟨hlisted, htouched⟩ := listed_entries hdir hs hf (p[4]?.any (· ≠ 0))
  have hpath := hs.path file_id f hf
  have hforall : (∀ g, some f = some g → g.is_dir = true → (s.entries fs g (p[4]?.any (· ≠ 0))).1[
      (s.entries fs g (p[4]?.any (· ≠ 0))).2.1]? ≠ some ['.', '.']) ↔
      (s.entries fs f (p[4]?.any (· ≠ 0))).1[(s.entries fs f (p[4]?.any (· ≠ 0))).2.1]? ≠ some ['.', '.'] :=
    ⟨fun h => h f rfl hfolder, fun h g hg _ => Option.some.inj hg ▸ h⟩
  rw [hforall]
  obtain ⟨e, he⟩ : ∃ e, e = s.entries fs f (p[4]?.any (· ≠ 0)) := ⟨_, rfl⟩
  rw [← he] at hlisted htouched ⊢
  obtain ⟨names, pos, touched⟩ := e
  dsimp only at hlisted htouched ⊢
  have hgood : ∀ t ∈ touched, t.Good platform s.drive.device_id := by
    intro t ht
    rw [htouched t ht]
    exact (good_of_op ⟨Op.noConfusion, Op.noConfusion⟩).mpr hpath
  have hheld : ∀ n, DriveDevice.Held platform
      (s.set file_id { f with is_dir := true, dir_entries := some names, dir_pos := n } s.tree).drive := by
    refine fun n => hs.update file_id _ hpath fun names' hnames => ?_
    rw [← Option.some.inj hnames]
    exact hlisted
  rcases hname : names[pos]? with _ | name
  · exact ⟨iff_of_true hgood (Option.some_ne_none _).symm, fun _ => hheld pos, rfl⟩
  dsimp only
  refine ⟨?_, fun _ => hheld (pos + 1), rfl⟩
  rw [List.forall_mem_append, List.forall_mem_singleton, and_iff_right hgood,
    good_of_op (show Op.stat ≠ .remove ∧ Op.stat ≠ .renameFrom by decide), ne_eq, Option.some.injEq]
  rcases hlisted name (List.mem_of_getElem? hname) with rfl | rfl | hordinary
  · exact iff_of_true hpath (by decide)
  · -- The folder above has no ordinary name.
    refine iff_of_false (fun h => ?_) (not_not.mpr rfl)
    unfold Platform.push at h
    rw [if_neg (by decide)] at h
    split_ifs at h
    · exact Base.noConfusion h.base
    · exact (h.names ['.', '.'] (List.mem_append_right _ List.mem_cons_self)).ne_dots rfl
  · refine iff_of_true ?_ hordinary.ne_dots
    exact (inside_push hordinary.ne_nil hordinary.ne_dot hordinary.ne_dots hordinary.no_separator).mpr
      ⟨hpath, hordinary.no_prefix⟩

/-- The requests that stay in the share. -/
def State.Fits (platform : Platform) (fs : Fs σ H M) (s : State σ H) (body : List UInt8) : Prop :=
  let file_id := (u32le body 4).getD 0
  let major := (u32le body 12).getD 0
  let minor := (u32le body 16).getD 0
  let params := body.drop 20
  if major = irpMjCreate then
    ∀ path, s.resolve platform (createName params) = some path → NoPrefix platform (createName params)
  else if major = irpMjClose then ∀ f, s.drive.files file_id = some f → f.delete_on_close = true → f.path ≠ s.root
  else if major = irpMjSetInformation then RenameFits platform s file_id params
  else if major = irpMjDirectoryControl ∧ minor = irpMnQueryDirectory then EntryFits fs s file_id params
  else True

theorem io_confined (hdir : fs.Lists platform) (hs : s.drive.Held platform) (body : List UInt8) :
    Reply.Confined platform s (s.Fits platform fs body) (s.io platform fs body) := by
  unfold State.io State.Fits
  dsimp only
  obtain ⟨major, hmajor⟩ : ∃ major, major = (u32le body 12).getD 0 := ⟨_, rfl⟩
  rw [← hmajor]
  by_cases hcreate : major = irpMjCreate
  · rw [if_pos hcreate, if_pos hcreate]
    exact create_confined hs _
  rw [if_neg hcreate, if_neg hcreate]
  by_cases hclose : major = irpMjClose
  · rw [if_pos hclose, if_pos hclose]
    exact close_confined hs _
  rw [if_neg hclose, if_neg hclose]
  by_cases hset : major = irpMjSetInformation
  · have hread : major ≠ irpMjRead := by rw [hset]; decide
    have hwrite : major ≠ irpMjWrite := by rw [hset]; decide
    have hquery : major ≠ irpMjQueryInformation := by rw [hset]; decide
    rw [if_pos hset, if_neg hread, if_neg hwrite, if_neg hquery, if_pos hset]
    exact setInfo_confined hs _ _
  rw [if_neg hset]
  by_cases hdirectory : major = irpMjDirectoryControl ∧ (u32le body 16).getD 0 = irpMnQueryDirectory
  · obtain ⟨hmajor', hminor⟩ := hdirectory
    have hread : major ≠ irpMjRead := by rw [hmajor']; decide
    have hwrite : major ≠ irpMjWrite := by rw [hmajor']; decide
    have hquery : major ≠ irpMjQueryInformation := by rw [hmajor']; decide
    have hvolume : major ≠ irpMjQueryVolumeInformation := by rw [hmajor']; decide
    rw [if_pos ⟨hmajor', hminor⟩, if_neg hread, if_neg hwrite, if_neg hquery, if_neg hset, if_neg hvolume,
      if_pos hmajor', if_pos hminor]
    exact queryDirectory_confined hdir hs _ _
  rw [if_neg hdirectory]
  -- The other requests touch a handle's own path or none.
  split_ifs with hread hwrite hquery hvolume hcontrol hminor
  · exact read_confined hs _ _
  · exact write_confined hs _ _
  · exact queryInfo_confined hs _ _
  · exact queryVolume_confined hs _
  · exact absurd ⟨hcontrol, hminor⟩ hdirectory
  · exact confined_of_nil hs
  · exact confined_of_nil hs
  · exact confined_of_nil hs

end Request

/-! ## Whole runs -/

namespace RdpdrChannel

variable (platform) in
/-- Every path that a message touches is in the share of its drive, and the root is not removed or renamed. -/
def Confined (ch : RdpdrChannel σ H) (msg : List UInt8) : Prop :=
  ∀ i d r, ch.reply platform fs msg = some (i, d, r) → ∀ t ∈ r.touched, t.Good platform d.device_id

variable (platform) in
/-- A message to a drive is a request that stays in the share. -/
def Fits (ch : RdpdrChannel σ H) (msg : List UInt8) : Prop :=
  ∀ i d, ch.target msg = some (i, d) → State.Fits platform fs ⟨d, ch.tree⟩ (msg.drop 4)

variable (platform) in
/-- Every handle of every drive has a path in its drive's share. -/
def Held (ch : RdpdrChannel σ H) : Prop := ∀ d ∈ ch.drives, d.Held platform

variable {fs}

theorem mem_of_target {ch : RdpdrChannel σ H} {msg : List UInt8} {i : ℕ} {d : DriveDevice H}
    (h : ch.target msg = some (i, d)) : d ∈ ch.drives := by
  unfold target at h
  split_ifs at h
  obtain ⟨j, -, h⟩ := Option.bind_eq_some_iff.mp h
  obtain ⟨d', hd', h⟩ := Option.map_eq_some_iff.mp h
  cases h
  exact List.mem_of_getElem? hd'

theorem confined_step (hdir : fs.Lists platform) {ch : RdpdrChannel σ H} (hch : ch.Held platform)
    (msg : List UInt8) : (ch.Confined platform fs msg ↔ ch.Fits platform fs msg) ∧
      (ch.Fits platform fs msg → (ch.process platform fs msg).Held platform) := by
  unfold Confined Fits process reply
  rcases htarget : ch.target msg with _ | ⟨i, d⟩
  · refine ⟨iff_of_true ?_ ?_, fun _ => hch⟩
    · exact fun i d r h => absurd h (Option.some_ne_none _).symm
    · exact fun i d h => absurd h (Option.some_ne_none _).symm
  have hconfined := io_confined (s := ⟨d, ch.tree⟩) hdir (hch d (mem_of_target htarget)) (msg.drop 4)
  rw [Option.map_some]
  constructor
  · constructor
    · intro h i' d' hd'
      cases hd'
      exact hconfined.touched.mp (h i d _ rfl)
    · intro h i' d' r hr
      cases hr
      exact hconfined.touched.mpr (h i d rfl)
  · intro h d' hd'
    rcases List.mem_or_eq_of_mem_set hd' with hd' | rfl
    · exact hch d' hd'
    · exact hconfined.held (h i d rfl)

def start (n : ℕ) (tree : σ) : RdpdrChannel σ H := addDrive^[n] ⟨[], tree⟩

theorem held_start (n : ℕ) (tree : σ) : (start n tree : RdpdrChannel σ H).Held platform := by
  induction n with
  | zero => exact fun d hd => absurd hd List.not_mem_nil
  | succ n ih =>
    rw [start, Function.iterate_succ_apply']
    intro d hd
    rcases List.mem_append.mp hd with hd | hd
    · exact ih d hd
    · rw [List.mem_singleton.mp hd]
      exact ⟨fun id f hf => absurd hf (Option.some_ne_none f).symm,
        fun id f _ hf => absurd hf (Option.some_ne_none f).symm⟩

/-- Every message of a run keeps its drive in the share, if and only if every message is a request that
stays in it. -/
theorem confined_iff (platform : Platform) (fs : Fs σ H M) (hdir : fs.Lists platform) (n : ℕ) (tree : σ)
    (msgs : List (List UInt8)) :
    Along (process platform fs) (Confined platform fs) (start n tree) msgs ↔
      Along (process platform fs) (Fits platform fs) (start n tree) msgs := by
  have hrun : ∀ ch : RdpdrChannel σ H, ch.Held platform → (Along (process platform fs) (Confined platform fs) ch msgs ↔
        Along (process platform fs) (Fits platform fs) ch msgs) := by
    induction msgs with
    | nil => exact fun _ _ => Iff.rfl
    | cons msg msgs ih =>
      intro ch hch
      obtain ⟨hiff, hheld⟩ := confined_step hdir hch msg
      rw [Along, Along, hiff]
      exact and_congr_right fun hfits => ih _ (hheld hfits)
  exact hrun _ (held_start n tree)

/-- A file system that has every folder and no file. -/
def folders : Fs Unit Unit Unit where
  exist _ _ := true
  isDir _ _ := true
  createDir _ _ := some ()
  openWith _ _ _ := none
  openRead _ _ := none
  read _ _ _ _ := none
  write _ _ _ _ := none
  setLen _ _ _ := none
  metadata _ _ := some ()
  readDir _ _ := some []
  removeDirAll _ _ := ()
  removeFile _ _ := ()
  rename _ _ _ := some ()

theorem lists_folders (platform : Platform) : folders.Lists platform := by
  intro tree path names hnames n hn
  rw [← Option.some.inj hnames] at hn
  exact absurd hn List.not_mem_nil

def request (file_id major minor : UInt32) (params : List UInt8) : List UInt8 :=
  leBytes 2 rdpdrCtypCore.toNat ++ leBytes 2 pakidCoreDeviceIorequest.toNat ++ leBytes 4 1 ++
    leBytes 4 file_id.toNat ++ leBytes 4 0 ++ leBytes 4 major.toNat ++ leBytes 4 minor.toNat ++ params

def openFolder (name : List UInt8) : List UInt8 :=
  request 0 irpMjCreate 0 (List.replicate 20 0 ++ leBytes 4 fileOpen.toNat ++ leBytes 4 1 ++
    leBytes 4 name.length ++ name)

def markDeleted : List UInt8 :=
  request 1 irpMjSetInformation 0 (leBytes 4 fileDispositionInformation.toNat ++ leBytes 4 1 ++
    List.replicate 24 0 ++ [1])

/-- The folder `a` is opened, and asked about. -/
theorem confined_openFolder : Along (process unix folders) (Confined unix folders) (start 1 ())
    [openFolder [97, 0], request 1 irpMjQueryInformation 0 []] := by
  refine (confined_iff unix folders (lists_folders unix) 1 () _).mpr ⟨?_, ?_, trivial⟩
  · intro i d _
    unfold State.Fits
    dsimp only
    rw [if_pos (by decide +kernel)]
    exact fun _ _ _ _ _ _ => rfl
  · intro i d _
    unfold State.Fits
    dsimp only
    rw [if_neg (by decide +kernel), if_neg (by decide +kernel), if_neg (by decide +kernel), if_neg (by decide +kernel)]
    trivial

/-- What a message touches. -/
def touchedBy (platform : Platform) (fs : Fs σ H M) (ch : RdpdrChannel σ H) (msg : List UInt8) : List Touch :=
  (ch.reply platform fs msg).elim [] fun r => r.2.2.touched

theorem Confined.good {ch : RdpdrChannel σ H} {msg : List UInt8} (h : ch.Confined platform fs msg) {t : Touch}
    (ht : t ∈ ch.touchedBy platform fs msg) : ∃ device_id, t.Good platform device_id := by
  unfold touchedBy at ht
  rcases hreply : ch.reply platform fs msg with _ | ⟨i, d, r⟩
  · rw [hreply] at ht
    exact absurd ht List.not_mem_nil
  · rw [hreply] at ht
    exact ⟨d.device_id, h i d r hreply t ht⟩

/-- On Windows the name `C:` opens another drive's folder; everywhere the root can be marked and is removed
when it is closed, and an enumeration looks at the folder above. -/
theorem leaves_share :
    ¬ Along (process windows folders) (Confined windows folders) (start 1 ()) [openFolder [67, 0, 58, 0]] ∧
    ¬ Along (process unix folders) (Confined unix folders) (start 1 ())
      [openFolder [], markDeleted, request 1 irpMjClose 0 []] ∧
    ¬ Along (process unix folders) (Confined unix folders) (start 1 ())
      [openFolder [], request 1 irpMjDirectoryControl irpMnQueryDirectory [],
        request 1 irpMjDirectoryControl irpMnQueryDirectory []] := by
  refine ⟨?_, ?_, ?_⟩
  · rintro ⟨hopen, -⟩
    have htouched : ⟨.stat, ⟨.outside ['C', ':'], []⟩⟩ ∈
        touchedBy windows folders (start 1 ()) (openFolder [67, 0, 58, 0]) := by decide +kernel
    obtain ⟨device_id, hgood⟩ := hopen.good htouched
    exact Base.noConfusion hgood.inside.base
  · rintro ⟨-, -, hclose, -⟩
    have htouched : ⟨.remove, ⟨.share 1, []⟩⟩ ∈ touchedBy unix folders
        (run (process unix folders) (start 1 ()) [openFolder [], markDeleted])
        (request 1 irpMjClose 0 []) := by decide +kernel
    obtain ⟨device_id, hgood⟩ := hclose.good htouched
    have hbase : Base.share 1 = .share device_id := hgood.inside.base
    exact hgood.root (.inl rfl) (congrArg (Path.mk · []) hbase)
  · rintro ⟨-, -, hlist, -⟩
    have htouched : ⟨.stat, ⟨.share 1, [['.', '.']]⟩⟩ ∈ touchedBy unix folders
        (run (process unix folders) (start 1 ()) [openFolder [],
          request 1 irpMjDirectoryControl irpMnQueryDirectory []])
        (request 1 irpMjDirectoryControl irpMnQueryDirectory []) := by decide +kernel
    obtain ⟨device_id, hgood⟩ := hlist.good htouched
    exact (hgood.inside.names _ List.mem_cons_self).ne_dots rfl

end RdpdrChannel

end Rdpio.Channels.Rdpdr
