import Rdpio.Hyper.Update
import Rdpio.Lib.Files

/-!
# The updater's files

`crates/rdp-client/src/updater.rs`: `package_of`, `stage` and `staged` as programs over files, and `replace_exe`
with an outcome for each of its operations.
-/

namespace Rdpio.Client.Updater

open Lib Lib.Files Hyper.Update

structure Path where
  folder : Option Text
  name : Text
deriving DecidableEq

def splitName (name : Text) : Text × Option Text :=
  let head := name.rdropWhile (· ≠ '.')
  if name = ['.', '.'] ∨ head.length ≤ 1 then (name, none)
  else (head.dropLast, some (name.rtakeWhile (· ≠ '.')))

def Path.extension (p : Path) : Option Text := (splitName p.name).2

def Path.withExtension (p : Path) (ext : Text) : Path := { p with name := (splitName p.name).1 ++ '.' :: ext }

def sidecar (exe : Path) : Path := { exe with name := exe.name ++ ".update".toList }

section
variable (libs : Libs) (key : List UInt8) {ρ : Type}

def package_of (exe : Path) (next : Except Why (List UInt8 × List UInt8 × Manifest) → Program Path ρ) :
    Program Path ρ :=
  .op (.read (sidecar exe)) fun
    | .error _ => next (.error "no signed manifest beside it (a local build?)".toList)
    | .ok signed => .op (.read exe) fun
      | .error e => next (.error e)
      | .ok bytes =>
        match verified libs key signed with
        | .error e => next (.error e.text)
        | .ok m =>
          if m.isOf libs bytes then next (.ok (signed, bytes, m))
          else next (.error "the manifest beside it is for another build".toList)

def remove_package (exe : Path) (next : Program Path ρ) : Program Path ρ :=
  .op (.remove exe) fun _ => .op (.remove (sidecar exe)) fun _ => next

inductive Call
  | stage (p : Package)
  | staged (version build : Text)

inductive Result
  | stage (r : Except Why Path)
  | staged (best : Option (Path × Manifest))

def exePath (dir : Text) (p : Package) : Path :=
  let stamp := p.manifest.build.map fun c => if c.isAlphanum then c else '-'
  ⟨some dir, "rdpio-".toList ++ p.manifest.version ++ '-' :: stamp ++ ".exe".toList⟩

/-- Keep a downloaded package until it's installed. -/
def stage (dir : Text) (p : Package) : Program Path Result :=
  .op .makeFolder fun
  | .error _ => .done (.stage (.error "no folder for updates".toList))
  | .ok _ =>
    let exe := exePath dir p
    let tmp := exe.withExtension "part".toList
    .op (.write tmp p.exe) fun
    | .error e => .done (.stage (.error e))
    | .ok _ => .op (.rename tmp exe) fun
      | .error e => .done (.stage (.error e))
      | .ok _ => .op (.write (sidecar exe) p.signed) fun
        | .error e => .done (.stage (.error e))
        | .ok _ => .done (.stage (.ok exe))

/-- The manifest of a package newer than this rdpio. -/
def usable (version build : Text) : Except Why (List UInt8 × List UInt8 × Manifest) → Option Manifest
  | .error _ => none
  | .ok (_, _, m) => if m.newerThan version build then some m else none

/-- The loop of `staged` over the entries of the folder. -/
def scan (version build : Text) : List Path → Option (Path × Manifest) → Program Path Result
  | [], best => .done (.staged best)
  | path :: rest, best =>
    if path.extension ≠ some "exe".toList then scan version build rest best
    else package_of libs key path fun found =>
      match usable version build found, best with
      | some m, none => scan version build rest (some (path, m))
      | some m, some (old, b) =>
        if m.newerThan b.version b.build then remove_package old (scan version build rest (some (path, m)))
        else remove_package path (scan version build rest best)
      | none, _ => remove_package path (scan version build rest best)

/-- The newest staged package newer than this rdpio. -/
def staged (version build : Text) : Program Path Result :=
  .op .makeFolder fun
  | .error _ => .done (.staged none)
  | .ok _ => .list fun
    | .error _ => .done (.staged none)
    | .ok files => scan libs key version build files none

def body (dir : Text) : Call → Program Path Result
  | .stage p => stage dir p
  | .staged version build => staged libs key version build

end

/-- How the operations of `replace_exe` go. -/
structure Faults where
  copy : Outcome := .done
  swap : Outcome := .done
  aside : Outcome := .done
  swapAgain : Outcome := .done
  rollBack : Outcome := .done
  remove : Outcome := .done
  manifest : Outcome := .done

def swapped (f : Faults) (d : Disk Path) (target aside staged : Path) : Disk Path × Except Why Unit :=
  let moved := (FileOp.rename target aside).run f.aside d
  match moved.2 with
  | .error e => (moved.1, .error e)
  | .ok _ =>
    let placed := (FileOp.rename staged target).run f.swapAgain moved.1
    match placed.2 with
    | .error e => (((FileOp.rename aside target).run f.rollBack placed.1).1, .error e)
    | .ok _ => (placed.1, .ok ())

/-- The end of `replace_exe`. -/
def writeManifest (f : Faults) (d : Disk Path) (target : Path) (signed : List UInt8) : Disk Path × Except Why Unit :=
  let written := (FileOp.write (sidecar target) signed).run f.manifest d
  (written.1, written.2.map fun _ => ())

def placeAside (f : Faults) (d : Disk Path) (target aside staged : Path) (signed : List UInt8) :
    Disk Path × Except Why Unit :=
  let second := swapped f d target aside staged
  match second.2 with
  | .error e => (((FileOp.remove staged).run f.remove second.1).1, .error e)
  | .ok _ => writeManifest f second.1 target signed

def asideOf (pid : UInt32) (target : Path) : Path :=
  { target with name := target.name ++ '.' :: (toString pid.toNat).toList ++ ".old".toList }

def replace_exe (pid : UInt32) (f : Faults) (d : Disk Path) (target new : Path) (signed : List UInt8) :
    Disk Path × Except Why Unit :=
  match target.folder with
  | none => (d, .error "no folder".toList)
  | some _ =>
    let staged := target.withExtension "exe.new".toList
    let copied := (FileOp.copy new staged).run f.copy d
    match copied.2 with
    | .error e => (copied.1, .error e)
    | .ok _ =>
      let first := (FileOp.rename staged target).run f.swap copied.1
      match first.2 with
      | .ok _ => writeManifest f first.1 target signed
      | .error _ => placeAside f first.1 target (asideOf pid target) staged signed

theorem splitName_append {a e : Text} (ha : a ≠ []) (he : e ≠ []) (hdot : '.' ∉ e) :
    splitName (a ++ '.' :: e) = (a, some e) := by
  have hall : ∀ c ∈ e.reverse, decide (c ≠ '.') = true := by
    intro c hc
    have hne : c ≠ '.' := by
      rintro rfl
      exact hdot (List.mem_reverse.mp hc)
    exact decide_eq_true hne
  have hrev : (a ++ '.' :: e).reverse = e.reverse ++ '.' :: a.reverse := by simp
  have hhead : (a ++ '.' :: e).rdropWhile (· ≠ '.') = a ++ ['.'] := by
    rw [List.rdropWhile, hrev, List.dropWhile_append_of_pos hall, List.dropWhile_cons_of_neg (by simp)]
    simp
  have htail : (a ++ '.' :: e).rtakeWhile (· ≠ '.') = e := by
    rw [List.rtakeWhile, hrev, List.takeWhile_append_of_pos hall, List.takeWhile_cons_of_neg (by simp)]
    simp
  have hlong : a.length ≠ 0 := by simpa using ha
  have hdots : a ++ '.' :: e ≠ ['.', '.'] := by
    intro h
    have hlen := congrArg List.length h
    have helen : e.length ≠ 0 := by simpa using he
    rw [List.length_append, List.length_cons, List.length_cons, List.length_cons, List.length_nil] at hlen
    omega
  unfold splitName
  dsimp only
  rw [hhead, htail, if_neg]
  · rw [List.dropLast_concat]
  · rw [List.length_append, List.length_singleton]
    rintro (h | h)
    · exact hdots h
    · omega

theorem extension_sidecar {p : Path} (h : p.name ≠ []) : (sidecar p).extension = some "update".toList := by
  unfold Path.extension sidecar
  have hsplit := splitName_append h (show "update".toList ≠ [] by decide) (by decide)
  exact congrArg Prod.snd hsplit

theorem sidecar_injective : Function.Injective sidecar := by
  intro p q h
  have hfolder : (sidecar p).folder = (sidecar q).folder := congrArg Path.folder h
  have hname : (sidecar p).name = (sidecar q).name := congrArg Path.name h
  obtain ⟨folder, name⟩ := p
  obtain ⟨folder', name'⟩ := q
  rw [Path.mk.injEq]
  exact ⟨hfolder, List.append_cancel_right hname⟩

theorem name_ne_nil {p : Path} {e : Text} (h : p.extension = some e) : p.name ≠ [] := by
  intro hnil
  have hnone : (splitName []).2 = none := by decide
  unfold Path.extension at h
  rw [hnil, hnone] at h
  cases h

theorem sidecar_ne {p q : Path} (hp : p.extension = some "exe".toList) (hq : q.extension = some "exe".toList) :
    sidecar q ≠ p := by
  rintro rfl
  rw [extension_sidecar (name_ne_nil hq)] at hp
  exact absurd hp (by decide)

theorem ne_of_name {p q : Path} (h : p.name ≠ q.name) : p ≠ q := fun heq => h (congrArg Path.name heq)

theorem withExtension_ne (p : Path) : p.withExtension "exe.new".toList ≠ p := by
  refine ne_of_name fun h => ?_
  unfold Path.withExtension at h
  dsimp only at h
  -- A name split behind this one would have `new` for its extension, and a longer stem.
  obtain ⟨stem, hstem⟩ : ∃ stem, stem = (splitName p.name).1 := ⟨_, rfl⟩
  rw [← hstem] at h
  have hsplit := splitName_append (show stem ++ ".exe".toList ≠ [] by simp) (show "new".toList ≠ [] by decide)
    (by decide)
  have hname : stem ++ ".exe".toList ++ '.' :: "new".toList = p.name := by
    rw [← h, List.append_assoc]
    rfl
  rw [hname] at hsplit
  rw [hsplit] at hstem
  exact absurd (congrArg List.length hstem) (by simp)

theorem append_ne {a b c e : Text} (hlen : c.length = e.length) (h : c ≠ e) : a ++ c ≠ b ++ e := fun heq =>
  h (List.append_inj' heq hlen).2

/-- The four files of an installation beside each other. -/
structure Beside (pid : UInt32) (target : Path) : Prop where
  staged : target.withExtension "exe.new".toList ≠ target
  staged_sidecar : target.withExtension "exe.new".toList ≠ sidecar target
  staged_aside : target.withExtension "exe.new".toList ≠ asideOf pid target
  aside : asideOf pid target ≠ target
  aside_sidecar : asideOf pid target ≠ sidecar target
  sidecar : sidecar target ≠ target

theorem beside (pid : UInt32) (target : Path) : Beside pid target := by
  have hnew : (target.withExtension "exe.new".toList).name =
      ((splitName target.name).1 ++ ".exe".toList) ++ ".new".toList := by
    rw [List.append_assoc]
    rfl
  have hold : (asideOf pid target).name = (target.name ++ '.' :: (toString pid.toNat).toList) ++ ".old".toList := rfl
  have hupdate : (sidecar target).name = (target.name ++ ".up".toList) ++ "date".toList := by
    rw [List.append_assoc]
    rfl
  constructor
  case staged => exact withExtension_ne target
  case staged_sidecar =>
    refine ne_of_name ?_
    rw [hnew, hupdate]
    exact append_ne rfl (by decide)
  case staged_aside =>
    refine ne_of_name ?_
    rw [hnew, hold]
    exact append_ne rfl (by decide)
  case aside =>
    refine ne_of_name fun h => ?_
    have hlen := congrArg List.length h
    have hend : ".old".toList.length = 4 := rfl
    rw [hold, List.length_append, List.length_append, hend] at hlen
    omega
  case aside_sidecar =>
    refine ne_of_name ?_
    rw [hold, hupdate]
    exact append_ne rfl (by decide)
  case sidecar =>
    refine ne_of_name fun h => ?_
    have hlen := congrArg List.length h
    have hend : "date".toList.length = 4 := rfl
    rw [hupdate, List.length_append, List.length_append, hend] at hlen
    omega

end Rdpio.Client.Updater
