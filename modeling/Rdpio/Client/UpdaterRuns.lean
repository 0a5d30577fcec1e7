import Mathlib.Data.Prod.Lex
import Rdpio.Client.UpdaterInstall
import Rdpio.Hyper.UpdateRuns

/-!
# Packages waiting in the folder

`stage` and `staged` called by any number of processes on one folder.
-/

namespace Rdpio.Client.Updater

open Lib Lib.Files Hyper.Update

def rank (m : Manifest) : List ℕ ×ₗ List ℕ := toLex (versionParts m.version, buildTime m.build)

theorem newer_iff (version build : Text) (m : Manifest) :
    m.newerThan version build = true ↔ toLex (versionParts version, buildTime build) < rank m := by
  unfold Manifest.newerThan newer rank
  dsimp only
  rw [Prod.Lex.toLex_lt_toLex]
  split_ifs with h
  · rw [decide_eq_true_eq]
    exact ⟨.inl, fun h' => h'.elim id fun h' => absurd h'.1.symm h⟩
  · rw [decide_eq_true_eq]
    have heq := (not_not.mp h).symm
    exact ⟨fun h' => .inr ⟨heq, h'⟩, fun h' => h'.elim (fun h' => absurd heq h'.ne) And.right⟩

section
variable (libs : Libs) (key : List UInt8) (dir : Text)

structure Kept where
  path : Path
  exe : List UInt8
  signed : List UInt8
  manifest : Manifest

/-- The folder holds the package: the exe, and beside it the signed manifest that is for it. -/
structure Holds (d : Disk Path) (x : Kept) : Prop where
  folder : x.path.folder = some dir
  extension : x.path.extension = some "exe".toList
  exe : d x.path = some x.exe
  signed : d (sidecar x.path) = some x.signed
  verified : verified libs key x.signed = .ok x.manifest
  isOf : x.manifest.isOf libs x.exe = true

def Begins : Call → Disk Path → Prop
  | .stage p, d => verified libs key p.signed = .ok p.manifest ∧ p.manifest.isOf libs p.exe = true ∧
      ∀ x, Holds libs key dir d x → x.path = exePath dir p → x.exe = p.exe ∧ x.signed = p.signed
  | .staged _ _, d => ∀ x y, Holds libs key dir d x → Holds libs key dir d y → x.path ≠ y.path →
      rank x.manifest ≠ rank y.manifest

def folderAllowed : Allowed Path where
  op d
    | .read path, out => out = .done ∨ d path = none
    | .write path bytes, .cut _ n => ∀ x, Holds libs key dir d x → sidecar x.path = path → bytes.take n = x.signed
    | _, _ => True
  list d files := files.Nodup ∧ (∀ p ∈ files, p.folder = some dir) ∧ ∀ p, p.folder = some dir → d p ≠ none → p ∈ files

def promise : Promise Call Path Result Kept where
  Held := Holds libs key dir
  Lost
    | .stage _, _, _ => False
    | .staged version build, d, x => x.manifest.newerThan version build = false ∨
        ∃ y, Holds libs key dir d y ∧ y.manifest.newerThan x.manifest.version x.manifest.build = true
  Promised
    | .stage p, .stage (.ok path), x => x = ⟨path, p.exe, p.signed, p.manifest⟩
    | _, _, _ => False

def Right : Call → Disk Path → Result → Disk Path → Prop
  | .staged version build, before, .staged (some (path, m)), d =>
      m.newerThan version build = true ∧ (∃ x, Holds libs key dir d x ∧ x.path = path ∧ x.manifest = m) ∧
        ∀ x, Holds libs key dir before x ∨ Holds libs key dir d x → x.manifest.newerThan m.version m.build = false
  | _, _, _, _ => True

end

section
variable {libs : Libs} {key : List UInt8} {dir : Text}

theorem Holds.congr {d d' : Disk Path} {x : Kept} (h : Holds libs key dir d x) (hexe : d' x.path = d x.path)
    (hsigned : d' (sidecar x.path) = d (sidecar x.path)) : Holds libs key dir d' x :=
  { h with exe := hexe.trans h.exe, signed := hsigned.trans h.signed }

theorem Holds.manifest_eq {d : Disk Path} {x y : Kept} (hx : Holds libs key dir d x) (hy : Holds libs key dir d y)
    (hpath : x.path = y.path) : x.manifest = y.manifest := by
  have hsigned : some x.signed = some y.signed := by rw [← hx.signed, ← hy.signed, hpath]
  have hok : Except.ok x.manifest = Except.ok (ε := UpdateError) y.manifest := by
    rw [← hx.verified, ← hy.verified, Option.some.inj hsigned]
  exact Except.ok.inj hok

theorem splitName_exePath (dir : Text) (p : Package) : ∃ stem, stem ≠ [] ∧
    splitName (exePath dir p).name = (stem, some "exe".toList) :=
  ⟨_, by simp, splitName_append (by simp) (show "exe".toList ≠ [] by decide) (by decide)⟩

theorem extension_exePath (dir : Text) (p : Package) : (exePath dir p).extension = some "exe".toList := by
  obtain ⟨stem, -, hsplit⟩ := splitName_exePath dir p
  exact congrArg Prod.snd hsplit

theorem extension_part (dir : Text) (p : Package) :
    ((exePath dir p).withExtension "part".toList).extension = some "part".toList := by
  obtain ⟨stem, hstem, hsplit⟩ := splitName_exePath dir p
  unfold Path.withExtension Path.extension
  rw [hsplit]
  exact congrArg Prod.snd (splitName_append hstem (by decide) (by decide))

theorem Holds.update {d : Disk Path} {x : Kept} (h : Holds libs key dir d x) {path : Path} {v : Option (List UInt8)}
    (hexe : x.path = path → v = some x.exe) (hsigned : sidecar x.path = path → v = some x.signed) :
    Holds libs key dir (Function.update d path v) x := by
  refine h.congr ?_ ?_
  · rw [Function.update_apply]
    split_ifs with heq
    · rw [hexe heq, h.exe]
    · rfl
  · rw [Function.update_apply]
    split_ifs with heq
    · rw [hsigned heq, h.signed]
    · rfl

theorem stage_safe {p : Package} {d : Disk Path} (h : Begins libs key dir (.stage p) d) :
    (stage dir p).Safe (folderAllowed libs key dir) ((promise libs key dir).During (.stage p) d)
      ((promise libs key dir).Returns (Right libs key dir) (.stage p) d) d := by
  obtain ⟨hverified, hisOf, hplace⟩ := h
  have hexe := extension_exePath dir p
  have htmp := extension_part dir p
  obtain ⟨exe, hexeEq⟩ : ∃ exe, exe = exePath dir p := ⟨_, rfl⟩
  obtain ⟨tmp, htmpEq⟩ : ∃ tmp, tmp = exe.withExtension "part".toList := ⟨_, rfl⟩
  rw [← hexeEq] at hexe hplace
  rw [← hexeEq, ← htmpEq] at htmp
  have htmp_exe : tmp ≠ exe := fun heq => by
    rw [heq, hexe] at htmp
    exact absurd htmp (by decide)
  have htmp_sidecar {q : Path} (hq : q.extension = some "exe".toList) : sidecar q ≠ tmp := fun heq => by
    rw [← heq, extension_sidecar (name_ne_nil hq)] at htmp
    exact absurd htmp (by decide)
  have htmp_path {q : Path} (hq : q.extension = some "exe".toList) : q ≠ tmp := fun heq => by
    rw [← heq, hq] at htmp
    exact absurd htmp (by decide)
  have herror {d' : Disk Path} (why : Why) (hkeep : ∀ x, Holds libs key dir d x → Holds libs key dir d' x) :
      (Program.done (π := Path) (Result.stage (.error why))).Safe (folderAllowed libs key dir)
        ((promise libs key dir).During (.stage p) d)
        ((promise libs key dir).Returns (Right libs key dir) (.stage p) d) d' :=
    ⟨fun x hx => .inl (hkeep x hx), trivial, fun x hx => hx.elim⟩
  have hpart (v : Option (List UInt8)) (x : Kept) (hx : Holds libs key dir d x) :
      Holds libs key dir (Function.update d tmp v) x :=
    hx.update (fun h => absurd h (htmp_path hx.extension)) fun h => absurd h (htmp_sidecar hx.extension)
  -- The exe in place: a package that was there has the same one.
  obtain ⟨placed, hplaced⟩ : ∃ placed, placed =
      Function.update (Function.update (Function.update d tmp (some p.exe)) tmp none) exe (some p.exe) := ⟨_, rfl⟩
  have hkeep (x : Kept) (hx : Holds libs key dir d x) : Holds libs key dir placed x := by
    rw [hplaced, Function.update_idem]
    exact (hpart none x hx).update (fun h => congrArg some (hplace x hx h).1.symm)
      fun h => absurd h (sidecar_ne hexe hx.extension)
  unfold stage
  rw [← hexeEq]
  dsimp only
  rw [← htmpEq]
  refine ⟨fun x hx => .inl hx, fun made _ => ?_⟩
  cases hfolder : ((FileOp.makeFolder : FileOp Path).run made d).2 with
  | error why => exact herror _ fun x hx => hx
  | ok _ =>
    refine ⟨fun x hx => .inl hx, fun out _ => ?_⟩
    cases out with
    | failed why => exact herror _ fun x hx => hx
    | cut why n => exact herror _ (hpart _)
    | done =>
      refine ⟨fun x hx => .inl (hpart _ x hx), fun out _ => ?_⟩
      have hwrite : (FileOp.write tmp p.exe).run .done ((FileOp.makeFolder : FileOp Path).run made d).1 =
          (Function.update d tmp (some p.exe), .ok []) := rfl
      rw [hwrite]
      by_cases hout : out = .done
      · subst hout
        have hrename : (FileOp.rename tmp exe).run .done (Function.update d tmp (some p.exe)) = (placed, .ok []) := by
          rw [hplaced]
          exact rename_done (Function.update_self ..)
        rw [hrename]
        refine ⟨fun x hx => .inl (hkeep x hx), fun out hout => ?_⟩
        cases out with
        | failed why => exact herror _ hkeep
        | cut why n =>
          refine herror _ fun x hx => (hkeep x hx).update (fun h => absurd h.symm (sidecar_ne hx.extension hexe)) ?_
          exact fun h => congrArg some (hout x (hkeep x hx) h)
        | done =>
          refine ⟨fun x hx => .inl ((hkeep x hx).update (fun h => absurd h.symm (sidecar_ne hx.extension hexe)) ?_),
            trivial, fun x hx => ?_⟩
          · exact fun h => congrArg some (hplace x hx (sidecar_injective h)).2.symm
          · obtain rfl : x = ⟨exe, p.exe, p.signed, p.manifest⟩ := hx
            constructor
            case folder => rw [hexeEq]; rfl
            case extension => exact hexe
            case exe =>
              refine (Function.update_of_ne (sidecar_ne hexe hexe).symm ..).trans ?_
              rw [hplaced]
              exact Function.update_self ..
            case signed => exact Function.update_self ..
            case verified => exact hverified
            case isOf => exact hisOf
      · obtain ⟨why, hfailed⟩ := rename_failed (d := Function.update d tmp (some p.exe)) (a := tmp) (b := exe)
          (.inl hout)
        rw [hfailed]
        exact herror _ (hpart _)

/-! ## Looking for the newest -/

variable {version build : Text} {before d : Disk Path}

/-- While the program for the call `staged` runs. -/
def Looks (libs : Libs) (key : List UInt8) (dir version build : Text) (before : Disk Path)
    (p : Program Path Result) (d : Disk Path) : Prop :=
  p.Safe (folderAllowed libs key dir) ((promise libs key dir).During (.staged version build) before)
    ((promise libs key dir).Returns (Right libs key dir) (.staged version build) before) d

theorem package_of_looks {path : Path} {next : Except Why (List UInt8 × List UInt8 × Manifest) → Program Path Result}
    (hfolder : path.folder = some dir) (hextension : path.extension = some "exe".toList)
    (hmid : (promise libs key dir).During (.staged version build) before d)
    (hnone : (∀ x, Holds libs key dir d x → x.path ≠ path) →
      ∀ why, Looks libs key dir version build before (next (.error why)) d)
    (hsome : ∀ x, Holds libs key dir d x → x.path = path →
      Looks libs key dir version build before (next (.ok (x.signed, x.exe, x.manifest))) d) :
    Looks libs key dir version build before (package_of libs key path next) d := by
  refine ⟨hmid, fun out hout => ?_⟩
  cases hsigned : d (sidecar path) with
  | none =>
    rw [show (FileOp.read (sidecar path)).run out d = (d, .error notFound) by
      unfold FileOp.run; dsimp only; rw [hsigned]]
    refine hnone (fun x hx heq => ?_) _
    have hthere := hx.signed
    rw [heq, hsigned] at hthere
    cases hthere
  | some signed =>
    obtain rfl : out = .done := hout.resolve_right fun h => by rw [hsigned] at h; cases h
    rw [show (FileOp.read (sidecar path)).run .done d = (d, .ok signed) by
      unfold FileOp.run Outcome.error?; dsimp only; rw [hsigned]]
    refine ⟨hmid, fun out hout => ?_⟩
    cases hexe : d path with
    | none =>
      rw [show (FileOp.read path).run out d = (d, .error notFound) by unfold FileOp.run; dsimp only; rw [hexe]]
      refine hnone (fun x hx heq => ?_) _
      have hthere := hx.exe
      rw [heq, hexe] at hthere
      cases hthere
    | some bytes =>
      obtain rfl : out = .done := hout.resolve_right fun h : d path = none => by rw [hexe] at h; cases h
      rw [show (FileOp.read path).run .done d = (d, .ok bytes) by
        unfold FileOp.run Outcome.error?; dsimp only; rw [hexe]]
      -- What is held here has these bytes, so it checks.
      have hheld (x : Kept) (hx : Holds libs key dir d x) (heq : x.path = path) :
          verified libs key signed = .ok x.manifest ∧ x.manifest.isOf libs bytes = true := by
        have hxe := hx.exe
        have hxs := hx.signed
        rw [heq, hexe] at hxe
        rw [heq, hsigned] at hxs
        rw [Option.some.inj hxe, Option.some.inj hxs]
        exact ⟨hx.verified, hx.isOf⟩
      dsimp only
      cases hverified : verified libs key signed with
      | error e =>
        refine hnone (fun x hx heq => ?_) _
        have hok := (hheld x hx heq).1
        rw [hverified] at hok
        cases hok
      | ok m =>
        dsimp only
        by_cases hisOf : m.isOf libs bytes = true
        · rw [if_pos hisOf]
          exact hsome ⟨path, bytes, signed, m⟩ ⟨hfolder, hextension, hexe, hsigned, hverified, hisOf⟩ rfl
        · rw [if_neg hisOf]
          refine hnone (fun x hx heq => ?_) _
          obtain ⟨hok, his⟩ := hheld x hx heq
          rw [hverified] at hok
          obtain rfl := Except.ok.inj hok
          exact hisOf his

theorem remove_run (out : Outcome) (d : Disk Path) (path : Path) :
    (∀ p, p ≠ path → ((FileOp.remove path).run out d).1 p = d p) ∧
      (((FileOp.remove path).run out d).1 path = d path ∨ ((FileOp.remove path).run out d).1 path = none) := by
  unfold FileOp.run
  dsimp only
  split
  · exact ⟨fun p _ => rfl, .inl rfl⟩
  · exact ⟨fun p _ => rfl, .inl rfl⟩
  · exact ⟨fun p hp => Function.update_of_ne hp .., .inr (Function.update_self ..)⟩

theorem remove_package_looks {path : Path} {next : Program Path Result}
    (hextension : path.extension = some "exe".toList)
    (hmid : (promise libs key dir).During (.staged version build) before d)
    (hlost : ∀ x, Holds libs key dir before x → x.path = path →
      (promise libs key dir).Lost (.staged version build) before x)
    (hnext : ∀ d', (promise libs key dir).During (.staged version build) before d' →
      (∀ p, d' p = d p ∨ d' p = none) → (∀ p, p ≠ path → p ≠ sidecar path → d' p = d p) →
      Looks libs key dir version build before next d') :
    Looks libs key dir version build before (remove_package path next) d := by
  have hduring {d' : Disk Path} (hsame : ∀ p, p ≠ path → p ≠ sidecar path → d' p = d p) :
      (promise libs key dir).During (.staged version build) before d' := by
    intro x hx
    by_cases hpath : x.path = path
    · exact .inr (hlost x hx hpath)
    · rcases hmid x hx with hheld | hgone
      · refine .inl (hheld.congr (hsame _ hpath (sidecar_ne hx.extension hextension).symm) (hsame _ ?_ ?_))
        · exact sidecar_ne hextension hx.extension
        · exact fun h => hpath (sidecar_injective h)
      · exact .inr hgone
  refine ⟨hmid, fun out _ => ?_⟩
  obtain ⟨hothers, hexe⟩ := remove_run out d path
  refine ⟨hduring fun p hp _ => hothers p hp, fun out' _ => ?_⟩
  obtain ⟨hothers', hsidecar⟩ := remove_run out' ((FileOp.remove path).run out d).1 (sidecar path)
  have hsame : ∀ p, p ≠ path → p ≠ sidecar path → ((FileOp.remove (sidecar path)).run out'
      ((FileOp.remove path).run out d).1).1 p = d p :=
    fun p hp hs => (hothers' p hs).trans (hothers p hp)
  refine hnext _ (hduring hsame) (fun p => ?_) hsame
  by_cases hs : p = sidecar path
  · subst hs
    rw [← hothers _ (sidecar_ne hextension hextension)]
    exact hsidecar
  · rw [hothers' p hs]
    by_cases hp : p = path
    · exact hp ▸ hexe
    · exact .inl (hothers p hp)

structure Looking (libs : Libs) (key : List UInt8) (dir version build : Text) (before d : Disk Path)
    (todo : List Path) (best : Option (Path × Manifest)) : Prop where
  mid : (promise libs key dir).During (.staged version build) before d
  shrinks : ∀ p, d p = before p ∨ d p = none
  nodup : todo.Nodup
  folder : ∀ p ∈ todo, p.folder = some dir
  same : ∀ p ∈ todo, p.extension = some "exe".toList → d p = before p ∧ d (sidecar p) = before (sidecar p)
  newest : ∀ path m, best = some (path, m) → path ∉ todo ∧ m.newerThan version build = true ∧
    ∃ x, Holds libs key dir d x ∧ x.path = path ∧ x.manifest = m
  seen : ∀ x, Holds libs key dir before x → x.manifest.newerThan version build = true → x.path ∈ todo ∨
    ∃ path m, best = some (path, m) ∧ (x.path = path ∨ rank x.manifest < rank m)

theorem Holds.of_shrinks (hshrinks : ∀ p, d p = before p ∨ d p = none) {x : Kept} (hx : Holds libs key dir d x) :
    Holds libs key dir before x := by
  refine hx.congr ?_ ?_
  · refine ((hshrinks x.path).resolve_right fun h => ?_).symm
    rw [hx.exe] at h
    cases h
  · refine ((hshrinks (sidecar x.path)).resolve_right fun h => ?_).symm
    rw [hx.signed] at h
    cases h

theorem Looking.behind {path : Path} {todo : List Path} {best best' : Option (Path × Manifest)}
    (h : Looking libs key dir version build before d (path :: todo) best)
    (hbest : ∀ path m, best' = some (path, m) → path ∉ todo ∧ m.newerThan version build = true ∧
      ∃ x, Holds libs key dir d x ∧ x.path = path ∧ x.manifest = m)
    (hseen : ∀ x, Holds libs key dir before x → x.manifest.newerThan version build = true → x.path = path ∨
      (∃ path m, best = some (path, m) ∧ (x.path = path ∨ rank x.manifest < rank m)) →
      ∃ path m, best' = some (path, m) ∧ (x.path = path ∨ rank x.manifest < rank m)) :
    Looking libs key dir version build before d todo best' := by
  constructor
  case mid => exact h.mid
  case shrinks => exact h.shrinks
  case nodup => exact (List.nodup_cons.mp h.nodup).2
  case folder => exact fun p hp => h.folder p (List.mem_cons_of_mem _ hp)
  case same => exact fun p hp => h.same p (List.mem_cons_of_mem _ hp)
  case newest => exact hbest
  case seen =>
    intro x hx hnewer
    rcases h.seen x hx hnewer with hmem | hbehind
    · rcases List.mem_cons.mp hmem with hpath | hmem
      · exact .inr (hseen x hx hnewer (.inl hpath))
      · exact .inl hmem
    · exact .inr (hseen x hx hnewer (.inr hbehind))

theorem Looking.removed {path : Path} {todo : List Path} {best : Option (Path × Manifest)} {d' : Disk Path}
    (h : Looking libs key dir version build before d todo best) (hextension : path.extension = some "exe".toList)
    (hpath : path ∉ todo) (hbest : ∀ m, best ≠ some (path, m))
    (hmid : (promise libs key dir).During (.staged version build) before d')
    (hgone : ∀ p, d' p = d p ∨ d' p = none) (hsame : ∀ p, p ≠ path → p ≠ sidecar path → d' p = d p) :
    Looking libs key dir version build before d' todo best := by
  have hkeep {p : Path} (hp : p.extension = some "exe".toList) (hne : p ≠ path) :
      d' p = d p ∧ d' (sidecar p) = d (sidecar p) :=
    ⟨hsame p hne (sidecar_ne hp hextension).symm,
      hsame _ (sidecar_ne hextension hp) fun heq => hne (sidecar_injective heq)⟩
  constructor
  case mid => exact hmid
  case shrinks =>
    intro p
    rcases hgone p with heq | hnone
    · rw [heq]
      exact h.shrinks p
    · exact .inr hnone
  case nodup => exact h.nodup
  case folder => exact h.folder
  case same =>
    intro p hp hext
    obtain ⟨h1, h2⟩ := hkeep hext fun heq => hpath (heq ▸ hp)
    obtain ⟨h3, h4⟩ := h.same p hp hext
    exact ⟨h1.trans h3, h2.trans h4⟩
  case newest =>
    intro p m hp
    obtain ⟨hnot, hnewer, x, hx, hxpath, hxm⟩ := h.newest p m hp
    obtain ⟨h1, h2⟩ := hkeep hx.extension fun heq => hbest m (by rw [hp, ← heq, hxpath])
    exact ⟨hnot, hnewer, x, hx.congr h1 h2, hxpath, hxm⟩
  case seen => exact h.seen

theorem newer_of_not {x y : Kept} (hbegins : Begins libs key dir (.staged version build) before)
    (hx : Holds libs key dir before x) (hy : Holds libs key dir before y) (hne : x.path ≠ y.path)
    (h : ¬ x.manifest.newerThan y.manifest.version y.manifest.build = true) : rank x.manifest < rank y.manifest := by
  rw [newer_iff] at h
  exact lt_of_le_of_ne (not_lt.mp h) (hbegins x y hx hy hne)

theorem scan_looks (hbegins : Begins libs key dir (.staged version build) before) {todo : List Path}
    {best : Option (Path × Manifest)} (h : Looking libs key dir version build before d todo best) :
    Looks libs key dir version build before (scan libs key version build todo best) d := by
  induction todo generalizing best d with
  | nil =>
    rw [scan]
    refine ⟨h.mid, ?_, fun x hx => hx.elim⟩
    rcases best with _ | ⟨path, m⟩
    · trivial
    obtain ⟨-, hnewer, y, hy, rfl, rfl⟩ := h.newest _ _ rfl
    refine ⟨hnewer, ⟨y, hy, rfl, rfl⟩, fun x hx => ?_⟩
    have hx : Holds libs key dir before x := hx.elim id fun hx => hx.of_shrinks h.shrinks
    have hy := hy.of_shrinks h.shrinks
    refine Bool.eq_false_iff.mpr fun hlater => ?_
    rw [newer_iff] at hlater
    -- A newer one is newer than this rdpio too, so the loop has seen it.
    have hthere : x.manifest.newerThan version build = true := by
      rw [newer_iff] at hnewer ⊢
      exact hnewer.trans hlater
    rcases h.seen x hx hthere with hmem | ⟨path, m, hpath, hold⟩
    · cases hmem
    · obtain ⟨rfl, rfl⟩ := Prod.mk.inj (Option.some.inj hpath)
      rcases hold with hpath | hold
      · rw [hx.manifest_eq hy hpath] at hlater
        exact lt_irrefl _ hlater
      · exact lt_asymm hold hlater
  | cons path rest ih =>
    obtain ⟨hpath, -⟩ := List.nodup_cons.mp h.nodup
    have hbestRest (p : Path) (m : Manifest) (hp : best = some (p, m)) : p ∉ rest ∧
        m.newerThan version build = true ∧ ∃ x, Holds libs key dir d x ∧ x.path = p ∧ x.manifest = m := by
      obtain ⟨hnot, hbest⟩ := h.newest p m hp
      exact ⟨fun hmem => hnot (List.mem_cons_of_mem _ hmem), hbest⟩
    rw [scan]
    by_cases hextension : path.extension = some "exe".toList
    · rw [if_neg (not_not.mpr hextension)]
      -- A package here at the beginning is still here.
      have hstill {x : Kept} (hx : Holds libs key dir before x) (heq : x.path = path) : Holds libs key dir d x := by
        obtain ⟨h1, h2⟩ := h.same path List.mem_cons_self hextension
        exact hx.congr (by rw [heq]; exact h1) (by rw [heq]; exact h2)
      -- What is no package newer than this rdpio is removed.
      have hnone (hold : ∀ x, Holds libs key dir before x → x.path = path →
          x.manifest.newerThan version build = false) :
          Looks libs key dir version build before (remove_package path (scan libs key version build rest best)) d := by
        refine remove_package_looks hextension h.mid (fun x hx heq => .inl (hold x hx heq)) fun d' hmid hgone hsame => ?_
        refine ih ((h.behind hbestRest fun x hx hnewer hseen => ?_).removed hextension hpath ?_ hmid hgone hsame)
        · rcases hseen with heq | hseen
          · rw [hold x hx heq] at hnewer
            cases hnewer
          · exact hseen
        · exact fun m hm => (h.newest path m hm).1 List.mem_cons_self
      refine package_of_looks (h.folder path List.mem_cons_self) hextension h.mid (fun hnot why => ?_)
        fun x hx heq => ?_
      · exact hnone fun x hx heq => absurd heq (hnot x (hstill hx heq))
      · have hx' := hx.of_shrinks h.shrinks
        subst heq
        unfold usable
        dsimp only
        by_cases hnewer : x.manifest.newerThan version build = true
        · rw [if_pos hnewer]
          rcases best with _ | ⟨old, b⟩
          · -- The first one.
            refine ih (h.behind (fun p m hp => ?_) fun y hy _ hseen => ?_)
            · obtain ⟨rfl, rfl⟩ := Prod.mk.inj (Option.some.inj hp)
              exact ⟨hpath, hnewer, x, hx, rfl, rfl⟩
            · rcases hseen with heq | ⟨p, m, hp, -⟩
              · exact ⟨_, _, rfl, .inl heq⟩
              · cases hp
          · obtain ⟨hold, -, z, hz, rfl, rfl⟩ := h.newest _ _ rfl
            have hz' := hz.of_shrinks h.shrinks
            have hne : z.path ≠ x.path := fun heq => hold (heq ▸ List.mem_cons_self)
            dsimp only
            by_cases hlater : x.manifest.newerThan z.manifest.version z.manifest.build = true
            · -- It is newer than the best, which goes.
              rw [if_pos hlater]
              refine remove_package_looks hz.extension h.mid (fun y hy heq => .inr ⟨x, hx', ?_⟩)
                fun d' hmid hgone hsame => ?_
              · rw [hy.manifest_eq hz' heq]
                exact hlater
              · refine ih ((h.behind (fun p m hp => ?_) fun y hy _ hseen => ?_).removed hz.extension
                  (fun hmem => hold (List.mem_cons_of_mem _ hmem)) ?_ hmid hgone hsame)
                · obtain ⟨rfl, rfl⟩ := Prod.mk.inj (Option.some.inj hp)
                  exact ⟨hpath, hnewer, x, hx, rfl, rfl⟩
                · refine ⟨_, _, rfl, ?_⟩
                  rw [newer_iff] at hlater
                  rcases hseen with heq | ⟨p, m, hp, heq | hless⟩
                  · exact .inl heq
                  · obtain ⟨rfl, rfl⟩ := Prod.mk.inj (Option.some.inj hp)
                    rw [hy.manifest_eq hz' heq]
                    exact .inr hlater
                  · obtain ⟨rfl, rfl⟩ := Prod.mk.inj (Option.some.inj hp)
                    exact .inr (hless.trans hlater)
                · exact fun m hm => hne (Prod.mk.inj (Option.some.inj hm)).1.symm
            · -- It is older than the best, and goes.
              rw [if_neg hlater]
              have hless := newer_of_not hbegins hx' hz' hne.symm hlater
              refine remove_package_looks hextension h.mid (fun y hy heq => .inr ⟨z, hz', ?_⟩)
                fun d' hmid hgone hsame => ?_
              · rw [hy.manifest_eq hx' heq, newer_iff]
                exact hless
              · refine ih ((h.behind hbestRest fun y hy _ hseen => ?_).removed hextension hpath ?_ hmid hgone hsame)
                · rcases hseen with heq | hseen
                  · refine ⟨_, _, rfl, .inr ?_⟩
                    rw [hy.manifest_eq hx' heq]
                    exact hless
                  · exact hseen
                · exact fun m hm => hne (Prod.mk.inj (Option.some.inj hm)).1
        · rw [if_neg hnewer]
          refine hnone fun y hy heq => ?_
          rw [hy.manifest_eq hx' heq]
          exact Bool.eq_false_iff.mpr hnewer
    · rw [if_pos hextension]
      refine ih (h.behind hbestRest fun x hx _ hseen => ?_)
      rcases hseen with rfl | hseen
      · exact absurd hx.extension hextension
      · exact hseen

theorem staged_looks (hbegins : Begins libs key dir (.staged version build) d) :
    Looks libs key dir version build d (staged libs key version build) d := by
  have hmid : (promise libs key dir).During (.staged version build) d d := fun x hx => .inl hx
  have hdone : Looks libs key dir version build d (.done (.staged none)) d := ⟨hmid, trivial, fun x hx => hx.elim⟩
  refine ⟨hmid, fun made _ => ?_⟩
  cases hfolder : ((FileOp.makeFolder : FileOp Path).run made d).2 with
  | error why => exact hdone
  | ok _ =>
    refine ⟨hmid, fun files hfiles => ?_, fun why => hdone⟩
    obtain ⟨hnodup, hfolder, hall⟩ := hfiles
    refine scan_looks hbegins ⟨hmid, fun p => .inl rfl, hnodup, hfolder, fun p _ _ => ⟨rfl, rfl⟩, ?_, ?_⟩
    · intro path m hm
      cases hm
    · intro x hx _
      refine .inl (hall _ hx.folder ?_)
      exact fun hnone => Option.some_ne_none _ (hx.exe.symm.trans hnone)

def untouched (d : Disk Path) : Machine Call Path Result := ⟨d, fun _ => none, [], []⟩

theorem inv_run {acts : List (Act Call Path)}
    (h : Along (Machine.next (body libs key dir)) (Apart (folderAllowed libs key dir) (Begins libs key dir))
      (untouched d) acts) :
    (run (Machine.next (body libs key dir)) (untouched d) acts).Inv (folderAllowed libs key dir)
      (promise libs key dir) (Right libs key dir) := by
  refine invariant_along (fun s => s.Inv (folderAllowed libs key dir) (promise libs key dir) (Right libs key dir))
    ?_ (fun s a hs ha => hs.next ha fun call d hbegins => ?_) h
  · constructor
    case right =>
      intro r hr
      cases hr
    case one =>
      refine .inl ⟨fun j => rfl, fun r hr => ?_⟩
      cases hr
  · cases call with
    | stage p => exact stage_safe hbegins
    | staged version build => exact staged_looks hbegins

end

def samplePackage : Package := ⟨asBytes Sample.signedText, Sample.manifest, [1, 2, 3]⟩

def rdpioExe : Path := ⟨some "rdpio".toList, "rdpio.exe".toList⟩

def newExe : Path := ⟨some "updates".toList, "rdpio-0.3.0.exe".toList⟩

def installed : Disk Path := fun p =>
  if p = rdpioExe then some [1] else if p = sidecar rdpioExe then some [2] else if p = newExe then some [3] else none

end Rdpio.Client.Updater
