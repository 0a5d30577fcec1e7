import Rdpio.Client.Updater

/-!
# An update is installed whole

`replace_exe` leaves the exe and its manifest as they were when it fails, and new when it does not, but for
two of its operations: the manifest's write, when the new exe is already in place, and the rename that puts
the old one back.
-/

namespace Rdpio.Client.Updater

open Lib Lib.Files Hyper.Update

section
variable {d : Disk Path} {o : Outcome} {a b : Path} {bytes : List UInt8}

theorem rename_done (h : d a = some bytes) :
    (FileOp.rename a b).run .done d = (Function.update (Function.update d a none) b (some bytes), .ok []) := by
  unfold FileOp.run Outcome.error?
  dsimp only
  rw [h]

theorem rename_failed (h : o ≠ .done ∨ d a = none) : ∃ why, (FileOp.rename a b).run o d = (d, .error why) := by
  unfold FileOp.run Outcome.error?
  dsimp only
  cases hfile : d a with
  | none => exact ⟨_, rfl⟩
  | some bytes =>
    rw [hfile] at h
    cases o with
    | done => exact (h.elim (fun h => h rfl) fun h => nomatch h).elim
    | failed why => exact ⟨why, rfl⟩
    | cut why n => exact ⟨why, rfl⟩

theorem store_failed (h : o ≠ .done) (path : Path) : ∃ why, (d.store o path bytes).2 = .error why ∧
    ∀ p, p ≠ path → (d.store o path bytes).1 p = d p := by
  cases o with
  | done => exact absurd rfl h
  | failed why => exact ⟨why, rfl, fun p _ => rfl⟩
  | cut why n => exact ⟨why, rfl, fun p hp => Function.update_of_ne hp ..⟩

end

/-! ## What the file system is to do -/

/-- On an error both files are as before; without one the exe is the new one, and the manifest its. -/
def Whole (d : Disk Path) (target new : Path) (signed : List UInt8) (r : Disk Path × Except Why Unit) : Prop :=
  match r.2 with
  | .error _ => r.1 target = d target ∧ r.1 (sidecar target) = d (sidecar target)
  | .ok _ => r.1 target = d new ∧ r.1 (sidecar target) = some signed

/-- The manifest is written, or the exe was this one already and the manifest is left as it was. -/
def ManifestKept (f : Faults) (d : Disk Path) (target new : Path) (signed : List UInt8) : Prop :=
  f.manifest = .done ∨
    d new = d target ∧ (d.store f.manifest (sidecar target) signed).1 (sidecar target) = d (sidecar target)

def NoHarm (f : Faults) (d : Disk Path) (target new : Path) (signed : List UInt8) : Prop :=
  target.folder ≠ none → d new ≠ none → f.copy = .done →
    if f.swap = .done ∨ d target ≠ none ∧ f.aside = .done ∧ f.swapAgain = .done then ManifestKept f d target new signed
    else d target ≠ none → f.aside = .done → f.rollBack = .done

section
variable {pid : UInt32} {f : Faults} {d : Disk Path} {target new : Path} {signed : List UInt8}

theorem writeManifest_whole {now : Disk Path} (hexe : now target = d new)
    (hmanifest : now (sidecar target) = d (sidecar target)) :
    Whole d target new signed (writeManifest f now target signed) ↔ ManifestKept f d target new signed := by
  have hne := (beside 0 target).sidecar.symm
  unfold ManifestKept
  cases hwrite : f.manifest with
  | done =>
    unfold writeManifest FileOp.run
    rw [hwrite]
    refine iff_of_true ⟨?_, Function.update_self ..⟩ (.inl rfl)
    exact (Function.update_of_ne hne ..).trans hexe
  | failed why =>
    unfold writeManifest FileOp.run
    rw [hwrite]
    constructor
    · rintro ⟨hkept, -⟩
      exact .inr ⟨hexe.symm.trans hkept, rfl⟩
    · rintro (h | ⟨h, -⟩)
      · cases h
      · exact ⟨hexe.trans h, hmanifest⟩
  | cut why n =>
    have hleft (m : Disk Path) : (m.store (.cut why n) (sidecar target) signed).1 (sidecar target) =
        some (signed.take n) :=
      Function.update_self ..
    have hother : (now.store (.cut why n) (sidecar target) signed).1 target = d new :=
      (Function.update_of_ne hne ..).trans hexe
    unfold writeManifest FileOp.run
    rw [hwrite, hleft]
    constructor
    · rintro ⟨hkept, hsame⟩
      exact .inr ⟨hother.symm.trans hkept, (hleft now).symm.trans hsame⟩
    · rintro (h | ⟨h, hsame⟩)
      · cases h
      · exact ⟨hother.trans h, (hleft now).trans hsame⟩

theorem whole_error {now : Disk Path} {why : Why} (hexe : now target = d target)
    (hmanifest : now (sidecar target) = d (sidecar target)) : Whole d target new signed (now, .error why) :=
  ⟨hexe, hmanifest⟩

theorem placeAside_whole {now : Disk Path} {bytes : List UInt8}
    (hstaged : now (target.withExtension "exe.new".toList) = some bytes) (hnew : d new = some bytes)
    (hexe : now target = d target) (hmanifest : now (sidecar target) = d (sidecar target)) :
    Whole d target new signed
        (placeAside f now target (asideOf pid target) (target.withExtension "exe.new".toList) signed) ↔
      if d target ≠ none ∧ f.aside = .done ∧ f.swapAgain = .done then ManifestKept f d target new signed
      else d target ≠ none → f.aside = .done → f.rollBack = .done := by
  have hb := beside pid target
  -- Removing the copy touches neither file.
  have hremove (m : Disk Path) (p : Path) (hp : p ≠ target.withExtension "exe.new".toList) :
      ((FileOp.remove (target.withExtension "exe.new".toList)).run f.remove m).1 p = m p := by
    unfold FileOp.run
    dsimp only
    split
    · rfl
    · rfl
    · exact Function.update_of_ne hp ..
  by_cases haside : f.aside = .done ∧ d target ≠ none
  · obtain ⟨haside, hfile⟩ := haside
    obtain ⟨old, hold⟩ := Option.ne_none_iff_exists'.mp hfile
    -- The old exe is moved aside.
    have hmoved : (FileOp.rename target (asideOf pid target)).run f.aside now =
        (Function.update (Function.update now target none) (asideOf pid target) (some old), .ok []) := by
      rw [haside]
      exact rename_done (hexe.trans hold)
    obtain ⟨moved, hmovedEq⟩ : ∃ moved, moved =
        Function.update (Function.update now target none) (asideOf pid target) (some old) := ⟨_, rfl⟩
    rw [← hmovedEq] at hmoved
    have hmovedStaged : moved (target.withExtension "exe.new".toList) = some bytes := by
      rw [hmovedEq, Function.update_of_ne hb.staged_aside, Function.update_of_ne hb.staged, hstaged]
    have hmovedAside : moved (asideOf pid target) = some old := by
      rw [hmovedEq, Function.update_self]
    have hmovedExe : moved target = none := by
      rw [hmovedEq, Function.update_of_ne hb.aside.symm, Function.update_self]
    have hmovedManifest : moved (sidecar target) = d (sidecar target) := by
      rw [hmovedEq, Function.update_of_ne hb.aside_sidecar.symm, Function.update_of_ne hb.sidecar, hmanifest]
    by_cases hagain : f.swapAgain = .done
    · have hplaced : (FileOp.rename (target.withExtension "exe.new".toList) target).run f.swapAgain moved =
          (Function.update (Function.update moved (target.withExtension "exe.new".toList) none) target (some bytes),
            .ok []) := by
        rw [hagain]
        exact rename_done hmovedStaged
      rw [if_pos ⟨hfile, haside, hagain⟩]
      unfold placeAside swapped
      simp only [hmoved, hplaced]
      refine writeManifest_whole ?_ ?_
      · rw [Function.update_self, hnew]
      · rw [Function.update_of_ne hb.sidecar, Function.update_of_ne hb.staged_sidecar.symm, hmovedManifest]
    · obtain ⟨why, hplaced⟩ := rename_failed (d := moved) (a := target.withExtension "exe.new".toList)
        (b := target) (.inl hagain)
      rw [if_neg fun h => hagain h.2.2]
      unfold placeAside swapped
      simp only [hmoved, hplaced]
      by_cases hback : f.rollBack = .done
      · refine iff_of_true (whole_error ?_ ?_) fun _ _ => hback
        · rw [hremove _ _ hb.staged.symm, hback, rename_done hmovedAside, hold]
          exact Function.update_self ..
        · rw [hremove _ _ hb.staged_sidecar.symm, hback, rename_done hmovedAside]
          dsimp only
          rw [Function.update_of_ne hb.sidecar, Function.update_of_ne hb.aside_sidecar.symm, hmovedManifest]
      · refine iff_of_false ?_ fun h => hback (h hfile haside)
        rintro ⟨hgone, -⟩
        obtain ⟨why', hfailed⟩ := rename_failed (d := moved) (a := asideOf pid target) (b := target) (.inl hback)
        dsimp only at hgone
        rw [hremove _ _ hb.staged.symm, hfailed] at hgone
        exact hfile (hgone.symm.trans hmovedExe)
  · -- Nothing is moved.
    have hwhy : ∃ why, (FileOp.rename target (asideOf pid target)).run f.aside now = (now, .error why) := by
      refine rename_failed ?_
      by_cases h : f.aside = .done
      · exact .inr (hexe.trans (not_not.mp fun hfile => haside ⟨h, hfile⟩))
      · exact .inl h
    obtain ⟨why, hmoved⟩ := hwhy
    rw [if_neg fun h => haside ⟨h.2.1, h.1⟩]
    unfold placeAside swapped
    simp only [hmoved]
    refine iff_of_true (whole_error ?_ ?_) fun hfile h => (haside ⟨h, hfile⟩).elim
    · rw [hremove _ _ hb.staged.symm, hexe]
    · rw [hremove _ _ hb.staged_sidecar.symm, hmanifest]

theorem replace_exe_whole :
    Whole d target new signed (replace_exe pid f d target new signed) ↔ NoHarm f d target new signed := by
  have hb := beside pid target
  unfold replace_exe NoHarm
  cases hfolder : target.folder with
  | none => exact iff_of_true (whole_error rfl rfl) fun h => (h rfl).elim
  | some folder =>
    dsimp only
    cases hnew : d new with
    | none =>
      have hcopy : (FileOp.copy new (target.withExtension "exe.new".toList)).run f.copy d = (d, .error notFound) := by
        unfold FileOp.run
        dsimp only
        rw [hnew]
      simp only [hcopy]
      exact iff_of_true (whole_error rfl rfl) fun _ h => (h rfl).elim
    | some bytes =>
      have hcopy : (FileOp.copy new (target.withExtension "exe.new".toList)).run f.copy d =
          d.store f.copy (target.withExtension "exe.new".toList) bytes := by
        unfold FileOp.run
        dsimp only
        rw [hnew]
      rw [hcopy]
      by_cases hdone : f.copy = .done
      · have hstored : d.store f.copy (target.withExtension "exe.new".toList) bytes =
            (Function.update d (target.withExtension "exe.new".toList) (some bytes), .ok []) := by
          rw [hdone]
          rfl
        obtain ⟨now, hnow⟩ : ∃ now, now = Function.update d (target.withExtension "exe.new".toList) (some bytes) :=
          ⟨_, rfl⟩
        have hstaged : now (target.withExtension "exe.new".toList) = some bytes := by
          rw [hnow, Function.update_self]
        have hexe : now target = d target := by
          rw [hnow, Function.update_of_ne hb.staged.symm]
        have hmanifest : now (sidecar target) = d (sidecar target) := by
          rw [hnow, Function.update_of_ne hb.staged_sidecar.symm]
        rw [hstored, ← hnow]
        dsimp only
        by_cases hswap : f.swap = .done
        · have hfirst : (FileOp.rename (target.withExtension "exe.new".toList) target).run f.swap now =
              (Function.update (Function.update now (target.withExtension "exe.new".toList) none) target (some bytes),
                .ok []) := by
            rw [hswap]
            exact rename_done hstaged
          simp only [hfirst, if_pos (Or.inl (b := d target ≠ none ∧ f.aside = .done ∧ f.swapAgain = .done) hswap)]
          rw [@writeManifest_whole f d target new]
          · exact ⟨fun h _ _ _ => h, fun h => h (Option.some_ne_none _) (Option.some_ne_none _) hdone⟩
          · rw [Function.update_self, hnew]
          · rw [Function.update_of_ne hb.sidecar, Function.update_of_ne hb.staged_sidecar.symm, hmanifest]
        · obtain ⟨why, hfirst⟩ := rename_failed (d := now) (a := target.withExtension "exe.new".toList)
            (b := target) (.inl hswap)
          simp only [hfirst, hswap, false_or]
          rw [placeAside_whole hstaged hnew hexe hmanifest]
          exact ⟨fun h _ _ _ => h, fun h => h (Option.some_ne_none _) (Option.some_ne_none _) hdone⟩
      · obtain ⟨why, herror, hothers⟩ := @store_failed d _ bytes hdone
          (target.withExtension "exe.new".toList)
        rw [herror]
        exact iff_of_true (whole_error (hothers _ hb.staged.symm) (hothers _ hb.staged_sidecar.symm))
          fun _ _ h => (hdone h).elim

/-- `package_of` succeeds where nothing keeps it from reading the files. -/
def Packaged (libs : Libs) (key : List UInt8) (d : Disk Path) (exe : Path) : Prop :=
  ∃ found, (((package_of libs key exe .done).step ⟨.done, []⟩ d).2.step ⟨.done, []⟩ d).2 = .done (.ok found)

theorem packaged_iff {libs : Libs} {key : List UInt8} {exe : Path} : Packaged libs key d exe ↔
    ∃ signed bytes m, d (sidecar exe) = some signed ∧ d exe = some bytes ∧ verified libs key signed = .ok m ∧
      m.isOf libs bytes = true := by
  have hread (path : Path) : ((FileOp.read path).run .done d).2 = (d path).elim (.error notFound) .ok := by
    unfold FileOp.run Outcome.error?
    dsimp only
    cases d path <;> rfl
  unfold Packaged package_of
  simp only [Program.step, hread]
  cases hsigned : d (sidecar exe) with
  | none => simp
  | some signed =>
    simp only [Option.elim_some, hread]
    cases hexe : d exe with
    | none => simp
    | some bytes =>
      dsimp only [Option.elim_some]
      cases hverified : verified libs key signed with
      | error e => simp [hverified]
      | ok m => by_cases hisOf : m.isOf libs bytes = true <;> simp [hverified, hisOf]

theorem packaged_of_whole {libs : Libs} {key : List UInt8} {r : Disk Path × Except Why Unit}
    (hwhole : Whole d target new signed r) {exe : List UInt8} {m : Manifest} (hnew : d new = some exe)
    (hverified : verified libs key signed = .ok m) (hisOf : m.isOf libs exe = true)
    (hbefore : Packaged libs key d target) : Packaged libs key r.1 target := by
  unfold Whole at hwhole
  rw [packaged_iff] at hbefore ⊢
  cases hr : r.2 with
  | error why =>
    rw [hr] at hwhole
    obtain ⟨hexe, hmanifest⟩ := hwhole
    rw [hexe, hmanifest]
    exact hbefore
  | ok _ =>
    rw [hr] at hwhole
    obtain ⟨hexe, hmanifest⟩ := hwhole
    exact ⟨signed, exe, m, hmanifest, hexe.trans hnew, hverified, hisOf⟩

end

end Rdpio.Client.Updater
