import Mathlib.Data.List.GetD
import Rdpio.Hyper.Gf256
import Rdpio.Lib.Cauchy
import Rdpio.Lib.Elimination
import Rdpio.Lib.Loops

/-!
# Any `k` shards rebuild the data

`invert` runs Gauss-Jordan on vectors of bytes.
-/

namespace Rdpio.Hyper.Fec

open Matrix Lib

variable {e : ℕ}

def Square.toMatrix (a : Square e) : Matrix (Fin e) (Fin e) Gf256 := fun r c => Gf256.of (a.entry r c)

theorem Square.toMatrix_swap (a : Square e) (i j : Fin e) :
    (a.swapRows i j).toMatrix = Lib.swapRows a.toMatrix i j := by
  have hget : ∀ r : Fin e, (a.swap i j)[r] = a[Equiv.swap i j r] := by
    intro r
    rcases eq_or_ne r i with rfl | hi
    · simp [Equiv.swap_apply_left]
    rcases eq_or_ne r j with rfl | hj
    · simp [Equiv.swap_apply_right]
    · have hi' : r.val ≠ i.val := fun h => hi (Fin.ext h)
      have hj' : r.val ≠ j.val := fun h => hj (Fin.ext h)
      simp only [Equiv.swap_apply_of_ne_of_ne hi hj, Fin.getElem_fin, Vector.getElem_swap, if_neg hi', if_neg hj']
  ext r c
  rw [Square.toMatrix, Square.entry, Square.swapRows, hget]
  rfl

theorem Square.toMatrix_scale (a : Square e) (i : Fin e) (f : UInt8) :
    (a.scaleRow i f).toMatrix = Lib.scaleRow a.toMatrix i (Gf256.of f) := by
  ext r c
  by_cases hr : r = i
  · subst hr
    rw [Lib.scaleRow, Matrix.updateRow_self, Pi.smul_apply, smul_eq_mul, Square.toMatrix, Square.toMatrix]
    simp only [Square.entry, Square.scaleRow, Fin.getElem_fin, Vector.getElem_set_self, Vector.getElem_map]
    rw [Gf256.of_mul, mul_comm]
  · have hne : i.val ≠ r.val := fun h => hr (Fin.ext h.symm)
    rw [Lib.scaleRow, Matrix.updateRow_ne hr, Square.toMatrix, Square.toMatrix]
    simp only [Square.entry, Square.scaleRow, Fin.getElem_fin, Vector.getElem_set_ne _ _ hne]

theorem Square.toMatrix_sub (a : Square e) (r i : Fin e) (f : UInt8) :
    (a.subRow r i f).toMatrix = Lib.subRow a.toMatrix r i (Gf256.of f) := by
  ext s c
  by_cases hs : s = r
  · subst hs
    rw [Lib.subRow, Matrix.updateRow_self, Pi.sub_apply, Pi.smul_apply, smul_eq_mul, Gf256.sub_eq_add,
      Square.toMatrix, Square.toMatrix, Square.toMatrix]
    simp only [Square.entry, Square.subRow, Fin.getElem_fin, Vector.getElem_set_self, Vector.getElem_ofFn]
    rw [Gf256.of_xor, Gf256.of_mul]
  · have hne : r.val ≠ s.val := fun h => hs (Fin.ext h.symm)
    rw [Lib.subRow, Matrix.updateRow_ne hs, Square.toMatrix, Square.toMatrix]
    simp only [Square.entry, Square.subRow, Fin.getElem_fin, Vector.getElem_set_ne _ _ hne]

/-- The two squares after some columns. -/
def Squares (A : Matrix (Fin e) (Fin e) Gf256) (n : ℕ) (ab : Square e × Square e) : Prop :=
  Reduced A ab.1.toMatrix ab.2.toMatrix n

theorem eliminateRow_spec {A : Matrix (Fin e) (Fin e) Gf256} {col : Fin e}
    {ab : Square e × Square e} (h : Squares A col ab) (hone : ab.1.toMatrix col col = 1)
    (r : Fin e) : let ab' := eliminateRow col ab r
    Squares A col ab' ∧ ab'.1.toMatrix col = ab.1.toMatrix col ∧
      (r ≠ col → ab'.1.toMatrix r col = 0) ∧ ∀ s ≠ r, ab'.1.toMatrix s = ab.1.toMatrix s := by
  unfold eliminateRow
  dsimp only
  split_ifs with hr
  · obtain ⟨hrc, hne⟩ := hr
    unfold Squares
    dsimp only
    rw [Square.toMatrix_sub, Square.toMatrix_sub]
    refine ⟨h.sub (Nat.le_refl _) hrc _, ?_, ?_, ?_⟩
    · exact Matrix.updateRow_ne hrc.symm
    · intro _
      rw [Lib.subRow, Matrix.updateRow_self, Pi.sub_apply, Pi.smul_apply, hone, smul_eq_mul, mul_one]
      exact sub_self _
    · intro s hs
      exact Matrix.updateRow_ne hs
  · refine ⟨h, rfl, ?_, fun _ _ => rfl⟩
    intro hrc
    by_contra hne
    exact hr ⟨hrc, hne⟩

theorem eliminateColumn_spec {A : Matrix (Fin e) (Fin e) Gf256} {ab : Square e × Square e}
    (col : Fin e) (h : Squares A col ab) :
    ∃ ab', eliminateColumn ab col = some ab' ∧ Squares A (col + 1) ab' := by
  obtain ⟨r, hr, hne⟩ := h.exists_pivot rfl
  have hfind : ∃ pivot, (List.finRange e).find? (fun r => col ≤ r ∧ ab.1.entry r col ≠ 0) = some pivot := by
    rw [← Option.isSome_iff_exists, List.find?_isSome]
    exact ⟨r, List.mem_finRange r, decide_eq_true ⟨hr, hne⟩⟩
  obtain ⟨pivot, hfind⟩ := hfind
  have hpivot := List.find?_some hfind
  simp only [decide_eq_true_eq] at hpivot
  unfold eliminateColumn
  rw [hfind, Option.bind_eq_bind, Option.bind_some]
  refine ⟨_, rfl, ?_⟩
  -- The pivot row swapped up and scaled.
  have hswap : Squares A col (ab.1.swapRows col pivot, ab.2.swapRows col pivot) := by
    unfold Squares
    rw [Square.toMatrix_swap, Square.toMatrix_swap]
    exact h.swap (Nat.le_refl _) hpivot.1
  have hnz : (ab.1.swapRows col pivot).entry col col ≠ 0 := by
    simpa [Square.entry, Square.swapRows] using hpivot.2
  generalize ab.1.swapRows col pivot = a at hswap hnz ⊢
  generalize ab.2.swapRows col pivot = b at hswap ⊢
  have hunit : a.toMatrix col col ≠ 0 := fun h => hnz (Gf256.of_injective h)
  have hinv : Gf256.of (inv (a.entry col col)) = (a.toMatrix col col)⁻¹ := Gf256.of_inv hnz
  have hscale : Squares A col
      (a.scaleRow col (inv (a.entry col col)), b.scaleRow col (inv (a.entry col col))) := by
    unfold Squares
    rw [Square.toMatrix_scale, Square.toMatrix_scale, hinv]
    exact hswap.scale (Nat.le_refl _) (inv_ne_zero hunit)
  have hone : (a.scaleRow col (inv (a.entry col col))).toMatrix col col = 1 := by
    rw [Square.toMatrix_scale, hinv, Lib.scaleRow, Matrix.updateRow_self, Pi.smul_apply, smul_eq_mul]
    exact inv_mul_cancel₀ hunit
  generalize b.scaleRow col (inv (a.entry col col)) = b at hscale ⊢
  generalize a.scaleRow col (inv (a.entry col col)) = a at hscale hone ⊢
  -- The rows cleared one after another.
  have hall := foldl_finRange_rule
    (fun n (ab : Square e × Square e) => Squares A col ab ∧ ab.1.toMatrix col col = 1 ∧
      ∀ r : Fin e, r.val < n → r ≠ col → ab.1.toMatrix r col = 0)
    (f := eliminateRow col) (s := (a, b)) ⟨hscale, hone, fun r hr => absurd hr (Nat.not_lt_zero _)⟩
    (by
      rintro i s ⟨hs, h1, hzero⟩
      obtain ⟨hs', hrow, hclear, hsame⟩ := eliminateRow_spec hs h1 i
      refine ⟨hs', by rw [hrow, h1], ?_⟩
      intro r hr hrc
      by_cases hri : r = i
      · subst hri
        exact hclear hrc
      · rw [hsame r hri]
        exact hzero r (by have := Fin.val_ne_of_ne hri; omega) hrc)
  obtain ⟨hs, h1, hzero⟩ := hall
  refine hs.next rfl fun i => ?_
  split_ifs with hi
  · rw [hi, h1]
  · exact hzero i i.isLt hi

theorem invert_spec {a : Square e} (hker : ∀ v, a.toMatrix *ᵥ v = 0 → v = 0) :
    ∃ b, invert a = some b ∧ b.toMatrix * a.toMatrix = 1 := by
  have hone : Square.toMatrix
      (Vector.ofFn fun r : Fin e => Vector.ofFn fun c : Fin e => if r = c then 1 else 0) = 1 := by
    ext r c
    simp only [Square.toMatrix, Square.entry, Fin.getElem_fin, Vector.getElem_ofFn, Matrix.one_apply]
    split_ifs <;> rfl
  obtain ⟨ab, hab, hred⟩ := foldlM_finRange_rule (Squares a.toMatrix)
    (f := eliminateColumn)
    (s := (a, Vector.ofFn fun r => Vector.ofFn fun c => if r = c then 1 else 0))
    (by unfold Squares; rw [hone]; exact Reduced.init hker)
    (fun col ab h => eliminateColumn_spec col h)
  exact ⟨ab.2, by rw [invert, hab]; rfl, hred.mul_eq_one⟩

theorem invert_cauchy {k : ℕ} {parity missing : Fin e → ℕ} (hp : Function.Injective parity)
    (hm : Function.Injective missing) (hpk : ∀ r, k + parity r < 256) (hmk : ∀ c, missing c < k) :
    ∃ b, invert (cauchySquare k parity missing) = some b ∧
      b.toMatrix * (cauchySquare k parity missing).toMatrix = 1 := by
  refine invert_spec fun v hv => ?_
  have hto : ∀ n < 256, (UInt8.ofNat n).toNat = n := by
    intro n hn
    rw [UInt8.toNat_ofNat', Nat.mod_eq_of_lt hn]
  have hinj : ∀ m n, m < 256 → n < 256 → UInt8.ofNat m = UInt8.ofNat n → m = n := by
    intro m n hm hn heq
    rw [← hto m hm, heq, hto n hn]
  let x : Fin e → Gf256 := fun r => Gf256.of (UInt8.ofNat (k + parity r))
  let y : Fin e → Gf256 := fun c => Gf256.of (UInt8.ofNat (missing c))
  have hx : Function.Injective x := by
    intro r s hrs
    have := hinj _ _ (hpk r) (hpk s) hrs
    exact hp (by omega)
  have hy : Function.Injective y := by
    intro c d hcd
    have hc := hpk c
    have hd := hpk d
    exact hm (hinj _ _ (by have := hmk c; omega) (by have := hmk d; omega) hcd)
  have hxy : ∀ r c, x r ≠ y c := by
    intro r c heq
    have hr := hpk r
    have hc := hmk c
    have := hinj _ _ hr (by omega) heq
    omega
  refine cauchyMatrix_mulVec_eq_zero hx hy hxy ?_
  have hmat : (cauchySquare k parity missing).toMatrix = cauchyMatrix x y := by
    ext r c
    simp only [Square.toMatrix, Square.entry, cauchySquare, cauchyMatrix, Fin.getElem_fin, Vector.getElem_ofFn]
    rw [cauchy, Gf256.sub_eq_add, ← Gf256.of_xor, Gf256.of_inv]
    intro hzero
    exact hxy r c (sub_eq_zero.mp (by rw [Gf256.sub_eq_add, ← Gf256.of_xor, hzero, Gf256.of_zero]))
  rwa [hmat] at hv

end Rdpio.Hyper.Fec

/-! ## Parity bytes as words of the code -/

namespace Rdpio.Hyper.Fec

open Matrix Lib

theorem Nibbles.add_nibbles (c o s : UInt8) : (nibbles c).add o s = o ^^^ mul c s := by
  have hsplit : ∀ n : Fin 256,
      (UInt8.ofFin n &&& (15 : UInt8)) ^^^ UInt8.ofFin n >>> (4 : UInt8) <<< (4 : UInt8) = UInt8.ofFin n ∧
      (UInt8.ofFin n &&& 15).toNat < 16 ∧ (UInt8.ofFin n >>> 4).toNat < 16 := by
    decide +kernel
  obtain ⟨hxor, hlo, hhi⟩ := hsplit s.toFin
  rw [show UInt8.ofFin s.toFin = s from rfl] at hxor hlo hhi
  have hget : ∀ (f : UInt8 → UInt8) (b : UInt8), b.toNat < 16 →
      ((List.range 16).map fun x => f (UInt8.ofNat x)).getD b.toNat 0 = f b := by
    intro f b hb
    rw [List.getD_eq_getElem?_getD, List.getElem?_map, List.getElem?_range hb, Option.map_some,
      Option.getD_some, UInt8.ofNat_toNat]
  unfold Nibbles.add nibbles
  rw [hget (fun x => mul c x) _ hlo, hget (fun x => mul c (x <<< 4)) _ hhi, ← mul_xor, hxor]

@[simp]
theorem length_zipInto (f : UInt8 → UInt8 → UInt8) (out src : List UInt8) :
    (zipInto f out src).length = out.length := by
  induction out generalizing src with
  | nil => rfl
  | cons o out ih => cases src <;> simp [zipInto, ih]

theorem getElem?_zipInto (f : UInt8 → UInt8 → UInt8) (out src : List UInt8) (t : ℕ) :
    (zipInto f out src)[t]? = out[t]?.map fun o => src[t]?.elim o (f o) := by
  induction out generalizing src t with
  | nil => simp [zipInto]
  | cons o out ih =>
    cases src with
    | nil => cases h : (o :: out)[t]? <;> simp [zipInto, h]
    | cons s src => cases t <;> simp [zipInto, ih]

theorem zipInto_left (out src : List UInt8) : zipInto (fun o _ => o) out src = out := by
  apply List.ext_getElem?
  intro t
  rw [getElem?_zipInto]
  cases out[t]? <;> cases src[t]? <;> rfl

theorem zipInto_split (f : UInt8 → UInt8 → UInt8) {out src : List UInt8} {n : ℕ}
    (ho : n ≤ out.length) (hs : n ≤ src.length) :
    List.zipWith f (out.take n) (src.take n) ++ zipInto f (out.drop n) (src.drop n) = zipInto f out src := by
  induction n generalizing out src with
  | zero => rfl
  | succ n ih =>
    cases out with
    | nil => simp at ho
    | cons o out =>
      cases src with
      | nil => simp at hs
      | cons s src =>
        rw [List.take_succ_cons, List.take_succ_cons, List.zipWith_cons_cons, List.drop_succ_cons,
          List.drop_succ_cons, List.cons_append, ih (by simpa using ho) (by simpa using hs), zipInto]

theorem mulAdd_eq (cpu : Cpu) (out src : List UInt8) (c : UInt8) :
    mulAdd cpu out src c = zipInto (fun o s => o ^^^ mul c s) out src := by
  unfold mulAdd
  split_ifs with h0 h1
  · subst h0
    simp only [mul_zero_left, UInt8.xor_zero, zipInto_left]
  · subst h1
    simp only [one_mul_byte]
  · have hadd : (nibbles c).add = fun o s => o ^^^ mul c s := by
      funext o s
      exact Nibbles.add_nibbles c o s
    have hvector : ∀ n, n ≤ min out.length src.length →
        (List.zipWith (nibbles c).add (out.take n) (src.take n) ++ out.drop n).take n ++
          zipInto (nibbles c).add
            ((List.zipWith (nibbles c).add (out.take n) (src.take n) ++ out.drop n).drop n)
            (src.drop n) = zipInto (nibbles c).add out src := by
      intro n hn
      have hlen : (List.zipWith (nibbles c).add (out.take n) (src.take n)).length = n := by
        rw [List.length_zipWith, List.length_take, List.length_take]
        omega
      rw [List.take_left' hlen, List.drop_left' hlen, zipInto_split _ (by omega) (by omega)]
    dsimp only
    rw [← hadd]
    cases cpu with
    | scalar => exact hvector 0 (Nat.zero_le _)
    | avx2 => exact hvector _ (Nat.div_mul_le_self _ _)
    | neon => exact hvector _ (Nat.div_mul_le_self _ _)

def byteAt (d : List UInt8) (t : ℕ) : Gf256 := Gf256.of (d.getD t 0)

theorem ext_byteAt {c d : List UInt8} (hlen : c.length = d.length) (h : ∀ t, byteAt c t = byteAt d t) : c = d := by
  refine List.ext_getElem hlen fun t hc hd => ?_
  have ht := Gf256.of_injective (h t)
  rwa [List.getD_eq_getElem c _ hc, List.getD_eq_getElem d _ hd] at ht

theorem byteAt_replicate (n t : ℕ) : byteAt (List.replicate n 0) t = 0 := by
  unfold byteAt
  rw [List.getD_eq_getElem?_getD, List.getElem?_replicate]
  split_ifs <;> rfl

theorem length_mulAdd (cpu : Cpu) (out src : List UInt8) (c : UInt8) : (mulAdd cpu out src c).length = out.length := by
  rw [mulAdd_eq, length_zipInto]

theorem byteAt_mulAdd (cpu : Cpu) {out src : List UInt8} (hlen : out.length = src.length) (c : UInt8)
    (t : ℕ) : byteAt (mulAdd cpu out src c) t = byteAt out t + Gf256.of c * byteAt src t := by
  unfold byteAt
  rw [mulAdd_eq, List.getD_eq_getElem?_getD, getElem?_zipInto, List.getD_eq_getElem?_getD, List.getD_eq_getElem?_getD]
  by_cases ht : t < out.length
  · rw [List.getElem?_eq_getElem ht, List.getElem?_eq_getElem (hlen ▸ ht)]
    rfl
  · rw [List.getElem?_eq_none (not_lt.mp ht), List.getElem?_eq_none (by omega)]
    rw [Option.map_none, Option.getD_none, Gf256.of_zero, mul_zero, add_zero]

theorem foldl_mulAdd {ι : Type*} (cpu : Cpu) (src : ι → List UInt8) (c : ι → UInt8) {len : ℕ}
    (js : List ι) (hsrc : ∀ j ∈ js, (src j).length = len) {out : List UInt8} (hout : out.length = len) :
    let r := js.foldl (fun r j => mulAdd cpu r (src j) (c j)) out
    r.length = len ∧ ∀ t, byteAt r t = byteAt out t + (js.map fun j => Gf256.of (c j) * byteAt (src j) t).sum := by
  induction js generalizing out with
  | nil => exact ⟨hout, fun t => by rw [List.map_nil, List.sum_nil, add_zero]; rfl⟩
  | cons j js ih =>
    have hj := hsrc j List.mem_cons_self
    have hout' : (mulAdd cpu out (src j) (c j)).length = len := by rw [length_mulAdd, hout]
    obtain ⟨hlen, hbyte⟩ := ih (fun i hi => hsrc i (List.mem_cons_of_mem j hi)) hout'
    refine ⟨hlen, fun t => ?_⟩
    rw [List.foldl_cons, hbyte, byteAt_mulAdd cpu (hout.trans hj.symm), List.map_cons, List.sum_cons, add_assoc]

theorem foldl_zipIdx {α σ : Type*} (l : List α) (d : α) (f : σ → α × ℕ → σ) (s : σ) :
    l.zipIdx.foldl f s = (List.range l.length).foldl (fun s j => f s (l.getD j d, j)) s := by
  have hlist : l.zipIdx = (List.range l.length).map fun j => (l.getD j d, j) := by
    apply List.ext_getElem (by simp)
    intro i h1 h2
    simp only [List.length_zipIdx] at h1
    simp [List.getElem?_eq_getElem h1]
  rw [hlist, List.foldl_map]

theorem parityShard_spec (cpu : Cpu) {data : List (List UInt8)} {len : ℕ} (hne : 0 < data.length)
    (hlen : ∀ d ∈ data, d.length = len) (i : ℕ) :
    (parityShard cpu data i).length = len ∧ ∀ t, byteAt (parityShard cpu data i) t =
        ((List.range data.length).map fun j => Gf256.of (cauchy data.length i j) * byteAt (data.getD j []) t).sum := by
  have hhead : (data.headD []).length = len := by
    cases data with
    | nil => simp at hne
    | cons d ds => exact hlen d List.mem_cons_self
  unfold parityShard
  rw [foldl_zipIdx data [], hhead]
  have hsrc : ∀ j ∈ List.range data.length, (data.getD j []).length = len := by
    intro j hj
    rw [List.getD_eq_getElem data _ (List.mem_range.mp hj)]
    exact hlen _ (List.getElem_mem _)
  have hzero : (List.replicate len (0 : UInt8)).length = len := List.length_replicate
  obtain ⟨hl, hbyte⟩ := foldl_mulAdd cpu (fun j => data.getD j []) (fun j => cauchy data.length i j)
    (List.range data.length) hsrc hzero
  exact ⟨hl, fun t => by rw [hbyte, byteAt_replicate, zero_add]⟩

theorem parityShard_eq (cpu cpu' : Cpu) (data : List (List UInt8)) (i : ℕ) :
    parityShard cpu data i = parityShard cpu' data i := by
  unfold parityShard
  simp only [mulAdd_eq]

/-! ## Reconstruction -/

/-- `shards` is what is left of a coded block: what is there of it is right. -/
structure Received (data : List (List UInt8)) (m : ℕ) (shards : List (Option (List UInt8))) : Prop where
  length_eq : shards.length = data.length + m
  data_eq : ∀ j s, j < data.length → shards.getD j none = some s → s = data.getD j []
  parity_eq : ∀ i s, shards.getD (data.length + i) none = some s → s = parityShard .scalar data i

section

variable {data : List (List UInt8)} {m len : ℕ} {shards : List (Option (List UInt8))}

def survivors (shards : List (Option (List UInt8))) : ℕ := shards.countP Option.isSome

theorem countP_eq_length_filter_range {α : Type*} (l : List α) (d : α) (p : α → Bool) :
    l.countP p = ((List.range l.length).filter fun j => p (l.getD j d)).length := by
  have hlist : l = (List.range l.length).map fun j => l.getD j d := by
    apply List.ext_getElem (by simp)
    intro i h1 h2
    simp [List.getElem?_eq_getElem h1]
  conv_lhs => rw [hlist]
  rw [List.countP_map, List.countP_eq_length_filter]
  rfl

theorem survivors_add_missing (h : Received data m shards) :
    survivors shards + (missingShards shards data.length).length = data.length +
      ((List.range m).filter fun i => (shards.getD (data.length + i) none).isSome).length := by
  unfold survivors missingShards
  rw [countP_eq_length_filter_range shards none, h.length_eq, List.range_add, List.filter_append,
    List.length_append, List.filter_map, List.length_map]
  have hsplit := List.length_eq_length_filter_add (l := List.range data.length) (fun j => (shards.getD j none).isSome)
  simp only [Option.not_isSome, List.length_range] at hsplit
  simp only [Function.comp_def]
  omega

theorem nodup_missingShards (shards : List (Option (List UInt8))) (k : ℕ) :
    (missingShards shards k).Nodup := List.nodup_range.filter _

theorem mem_missingShards {k j : ℕ} : j ∈ missingShards shards k ↔ j < k ∧ shards.getD j none = none := by
  unfold missingShards
  rw [List.mem_filter, List.mem_range, Option.isNone_iff_eq_none]

theorem nodup_usedParity (shards : List (Option (List UInt8))) (k : ℕ) : (usedParity shards k).Nodup :=
  (List.nodup_range.filter _).sublist (List.take_sublist _ _)

theorem mem_usedParity {k i : ℕ} (hi : i ∈ usedParity shards k) :
    i < shards.length - k ∧ (shards.getD (k + i) none).isSome = true := by
  have := List.mem_filter.mp (List.mem_of_mem_take hi)
  exact ⟨List.mem_range.mp this.1, this.2⟩

theorem residual_spec (cpu : Cpu) (h : Received data m shards) (hne : 0 < data.length)
    (hlen : ∀ d ∈ data, d.length = len) {i : ℕ} (hi : (shards.getD (data.length + i) none).isSome = true) :
    (residual cpu shards data.length i).length = len ∧ ∀ t, byteAt (residual cpu shards data.length i) t =
        ((missingShards shards data.length).map fun j =>
          Gf256.of (cauchy data.length i j) * byteAt (data.getD j []) t).sum := by
  obtain ⟨p, hp⟩ := Option.isSome_iff_exists.mp hi
  have hpar := h.parity_eq i p hp
  obtain ⟨hplen, hpbyte⟩ := parityShard_spec .scalar hne hlen i
  -- The shards taken away are data shards.
  have harrived : ∀ j ∈ (List.range data.length).filter fun j => (shards.getD j none).isSome,
      (shards.getD j none).getD [] = data.getD j [] := by
    intro j hj
    obtain ⟨hjk, hsome⟩ := List.mem_filter.mp hj
    obtain ⟨s, hs⟩ := Option.isSome_iff_exists.mp hsome
    rw [hs, Option.getD_some, h.data_eq j s (List.mem_range.mp hjk) hs]
  have hdata : ∀ j, j < data.length → (data.getD j []).length = len := by
    intro j hj
    rw [List.getD_eq_getElem data _ hj]
    exact hlen _ (List.getElem_mem _)
  unfold residual
  rw [hp, Option.getD_some, hpar]
  have hsrc : ∀ j ∈ (List.range data.length).filter fun j => (shards.getD j none).isSome,
      ((shards.getD j none).getD []).length = len := by
    intro j hj
    rw [harrived j hj]
    exact hdata j (List.mem_range.mp (List.mem_filter.mp hj).1)
  obtain ⟨hl, hbyte⟩ := foldl_mulAdd cpu (fun j => (shards.getD j none).getD [])
    (fun j => cauchy data.length i j) _ hsrc hplen
  refine ⟨hl, fun t => ?_⟩
  rw [hbyte, hpbyte]
  have hsub : (((List.range data.length).filter fun j => (shards.getD j none).isSome).map fun j =>
        Gf256.of (cauchy data.length i j) * byteAt ((shards.getD j none).getD []) t) =
      ((List.range data.length).filter fun j => (shards.getD j none).isSome).map fun j =>
        Gf256.of (cauchy data.length i j) * byteAt (data.getD j []) t :=
    List.map_congr_left fun j hj => by rw [harrived j hj]
  rw [hsub]
  -- The sum over all data shards is that over the arrived and that over the lost ones.
  have hsplit : ∀ (f : ℕ → Gf256) (q : ℕ → Bool) (l : List ℕ),
      (l.map f).sum = ((l.filter q).map f).sum + ((l.filter fun j => !q j).map f).sum := by
    intro f q l
    induction l with
    | nil => simp
    | cons j l ih => cases hq : q j <;> simp [hq, ih] <;> ring
  rw [hsplit _ (fun j => (shards.getD j none).isSome), add_right_comm, Gf256.add_self, zero_add]
  unfold missingShards
  simp only [Option.not_isSome]

theorem rebuiltShard_spec (cpu : Cpu) {e : ℕ} {residuals : List (List UInt8)} (he : residuals.length = e)
    (hres : ∀ r ∈ residuals, r.length = len) (b : Square e) (x : Fin e) :
    (rebuiltShard cpu len residuals b x).length = len ∧ ∀ t, byteAt (rebuiltShard cpu len residuals b x) t =
        ∑ r : Fin e, b.toMatrix x r * byteAt (residuals.getD r []) t := by
  unfold rebuiltShard
  rw [foldl_zipIdx residuals []]
  have hsrc : ∀ r ∈ List.range residuals.length, (residuals.getD r []).length = len := by
    intro r hr
    rw [List.getD_eq_getElem residuals _ (List.mem_range.mp hr)]
    exact hres _ (List.getElem_mem _)
  have hzero : (List.replicate len (0 : UInt8)).length = len := List.length_replicate
  obtain ⟨hl, hbyte⟩ := foldl_mulAdd cpu (fun r => residuals.getD r []) (fun r => b[x].getD r 0)
    (List.range residuals.length) hsrc hzero
  refine ⟨hl, fun t => ?_⟩
  rw [hbyte, byteAt_replicate, zero_add, he, ← List.map_coe_finRange_eq_range, List.map_map,
    ← List.ofFn_eq_map, List.sum_ofFn]
  refine Finset.sum_congr rfl fun r _ => ?_
  simp [Square.toMatrix, Square.entry, Vector.getD]

theorem foldl_set_getElem? {α : Type*} (l : List α) (v : ℕ → α) (js : List ℕ) (i : ℕ) :
    (js.foldl (fun l j => l.set j (v j)) l)[i]? =
      if i ∈ js then l[i]?.map fun _ => v i else l[i]? := by
  induction js generalizing l with
  | nil => simp
  | cons j js ih =>
    rw [List.foldl_cons, ih, List.getElem?_set]
    by_cases hij : j = i
    · subst hij
      by_cases hl : j < l.length <;> simp [hl]
    · rw [if_neg hij]
      simp [Ne.symm hij]

theorem rebuiltShard_eq (cpu : Cpu) (h : Received data m shards) (hne : 0 < data.length)
    (hlen : ∀ d ∈ data, d.length = len)
    (hused : (usedParity shards data.length).length = (missingShards shards data.length).length)
    {b : Square (missingShards shards data.length).length}
    (hb : b.toMatrix * (cauchySquare data.length
      (fun r : Fin _ => (usedParity shards data.length).getD r 0)
      (fun c : Fin _ => (missingShards shards data.length).getD c 0)).toMatrix = 1)
    (x : Fin (missingShards shards data.length).length) :
    rebuiltShard cpu len ((usedParity shards data.length).map (residual cpu shards data.length)) b x =
      data.getD ((missingShards shards data.length).getD x 0) [] := by
  have hmem : ∀ c : Fin (missingShards shards data.length).length,
      (missingShards shards data.length).getD c 0 ∈ missingShards shards data.length := by
    intro c
    rw [List.getD_eq_getElem _ _ c.isLt]
    exact List.getElem_mem _
  have hlens : ∀ r ∈ (usedParity shards data.length).map (residual cpu shards data.length),
      r.length = len := by
    intro r hr
    obtain ⟨i, hi, rfl⟩ := List.mem_map.mp hr
    exact (residual_spec cpu h hne hlen (mem_usedParity hi).2).1
  obtain ⟨hl, hbyte⟩ := rebuiltShard_spec cpu (by rw [List.length_map, hused]) hlens b x
  refine ext_byteAt ?_ fun t => ?_
  · have hx := (mem_missingShards.mp (hmem x)).1
    rw [hl, List.getD_eq_getElem data _ hx]
    exact (hlen _ (List.getElem_mem _)).symm
  -- The lost bytes as a vector: the residuals are the square times it.
  let y : Fin (missingShards shards data.length).length → Gf256 :=
    fun c => byteAt (data.getD ((missingShards shards data.length).getD c 0) []) t
  have hres : ∀ r : Fin (missingShards shards data.length).length,
      byteAt (((usedParity shards data.length).map (residual cpu shards data.length)).getD r []) t =
        ((cauchySquare data.length (fun r : Fin _ => (usedParity shards data.length).getD r 0)
          (fun c : Fin _ => (missingShards shards data.length).getD c 0)).toMatrix *ᵥ y) r := by
    intro r
    have hr : r.val < (usedParity shards data.length).length := by rw [hused]; exact r.isLt
    have hi := (mem_usedParity (List.getElem_mem hr)).2
    rw [List.getD_eq_getElem _ _ (by rwa [List.length_map]), List.getElem_map,
      (residual_spec cpu h hne hlen hi).2 t, Matrix.mulVec, dotProduct,
      ← Fin.sum_univ_fun_getElem]
    refine Finset.sum_congr rfl fun c _ => ?_
    simp only [Square.toMatrix, Square.entry, cauchySquare, Fin.getElem_fin, Vector.getElem_ofFn, y,
      List.getD_eq_getElem _ _ hr, List.getD_eq_getElem _ _ c.isLt]
  have hvec : (b.toMatrix *ᵥ ((cauchySquare data.length
      (fun r : Fin _ => (usedParity shards data.length).getD r 0)
      (fun c : Fin _ => (missingShards shards data.length).getD c 0)).toMatrix *ᵥ y)) x = y x := by
    rw [Matrix.mulVec_mulVec, hb, Matrix.one_mulVec]
  rw [hbyte, Finset.sum_congr rfl fun r _ => by rw [hres r]]
  exact hvec

theorem getD_injective {l : List ℕ} {e : ℕ} (hnd : l.Nodup) (he : l.length = e) :
    Function.Injective fun r : Fin e => l.getD r 0 := by
  subst he
  intro r s hrs
  dsimp only at hrs
  rw [List.getD_eq_getElem l 0 r.isLt, List.getD_eq_getElem l 0 s.isLt] at hrs
  exact Fin.ext ((List.Nodup.getElem_inj_iff hnd).mp hrs)

theorem reconstruct_of_enough (cpu : Cpu) (h : Received data m shards) (hne : 0 < data.length)
    (hmax : data.length + m ≤ maxShards) (hlen : ∀ d ∈ data, d.length = len)
    (henough : data.length ≤ survivors shards) :
    reconstruct cpu shards data.length = (true, data.map some ++ shards.drop data.length) := by
  have hcount := survivors_add_missing h
  have hgoal : ∀ l : List (Option (List UInt8)), (∀ i : ℕ, l[i]? =
      if i ∈ missingShards shards data.length then shards[i]?.map fun _ => some (data.getD i [])
      else shards[i]?) → l = data.map some ++ shards.drop data.length := by
    intro l hl
    apply List.ext_getElem?
    intro i
    rw [hl i]
    by_cases hi : i < data.length
    · have hsl : i < shards.length := by rw [h.length_eq]; omega
      rw [List.getElem?_append_left (by simpa using hi), List.getElem?_map,
        List.getElem?_eq_getElem hi, List.getElem?_eq_getElem hsl]
      split_ifs with hmem
      · rw [List.getD_eq_getElem data _ hi]
        rfl
      · -- Present, hence right.
        rw [mem_missingShards] at hmem
        have hne : shards.getD i none ≠ none := fun hnone => hmem ⟨hi, hnone⟩
        obtain ⟨s, hs⟩ := Option.ne_none_iff_exists'.mp hne
        have := h.data_eq i s hi hs
        rw [List.getD_eq_getElem data _ hi] at this
        rw [List.getD_eq_getElem shards _ hsl] at hs
        rw [hs, this]
        rfl
    · rw [if_neg (fun hmem => hi (mem_missingShards.mp hmem).1),
        List.getElem?_append_right (by simpa using hi), List.getElem?_drop, List.length_map]
      congr 1
      omega
  unfold reconstruct
  dsimp only
  split_ifs with hempty hfew
  · have hnil := List.isEmpty_iff.mp hempty
    rw [← hgoal shards fun i => by rw [hnil]; simp]
  · -- As many parity shards arrived as data shards were lost.
    exfalso
    unfold usedParity at hfew
    rw [List.length_take, h.length_eq, Nat.add_sub_cancel_left] at hfew
    omega
  · have hused : (usedParity shards data.length).length = (missingShards shards data.length).length := by
      have : (usedParity shards data.length).length ≤ (missingShards shards data.length).length :=
        List.length_take_le _ _
      omega
    have hpos : 0 < (usedParity shards data.length).length := by
      rw [hused]
      exact List.length_pos_iff.mpr fun hnil => hempty (List.isEmpty_iff.mpr hnil)
    -- The length is that of the first parity shard used.
    have hfirst : ((shards.getD (data.length + (usedParity shards data.length).headD 0) none).getD
        []).length = len := by
      have hmem := List.getElem_mem hpos
      rw [List.headD_eq_head?_getD, List.head?_eq_getElem?, List.getElem?_eq_getElem hpos, Option.getD_some]
      obtain ⟨p, hp⟩ := Option.isSome_iff_exists.mp (mem_usedParity hmem).2
      rw [hp, Option.getD_some, h.parity_eq _ p hp]
      exact (parityShard_spec .scalar hne hlen _).1
    obtain ⟨b, hb, hone⟩ := invert_cauchy (k := data.length)
      (getD_injective (nodup_usedParity shards data.length) hused)
      (getD_injective (nodup_missingShards shards data.length) rfl)
      (by
        intro r
        have hr : r.val < (usedParity shards data.length).length := by rw [hused]; exact r.isLt
        have hi := (mem_usedParity (List.getElem_mem hr)).1
        rw [List.getD_eq_getElem _ _ hr]
        rw [h.length_eq] at hi
        have : maxShards = 255 := rfl
        omega)
      (by
        intro c
        rw [List.getD_eq_getElem _ _ c.isLt]
        exact (mem_missingShards.mp (List.getElem_mem _)).1)
    rw [hfirst, hb]
    dsimp only
    rw [Prod.mk.injEq]
    refine ⟨rfl, hgoal _ fun i => ?_⟩
    have hzip : (missingShards shards data.length).zip
        ((List.finRange (missingShards shards data.length).length).map (rebuiltShard cpu len
          ((usedParity shards data.length).map (residual cpu shards data.length)) b)) =
        (missingShards shards data.length).map fun j => (j, data.getD j []) := by
      apply List.ext_getElem (by simp)
      intro i h1 h2
      rw [List.length_map] at h2
      rw [List.getElem_zip, List.getElem_map, List.getElem_map, List.getElem_finRange,
        rebuiltShard_eq cpu h hne hlen hused hone, Fin.val_cast, List.getD_eq_getElem _ _ h2]
    rw [hzip, List.foldl_map]
    exact foldl_set_getElem? shards (fun j => some (data.getD j [])) _ i

theorem reconstruct_of_too_few (cpu : Cpu) (h : Received data m shards)
    (hfew : survivors shards < data.length) :
    reconstruct cpu shards data.length = (false, shards) := by
  have hcount := survivors_add_missing h
  have hused : (usedParity shards data.length).length <
      (missingShards shards data.length).length := by
    unfold usedParity
    rw [List.length_take, h.length_eq, Nat.add_sub_cancel_left]
    omega
  unfold reconstruct
  dsimp only
  rw [if_neg, if_pos hused]
  intro hempty
  rw [List.isEmpty_iff.mp hempty] at hused
  exact absurd hused (Nat.not_lt_zero _)

end

def surviving (alive : ℕ → Bool) (all : List (List UInt8)) : List (Option (List UInt8)) :=
  all.mapIdx fun i s => if alive i then some s else none

theorem getD_surviving (alive : ℕ → Bool) (all : List (List UInt8)) (i : ℕ) :
    (surviving alive all).getD i none = if alive i then all[i]? else none := by
  rw [surviving, List.getD_eq_getElem?_getD, List.getElem?_mapIdx]
  cases all[i]? <;> cases alive i <;> rfl

theorem received_surviving (cpu : Cpu) (data : List (List UInt8)) (m : ℕ) (alive : ℕ → Bool) :
    Received data m (surviving alive (data ++ (List.range m).map (parityShard cpu data))) where
  length_eq := by simp [surviving]
  data_eq j s hj hs := by
    rw [getD_surviving, List.getElem?_append_left hj] at hs
    split_ifs at hs
    rw [List.getD_eq_getElem?_getD, hs, Option.getD_some]
  parity_eq i s hs := by
    rw [getD_surviving, List.getElem?_append_right (by omega), Nat.add_sub_cancel_left, List.getElem?_map] at hs
    split_ifs at hs
    obtain ⟨i', hi', hpar⟩ := Option.map_eq_some_iff.mp hs
    rw [← hpar, parityShard_eq cpu .scalar]
    rw [(List.getElem?_eq_some_iff.mp hi').2.symm, List.getElem_range]

/-- Any `k` of the `k + m` shards of `encode` rebuild the data, on any two processors; fewer leave
everything as it was. -/
theorem reconstruct_encode (cpu cpu' : Cpu) (data : List (List UInt8)) (m len : ℕ)
    (hk : 0 < data.length) (hkm : data.length + m ≤ maxShards) (hlen : ∀ d ∈ data, d.length = len)
    (alive : ℕ → Bool) :
    ∃ parity, encode cpu data m = some parity ∧ parity.length = m ∧
      let shards := surviving alive (data ++ parity)
      let alives := ((List.range (data.length + m)).filter alive).length
      (data.length ≤ alives → reconstruct cpu' shards data.length = (true, data.map some ++ shards.drop data.length)) ∧
      (alives < data.length → reconstruct cpu' shards data.length = (false, shards)) := by
  refine ⟨_, if_pos ⟨hk, hkm⟩, by simp, ?_⟩
  intro shards alives
  have hrec : Received data m shards := received_surviving cpu data m alive
  have hcount : survivors shards = alives := by
    unfold survivors
    rw [countP_eq_length_filter_range shards none, hrec.length_eq]
    congr 1
    refine List.filter_congr fun i hi => ?_
    rw [List.mem_range] at hi
    rw [getD_surviving, List.getElem?_eq_getElem (by simpa using hi)]
    cases alive i <;> rfl
  rw [← hcount]
  exact ⟨reconstruct_of_enough cpu' hrec hk hkm hlen, reconstruct_of_too_few cpu' hrec⟩

/-- Two shards of one byte, coded with two more: the parity alone gives them back. -/
theorem reconstruct_encode_two : ∃ parity, encode .avx2 [[7], [9]] 2 = some parity ∧
      reconstruct .neon (surviving (2 ≤ ·) ([[7], [9]] ++ parity)) 2 =
        (true, [some [7], some [9]] ++ (surviving (2 ≤ ·) ([[7], [9]] ++ parity)).drop 2) := by
  obtain ⟨parity, hparity, -, henough, -⟩ := reconstruct_encode .avx2 .neon [[7], [9]]
    2 1 (by decide) (by decide) (by decide) (2 ≤ ·)
  exact ⟨parity, hparity, henough (by decide)⟩

end Rdpio.Hyper.Fec
