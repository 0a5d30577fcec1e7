import Rdpio.Channels.Cliprdr

/-!
# UTF-16

Texts are read back from their units, and units from their bytes: a character that is coded as a pair of surrogates is
one character again, and a text without NUL ends at the NUL behind it.
-/

namespace Rdpio.Channels.Cliprdr

open Lib

theorem fromUtf16Lossy_cons {u : UInt16} (h : isHighSurrogate u = false) (rest : List UInt16) :
    fromUtf16Lossy (u :: rest) = loneUnit u :: fromUtf16Lossy rest := by
  rcases rest with _ | ⟨v, rest⟩
  · rfl
  · rw [fromUtf16Lossy, h, Bool.false_and, if_neg Bool.false_ne_true]

theorem toNat_ofNat16 {n : ℕ} (h : n < 0x10000) : (UInt16.ofNat n).toNat = n := by
  rw [UInt16.toNat_ofNat']
  exact Nat.mod_eq_of_lt h

theorem isHighSurrogate_ofNat {n : ℕ} (h : n < 0x10000) :
    isHighSurrogate (UInt16.ofNat n) = decide (0xD800 ≤ n ∧ n < 0xDC00) := by
  rw [isHighSurrogate, Bool.decide_and]
  congr 1
  · rw [decide_eq_decide, UInt16.le_iff_toNat_le, toNat_ofNat16 h]
    rfl
  · rw [decide_eq_decide, UInt16.lt_iff_toNat_lt, toNat_ofNat16 h]
    rfl

theorem isLowSurrogate_ofNat {n : ℕ} (h : n < 0x10000) :
    isLowSurrogate (UInt16.ofNat n) = decide (0xDC00 ≤ n ∧ n < 0xE000) := by
  rw [isLowSurrogate, Bool.decide_and]
  congr 1
  · rw [decide_eq_decide, UInt16.le_iff_toNat_le, toNat_ofNat16 h]
    rfl
  · rw [decide_eq_decide, UInt16.lt_iff_toNat_lt, toNat_ofNat16 h]
    rfl

theorem fromUtf16Lossy_encodeUtf16 (c : Char) (rest : List UInt16) :
    fromUtf16Lossy (encodeUtf16 c ++ rest) = c :: fromUtf16Lossy rest := by
  have hvalid : c.toNat < 0xD800 ∨ 0xDFFF < c.toNat ∧ c.toNat < 0x110000 := c.valid
  have hofNat : Char.ofNat c.toNat = c := Char.ofNat_toNat c
  obtain ⟨n, hn⟩ : ∃ n, n = c.toNat := ⟨_, rfl⟩
  rw [← hn] at hvalid hofNat
  unfold encodeUtf16
  rw [← hn]
  split_ifs with hbmp
  · -- One unit, which is no surrogate.
    have hhigh := isHighSurrogate_ofNat hbmp
    have hlow := isLowSurrogate_ofNat hbmp
    rw [decide_eq_false (by omega)] at hhigh
    rw [decide_eq_false (by omega)] at hlow
    rw [List.singleton_append, fromUtf16Lossy_cons hhigh, loneUnit, hhigh, hlow, Bool.or_false,
      if_neg Bool.false_ne_true, toNat_ofNat16 hbmp, hofNat]
  · -- Two units, a surrogate each.
    have hhi : 0xD800 + (n - 0x10000) / 0x400 < 0x10000 := by omega
    have hlo : 0xDC00 + (n - 0x10000) % 0x400 < 0x10000 := by omega
    have hhigh := isHighSurrogate_ofNat hhi
    have hlow := isLowSurrogate_ofNat hlo
    rw [decide_eq_true (by omega)] at hhigh hlow
    rw [List.cons_append, List.singleton_append, fromUtf16Lossy, hhigh, hlow, Bool.and_true, if_pos rfl,
      toNat_ofNat16 hhi, toNat_ofNat16 hlo]
    rw [show 0x10000 + (0xD800 + (n - 0x10000) / 0x400 - 0xD800) * 0x400 +
      (0xDC00 + (n - 0x10000) % 0x400 - 0xDC00) = n by omega, hofNat]

theorem fromUtf16Lossy_toUtf16 (s : List Char) : fromUtf16Lossy (toUtf16 s) = s := by
  induction s with
  | nil => rfl
  | cons c s ih =>
    rw [toUtf16, List.flatMap_cons, fromUtf16Lossy_encodeUtf16]
    exact congrArg _ ih

theorem toUtf16_ne_zero {s : List Char} (hs : Char.ofNat 0 ∉ s) : ∀ u ∈ toUtf16 s, u ≠ 0 := by
  intro u hu
  obtain ⟨c, hc, hu⟩ := List.mem_flatMap.mp hu
  have hvalid : c.toNat < 0xD800 ∨ 0xDFFF < c.toNat ∧ c.toNat < 0x110000 := c.valid
  have hnul : c.toNat ≠ 0 := by
    intro h
    have hc' : c = Char.ofNat 0 := by rw [← Char.ofNat_toNat c, h]
    rw [hc'] at hc
    exact hs hc
  have hne : ∀ n, n < 0x10000 → n ≠ 0 → UInt16.ofNat n ≠ 0 := by
    intro n hlt hn h
    have := congrArg UInt16.toNat h
    rw [toNat_ofNat16 hlt] at this
    exact hn this
  unfold encodeUtf16 at hu
  split_ifs at hu with hbmp
  · rw [List.mem_singleton.mp hu]
    exact hne _ hbmp hnul
  · rcases List.mem_cons.mp hu with rfl | hu
    · exact hne _ (by omega) (by omega)
    · rw [List.mem_singleton.mp hu]
      exact hne _ (by omega) (by omega)

theorem unitsLe_leUnits (us : List UInt16) (rest : List UInt8) : unitsLe (leUnits us ++ rest) = us ++ unitsLe rest := by
  induction us with
  | nil => rfl
  | cons u us ih =>
    have hu : UInt16.ofNat (ofLe (leBytes 2 u.toNat)) = u := by
      rw [ofLe_leBytes_of_lt u.toNat_lt, UInt16.ofNat_toNat]
    rw [leUnits, List.flatMap_cons, List.append_assoc]
    change UInt16.ofNat (ofLe (leBytes 2 u.toNat)) :: unitsLe (leUnits us ++ rest) = _
    rw [hu, ih, List.cons_append]

theorem takeWhile_toUtf16 {s : List Char} (hs : Char.ofNat 0 ∉ s) (rest : List UInt16) :
    (toUtf16 s ++ 0 :: rest).takeWhile (· ≠ 0) = toUtf16 s := by
  rw [List.takeWhile_append_of_pos fun u hu => decide_eq_true (toUtf16_ne_zero hs u hu)]
  exact List.append_nil _

theorem decodeUnicode_utf16z {s : List Char} (hs : Char.ofNat 0 ∉ s) : decodeUnicode (utf16z s) = s := by
  have hunits : unitsLe (utf16z s) = toUtf16 s ++ [0] := unitsLe_leUnits _ [0, 0]
  rw [decodeUnicode, hunits, takeWhile_toUtf16 hs, fromUtf16Lossy_toUtf16]

end Rdpio.Channels.Cliprdr
