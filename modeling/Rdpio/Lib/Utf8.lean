import Mathlib.Data.List.Basic

/-!
# UTF-8

A text is a list of characters.
-/

namespace Rdpio.Lib

/-- The bytes of a character. -/
def encodeUtf8 (c : Char) : List UInt8 :=
  let n := c.toNat
  let tail (k : ℕ) := UInt8.ofNat (0x80 + k % 64)
  if n < 0x80 then [UInt8.ofNat n]
  else if n < 0x800 then [UInt8.ofNat (0xC0 + n / 64), tail n]
  else if n < 0x10000 then [UInt8.ofNat (0xE0 + n / 4096), tail (n / 64), tail n]
  else [UInt8.ofNat (0xF0 + n / 262144), tail (n / 4096), tail (n / 64), tail n]

def utf8 (s : List Char) : List UInt8 := s.flatMap encodeUtf8

def isContinuation (b : UInt8) : Bool := 0x80 ≤ b && b < 0xC0

def secondFits (first second : UInt8) : Bool :=
  isContinuation second &&
    if first = 0xE0 then 0xA0 ≤ second
    else if first = 0xED then second < 0xA0
    else if first = 0xF0 then 0x90 ≤ second
    else if first = 0xF4 then second < 0x90
    else true

def replacement : Char := Char.ofNat 0xFFFD

def low (b : UInt8) (bound : ℕ) : ℕ := b.toNat % bound

def readUtf8 (first : UInt8) (rest : List UInt8) : Char × List UInt8 :=
  if first < 0x80 then (Char.ofNat first.toNat, rest)
  else if 0xC2 ≤ first ∧ first < 0xE0 then
    match rest with
    | b :: rest' =>
      if isContinuation b then (Char.ofNat (low first 32 * 64 + low b 64), rest') else (replacement, rest)
    | [] => (replacement, [])
  else if 0xE0 ≤ first ∧ first < 0xF0 then
    match rest with
    | b :: c :: rest' =>
      if !secondFits first b then (replacement, rest)
      else if isContinuation c then (Char.ofNat ((low first 16 * 64 + low b 64) * 64 + low c 64), rest')
      else (replacement, c :: rest')
    | [b] => (replacement, if secondFits first b then [] else [b])
    | [] => (replacement, [])
  else if 0xF0 ≤ first ∧ first < 0xF5 then
    match rest with
    | b :: c :: d :: rest' =>
      if !secondFits first b then (replacement, rest)
      else if !isContinuation c then (replacement, c :: d :: rest')
      else if isContinuation d then
        (Char.ofNat (((low first 8 * 64 + low b 64) * 64 + low c 64) * 64 + low d 64), rest')
      else (replacement, d :: rest')
    | [b, c] =>
      (replacement, if !secondFits first b then [b, c] else if isContinuation c then [] else [c])
    | [b] => (replacement, if secondFits first b then [] else [b])
    | [] => (replacement, [])
  else (replacement, rest)

/-- `fromUtf8Lossy`, of at most `fuel` characters. -/
def fromUtf8LossyFuel : ℕ → List UInt8 → List Char
  | 0, _ => []
  | _ + 1, [] => []
  | fuel + 1, first :: rest => (readUtf8 first rest).1 :: fromUtf8LossyFuel fuel (readUtf8 first rest).2

def fromUtf8Lossy (bytes : List UInt8) : List Char := fromUtf8LossyFuel bytes.length bytes

theorem length_readUtf8 (first : UInt8) (rest : List UInt8) : (readUtf8 first rest).2.length ≤ rest.length := by
  unfold readUtf8
  split_ifs <;> rcases rest with _ | ⟨b, _ | ⟨c, _ | ⟨d, rest⟩⟩⟩ <;> dsimp only
  all_goals
    try split_ifs
    all_goals
      simp only [List.length_cons, List.length_nil]
      omega

theorem fromUtf8LossyFuel_congr {m n : ℕ} {bytes : List UInt8} (hm : bytes.length ≤ m)
    (hn : bytes.length ≤ n) : fromUtf8LossyFuel m bytes = fromUtf8LossyFuel n bytes := by
  induction m generalizing n bytes with
  | zero =>
    rw [List.length_eq_zero_iff.mp (Nat.le_zero.mp hm)]
    cases n <;> rfl
  | succ m ih =>
    rcases bytes with _ | ⟨first, rest⟩
    · cases n <;> rfl
    · cases n with
      | zero => simp at hn
      | succ n =>
        rw [List.length_cons] at hm hn
        have hrest := length_readUtf8 first rest
        rw [fromUtf8LossyFuel, fromUtf8LossyFuel, ih (n := n) (by omega) (by omega)]

theorem fromUtf8Lossy_cons (first : UInt8) (rest : List UInt8) : fromUtf8Lossy (first :: rest) =
      (readUtf8 first rest).1 :: fromUtf8Lossy (readUtf8 first rest).2 := by
  rw [fromUtf8Lossy, List.length_cons, fromUtf8LossyFuel, fromUtf8Lossy,
    fromUtf8LossyFuel_congr (length_readUtf8 first rest) (Nat.le_refl _)]

theorem encodeUtf8_ne_nil (c : Char) : encodeUtf8 c ≠ [] := by
  unfold encodeUtf8
  dsimp only
  split_ifs <;> exact List.cons_ne_nil _ _

theorem isContinuation_tail (n : ℕ) : isContinuation (UInt8.ofNat (0x80 + n % 64)) = true := by
  have hnat : (UInt8.ofNat (0x80 + n % 64)).toNat = 0x80 + n % 64 := by
    rw [UInt8.toNat_ofNat']
    omega
  rw [isContinuation, Bool.and_eq_true, decide_eq_true_eq, decide_eq_true_eq, UInt8.le_iff_toNat_le,
    UInt8.lt_iff_toNat_lt, hnat]
  change 128 ≤ _ ∧ _ < 192
  omega

theorem low_tail (n : ℕ) : low (UInt8.ofNat (0x80 + n % 64)) 64 = n % 64 := by
  rw [low, UInt8.toNat_ofNat']
  omega

theorem secondFits_of_valid {first k : ℕ} (hfirst : first < 256) (e0 : first = 0xE0 → 0x20 ≤ k % 64)
    (ed : first = 0xED → k % 64 < 0x20) (f0 : first = 0xF0 → 0x10 ≤ k % 64)
    (f4 : first = 0xF4 → k % 64 < 0x10) :
    secondFits (UInt8.ofNat first) (UInt8.ofNat (0x80 + k % 64)) = true := by
  have hk : (UInt8.ofNat (0x80 + k % 64)).toNat = 0x80 + k % 64 := by
    rw [UInt8.toNat_ofNat']
    omega
  have hf : (UInt8.ofNat first).toNat = first := by
    rw [UInt8.toNat_ofNat']
    omega
  have heq : ∀ m : UInt8, UInt8.ofNat first = m ↔ first = m.toNat := by
    intro m
    rw [← UInt8.toNat_inj, hf]
  rw [secondFits, isContinuation_tail, Bool.true_and]
  simp only [heq, UInt8.le_iff_toNat_le, UInt8.lt_iff_toNat_lt, hk, UInt8.reduceToNat]
  split_ifs <;> simp only [decide_eq_true_eq] <;> omega

theorem readUtf8_encodeUtf8 (c : Char) (rest : List UInt8) :
    ∃ first more, encodeUtf8 c ++ rest = first :: more ∧ readUtf8 first more = (c, rest) := by
  have hvalid : c.toNat < 0xD800 ∨ 0xDFFF < c.toNat ∧ c.toNat < 0x110000 := c.valid
  have hofNat : Char.ofNat c.toNat = c := Char.ofNat_toNat c
  obtain ⟨n, hn⟩ : ∃ n, n = c.toNat := ⟨_, rfl⟩
  rw [← hn] at hvalid hofNat
  unfold encodeUtf8
  rw [← hn]
  dsimp only
  split_ifs with h1 h2 h3
  · refine ⟨_, _, rfl, ?_⟩
    have hf : (UInt8.ofNat n).toNat = n := by
      rw [UInt8.toNat_ofNat']
      omega
    unfold readUtf8
    rw [if_pos (UInt8.lt_iff_toNat_lt.mpr (by rw [hf]; exact h1)), hf, hofNat]
    rfl
  · refine ⟨_, UInt8.ofNat (0x80 + n % 64) :: rest, rfl, ?_⟩
    have hf : (UInt8.ofNat (0xC0 + n / 64)).toNat = 0xC0 + n / 64 := by
      rw [UInt8.toNat_ofNat']
      omega
    unfold readUtf8
    rw [if_neg, if_pos]
    · dsimp only
      rw [if_pos (isContinuation_tail n), low_tail, low, hf]
      refine Prod.ext ((congrArg Char.ofNat ?_).trans hofNat) rfl
      omega
    all_goals
      simp only [UInt8.le_iff_toNat_le, UInt8.lt_iff_toNat_lt, hf, UInt8.reduceToNat]
      omega
  · refine ⟨_, UInt8.ofNat (0x80 + n / 64 % 64) :: UInt8.ofNat (0x80 + n % 64) :: rest, rfl, ?_⟩
    have hf : (UInt8.ofNat (0xE0 + n / 4096)).toNat = 0xE0 + n / 4096 := by
      rw [UInt8.toNat_ofNat']
      omega
    unfold readUtf8
    rw [if_neg, if_neg, if_pos]
    · dsimp only
      rw [secondFits_of_valid (by omega) (by omega) (by omega) (by omega)
        (by omega), if_neg (by decide), if_pos (isContinuation_tail n), low_tail, low_tail, low, hf]
      refine Prod.ext ((congrArg Char.ofNat ?_).trans hofNat) rfl
      omega
    all_goals
      simp only [UInt8.le_iff_toNat_le, UInt8.lt_iff_toNat_lt, hf, UInt8.reduceToNat]
      omega
  · refine ⟨_, UInt8.ofNat (0x80 + n / 4096 % 64) :: UInt8.ofNat (0x80 + n / 64 % 64) ::
      UInt8.ofNat (0x80 + n % 64) :: rest, rfl, ?_⟩
    have hf : (UInt8.ofNat (0xF0 + n / 262144)).toNat = 0xF0 + n / 262144 := by
      rw [UInt8.toNat_ofNat']
      omega
    unfold readUtf8
    rw [if_neg, if_neg, if_neg, if_pos]
    · dsimp only
      rw [secondFits_of_valid (by omega) (by omega) (by omega) (by omega)
        (by omega), if_neg (by decide), isContinuation_tail, if_neg (by decide),
        if_pos (isContinuation_tail n), low_tail, low_tail, low_tail, low, hf]
      refine Prod.ext ((congrArg Char.ofNat ?_).trans hofNat) rfl
      omega
    all_goals
      simp only [UInt8.le_iff_toNat_le, UInt8.lt_iff_toNat_lt, hf, UInt8.reduceToNat]
      omega

theorem fromUtf8Lossy_utf8 (s : List Char) : fromUtf8Lossy (utf8 s) = s := by
  induction s with
  | nil => rfl
  | cons c s ih =>
    obtain ⟨first, more, hbytes, hread⟩ := readUtf8_encodeUtf8 c (utf8 s)
    have hcons : utf8 (c :: s) = first :: more := hbytes
    rw [hcons, fromUtf8Lossy_cons, hread, ih]

/-! ## Cutting at a character -/

def isCharBoundary (bytes : List UInt8) (i : ℕ) : Bool :=
  if i = 0 then true
  else
    match bytes[i]? with
    | some b => !isContinuation b
    | none => i = bytes.length

/-- The last boundary up to `i`. -/
def floorBoundary (bytes : List UInt8) : ℕ → ℕ
  | 0 => 0
  | i + 1 => if isCharBoundary bytes (i + 1) then i + 1 else floorBoundary bytes i

def fitting (max : ℕ) : List Char → List Char
  | [] => []
  | c :: s => if (encodeUtf8 c).length ≤ max then c :: fitting (max - (encodeUtf8 c).length) s else []

theorem fitting_isPrefix (max : ℕ) (s : List Char) : fitting max s <+: s := by
  induction s generalizing max with
  | nil => exact List.prefix_rfl
  | cons c s ih =>
    rw [fitting]
    split_ifs
    · exact List.prefix_cons_inj c |>.mpr (ih _)
    · exact List.nil_prefix

theorem length_utf8_fitting (max : ℕ) (s : List Char) : (utf8 (fitting max s)).length ≤ max := by
  induction s generalizing max with
  | nil => exact Nat.zero_le _
  | cons c s ih =>
    rw [fitting]
    split_ifs with h
    · have hrest := ih (max - (encodeUtf8 c).length)
      rw [utf8, List.flatMap_cons, List.length_append]
      rw [utf8] at hrest
      omega
    · exact Nat.zero_le _

theorem length_le_fitting {max : ℕ} {s t : List Char} (ht : t <+: s) (hfits : (utf8 t).length ≤ max) :
    t.length ≤ (fitting max s).length := by
  induction s generalizing max t with
  | nil =>
    rw [List.prefix_nil.mp ht]
    exact Nat.zero_le _
  | cons c s ih =>
    rcases t with _ | ⟨d, t⟩
    · exact Nat.zero_le _
    · obtain ⟨rfl, ht'⟩ := List.cons_prefix_cons.mp ht
      rw [utf8, List.flatMap_cons, List.length_append] at hfits
      rw [fitting, if_pos (by omega), List.length_cons, List.length_cons]
      exact Nat.succ_le_succ (ih ht' (by rw [utf8]; omega))

/-- `t` is the longest part of whole characters of `s` that takes at most `max` bytes. -/
structure LongestFitting (max : ℕ) (s t : List Char) : Prop where
  isPrefix : t <+: s
  fits : (utf8 t).length ≤ max
  longest : ∀ t', t' <+: s → (utf8 t').length ≤ max → t' <+: t

theorem longestFitting_fitting (max : ℕ) (s : List Char) : LongestFitting max s (fitting max s) where
  isPrefix := fitting_isPrefix max s
  fits := length_utf8_fitting max s
  longest t' ht' hfits := List.prefix_of_prefix_length_le ht' (fitting_isPrefix max s) (length_le_fitting ht' hfits)

theorem fitting_of_le {max : ℕ} {s : List Char} (h : (utf8 s).length ≤ max) : fitting max s = s :=
  (fitting_isPrefix max s).eq_of_length_le (length_le_fitting List.prefix_rfl h)

theorem isContinuation_encodeUtf8 (c : Char) {i : ℕ} {b : UInt8} (h : (encodeUtf8 c)[i]? = some b) :
    isContinuation b = decide (i ≠ 0) := by
  have hvalid : c.toNat < 0xD800 ∨ 0xDFFF < c.toNat ∧ c.toNat < 0x110000 := c.valid
  have hfirst : ∀ n, n < 0x80 ∨ 0xC0 ≤ n ∧ n < 0x100 → isContinuation (UInt8.ofNat n) = false := by
    intro n hn
    have hnat : (UInt8.ofNat n).toNat = n := by
      rw [UInt8.toNat_ofNat']
      omega
    rw [isContinuation, Bool.and_eq_false_iff, decide_eq_false_iff_not, decide_eq_false_iff_not,
      UInt8.le_iff_toNat_le, UInt8.lt_iff_toNat_lt, hnat]
    change ¬ 128 ≤ n ∨ ¬ n < 192
    omega
  unfold encodeUtf8 at h
  dsimp only at h
  split_ifs at h
  all_goals
    rcases i with _ | _ | _ | _ | i <;> simp only [List.getElem?_cons_zero, List.getElem?_cons_succ,
      List.getElem?_nil, reduceCtorEq, Option.some.injEq] at h <;> subst h
  all_goals first
    | exact isContinuation_tail _
    | exact hfirst _ (by omega)

theorem isContinuation_head {s : List Char} {b : UInt8} (h : (utf8 s)[0]? = some b) : isContinuation b = false := by
  rcases s with _ | ⟨c, s⟩
  · cases h
  · have hpos := List.length_pos_iff.mpr (encodeUtf8_ne_nil c)
    rw [utf8, List.flatMap_cons, List.getElem?_append_left hpos] at h
    rw [isContinuation_encodeUtf8 c h]
    rfl

theorem floorBoundary_append (c : Char) (s : List Char) (i : ℕ) :
    floorBoundary (encodeUtf8 c ++ utf8 s) ((encodeUtf8 c).length + i) =
      (encodeUtf8 c).length + floorBoundary (utf8 s) i := by
  have hpos := List.length_pos_iff.mpr (encodeUtf8_ne_nil c)
  have hboundary : ∀ i, isCharBoundary (encodeUtf8 c ++ utf8 s) ((encodeUtf8 c).length + i) =
      isCharBoundary (utf8 s) i := by
    intro i
    rw [isCharBoundary, if_neg (by omega), List.getElem?_append_right (Nat.le_add_right _ _),
      Nat.add_sub_cancel_left, isCharBoundary]
    split_ifs with hi
    · subst hi
      rcases hb : (utf8 s)[0]? with _ | b
      · have hnil := List.getElem?_eq_none_iff.mp hb
        simp only [List.length_append, Nat.add_zero, decide_eq_true_eq]
        omega
      · simp [isContinuation_head hb]
    · rcases hb : (utf8 s)[i]? with _ | b
      · simp
      · rfl
  obtain ⟨k, hk⟩ : ∃ k, (encodeUtf8 c).length = k + 1 := ⟨_, (Nat.succ_pred_eq_of_pos hpos).symm⟩
  induction i with
  | zero =>
    have hend := hboundary 0
    have hzero : isCharBoundary (utf8 s) 0 = true := rfl
    rw [Nat.add_zero, hk, hzero] at hend
    rw [Nat.add_zero, hk, floorBoundary.eq_2, hend]
    rfl
  | succ i ih =>
    have hnext := hboundary (i + 1)
    rw [← Nat.add_assoc] at hnext ⊢
    rw [floorBoundary, hnext, floorBoundary, ih]
    split_ifs
    · rw [Nat.add_assoc]
    · rfl

theorem floorBoundary_of_lt (c : Char) (s : List Char) {i : ℕ} (h : i < (encodeUtf8 c).length) :
    floorBoundary (encodeUtf8 c ++ utf8 s) i = 0 := by
  induction i with
  | zero => rfl
  | succ i ih =>
    have hinside : isCharBoundary (encodeUtf8 c ++ utf8 s) (i + 1) = false := by
      rw [isCharBoundary, if_neg (Nat.succ_ne_zero i), List.getElem?_append_left h, List.getElem?_eq_getElem h]
      have hb := isContinuation_encodeUtf8 c (List.getElem?_eq_getElem h)
      simp [hb]
    rw [floorBoundary, hinside, if_neg Bool.false_ne_true]
    exact ih (by omega)

theorem floorBoundary_utf8 (s : List Char) {i : ℕ} (h : i ≤ (utf8 s).length) :
    floorBoundary (utf8 s) i = (utf8 (fitting i s)).length := by
  induction s generalizing i with
  | nil =>
    rw [Nat.le_zero.mp h]
    rfl
  | cons c s ih =>
    rw [utf8, List.flatMap_cons, ← utf8, fitting]
    rw [utf8, List.flatMap_cons, List.length_append, ← utf8] at h
    split_ifs with hfits
    · obtain ⟨j, rfl⟩ := Nat.exists_eq_add_of_le hfits
      rw [floorBoundary_append, Nat.add_sub_cancel_left, ih (by omega), utf8, utf8, List.flatMap_cons,
        List.length_append]
    · rw [floorBoundary_of_lt c s (Nat.lt_of_not_le hfits)]
      rfl

theorem take_floorBoundary (max : ℕ) (s : List Char) :
    (utf8 s).take (floorBoundary (utf8 s) (min (utf8 s).length max)) = utf8 (fitting max s) := by
  have hsame : fitting (min (utf8 s).length max) s = fitting max s := by
    rcases Nat.le_total (utf8 s).length max with hle | hle
    · rw [Nat.min_eq_left hle, fitting_of_le (Nat.le_refl _), fitting_of_le hle]
    · rw [Nat.min_eq_right hle]
  rw [floorBoundary_utf8 s (Nat.min_le_left _ _), hsame]
  obtain ⟨t, ht⟩ := fitting_isPrefix max s
  have hbytes : utf8 s = utf8 (fitting max s) ++ utf8 t := by
    rw [utf8, utf8, utf8, ← List.flatMap_append, ht]
  rw [hbytes, List.take_left]

end Rdpio.Lib
