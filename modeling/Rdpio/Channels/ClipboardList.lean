import Rdpio.Channels.Utf16

/-!
# The list of copied files

What a file list says is read back as it was written, for names that fit their field.
-/

namespace Rdpio.Channels.Cliprdr

open Lib

/-- An entry that a descriptor can say: a name that leaves room for its NUL, and no size of a folder. -/
structure ClipFile.Fits (f : ClipFile) : Prop where
  short : (toUtf16 f.name).length ≤ 259
  noNul : Char.ofNat 0 ∉ f.name
  folder : f.is_dir = true → f.size = 0

theorem length_leUnits (us : List UInt16) : (leUnits us).length = us.length * 2 := by
  induction us with
  | nil => rfl
  | cons u us ih =>
    rw [leUnits, List.flatMap_cons, List.length_append, length_leBytes, List.length_cons]
    change 2 + (leUnits us).length = _
    omega

theorem length_fileDescriptor (f : ClipFile) : (fileDescriptor f).length = rec := by
  simp only [fileDescriptor, List.length_append, u32le, u64le, length_leBytes, List.length_replicate, length_leUnits,
    List.length_take, rec]
  omega

theorem ofLe_u32le (v : UInt32) : ofLe (u32le v) = v.toNat := ofLe_leBytes_of_lt v.toNat_lt

theorem size_of_words (size : UInt64) :
    UInt64.ofNat (size >>> 32).toUInt32.toNat <<< 32 ||| UInt64.ofNat size.toUInt32.toNat = size := by
  rw [← UInt64.toNat_inj, UInt64.toNat_or, UInt64.toNat_shiftLeft]
  have hlt := size.toNat_lt
  have hhigh : (UInt64.ofNat (size >>> 32).toUInt32.toNat).toNat = size.toNat / 2^32 := by
    simp [Nat.shiftRight_eq_div_pow]
    omega
  have hlow : (UInt64.ofNat size.toUInt32.toNat).toNat = size.toNat % 2^32 := by
    simp
    omega
  rw [hhigh, hlow, show (32 : UInt64).toNat % 64 = 32 from rfl, Nat.shiftLeft_eq]
  have hmod := Nat.mod_lt size.toNat (Nat.two_pow_pos 32)
  rw [Nat.mod_eq_of_lt (by omega), Nat.mul_comm, ← Nat.two_pow_add_eq_or_of_lt hmod, Nat.div_add_mod]

theorem take_drop_of_append {l mid : List UInt8} {i n : ℕ} (pre post : List UInt8) (h : l = pre ++ (mid ++ post))
    (hi : pre.length = i) (hn : mid.length = n) : (l.drop i).take n = mid := by
  rw [h, List.drop_left' hi, List.take_left' hn]

theorem readDescriptor_fileDescriptor {f : ClipFile} (hf : f.Fits) : readDescriptor (fileDescriptor f) = f := by
  obtain ⟨attrs, hattrs⟩ : ∃ attrs, (if f.is_dir then fileAttributeDirectory else fileAttributeArchive) = attrs :=
    ⟨_, rfl⟩
  obtain ⟨units, hunits⟩ : ∃ units, (toUtf16 f.name).take 259 ++
      List.replicate (260 - ((toUtf16 f.name).take 259).length) 0 = units := ⟨_, rfl⟩
  have hlen : (leUnits units).length = 520 := by
    rw [length_leUnits, ← hunits, List.length_append, List.length_replicate, List.length_take]
    omega
  have hd : fileDescriptor f = u32le (fdAttributes ||| fdFilesize) ++ List.replicate 32 (0 : UInt8) ++ u32le attrs ++
      List.replicate 16 (0 : UInt8) ++ u64le 0 ++ u32le (f.size >>> 32).toUInt32 ++ u32le f.size.toUInt32 ++
      leUnits units := by rw [fileDescriptor, hattrs, hunits]
  have h36 : ((fileDescriptor f).drop 36).take 4 = u32le attrs :=
    take_drop_of_append (u32le (fdAttributes ||| fdFilesize) ++ List.replicate 32 (0 : UInt8))
      (List.replicate 16 (0 : UInt8) ++ (u64le 0 ++ (u32le (f.size >>> 32).toUInt32 ++
        (u32le f.size.toUInt32 ++ leUnits units)))) (by simp only [hd, List.append_assoc]) rfl rfl
  have h64 : ((fileDescriptor f).drop 64).take 4 = u32le (f.size >>> 32).toUInt32 :=
    take_drop_of_append (u32le (fdAttributes ||| fdFilesize) ++ List.replicate 32 (0 : UInt8) ++ u32le attrs ++
        List.replicate 16 (0 : UInt8) ++ u64le 0)
      (u32le f.size.toUInt32 ++ leUnits units) (by simp only [hd, List.append_assoc]) rfl rfl
  have h68 : ((fileDescriptor f).drop 68).take 4 = u32le f.size.toUInt32 :=
    take_drop_of_append (u32le (fdAttributes ||| fdFilesize) ++ List.replicate 32 (0 : UInt8) ++ u32le attrs ++
        List.replicate 16 (0 : UInt8) ++ u64le 0 ++ u32le (f.size >>> 32).toUInt32)
      (leUnits units) (by simp only [hd, List.append_assoc]) rfl rfl
  have h72 : ((fileDescriptor f).drop 72).take 520 = leUnits units :=
    take_drop_of_append (u32le (fdAttributes ||| fdFilesize) ++ List.replicate 32 (0 : UInt8) ++ u32le attrs ++
        List.replicate 16 (0 : UInt8) ++ u64le 0 ++ u32le (f.size >>> 32).toUInt32 ++ u32le f.size.toUInt32)
      ([]) (by rw [hd, List.append_nil]) rfl hlen
  have hname : fromUtf16Lossy ((unitsLe (leUnits units)).takeWhile (· ≠ 0)) = f.name := by
    have hread := unitsLe_leUnits units []
    rw [List.append_nil] at hread
    have hzero : units = toUtf16 f.name ++ 0 :: List.replicate (259 - (toUtf16 f.name).length) 0 := by
      rw [← hunits, List.take_of_length_le hf.short, show 260 - (toUtf16 f.name).length =
        259 - (toUtf16 f.name).length + 1 by have := hf.short; omega, List.replicate_succ]
    rw [hread, show unitsLe [] = [] from rfl, List.append_nil, hzero, takeWhile_toUtf16 hf.noNul,
      fromUtf16Lossy_toUtf16]
  have hdir : (UInt32.ofNat attrs.toNat &&& fileAttributeDirectory != 0) = f.is_dir := by
    rw [← hattrs]
    cases f.is_dir <;> rfl
  have hsize : (if f.is_dir = true then 0 else f.size) = f.size := by
    split_ifs with h
    · exact (hf.folder h).symm
    · rfl
  simp only [readDescriptor, h36, h64, h68, h72, ofLe_u32le, size_of_words, hname, hdir, hsize]

theorem readDescriptors_append (n : ℕ) {files : List ClipFile} (hfiles : ∀ f ∈ files, f.Fits) (rest : List UInt8) :
    readDescriptors n (files.flatMap fileDescriptor ++ rest) =
      files.take n ++ readDescriptors (n - files.length) rest := by
  induction files generalizing n with
  | nil => rw [List.flatMap_nil, List.nil_append, List.take_nil, List.nil_append, List.length_nil, Nat.sub_zero]
  | cons f files ih =>
    cases n with
    | zero => rw [Nat.zero_sub]; rfl
    | succ n =>
      have hlen := length_fileDescriptor f
      rw [List.flatMap_cons, List.append_assoc, readDescriptors, if_neg (by rw [List.length_append, hlen]; omega),
        List.take_left' hlen, List.drop_left' hlen, ih n fun f hf => hfiles f (List.mem_cons_of_mem _ hf),
        readDescriptor_fileDescriptor (hfiles f List.mem_cons_self), List.take_succ_cons, List.cons_append,
        List.length_cons, Nat.succ_sub_succ]

theorem length_readDescriptors (count : ℕ) (data : List UInt8) :
    (readDescriptors count data).length * rec ≤ data.length := by
  induction count generalizing data with
  | zero =>
    rw [readDescriptors, List.length_nil, Nat.zero_mul]
    exact Nat.zero_le _
  | succ count ih =>
    rw [readDescriptors]
    split_ifs with hshort
    · rw [List.length_nil, Nat.zero_mul]
      exact Nat.zero_le _
    · have hrest := ih (data.drop rec)
      rw [List.length_drop] at hrest
      rw [List.length_cons, Nat.succ_mul]
      omega

theorem parse_fileGroupDescriptor {files : List ClipFile} (hfiles : ∀ f ∈ files, f.Fits) :
    parseFileDescriptors (fileGroupDescriptor files) = files.take (files.length % 2^32) := by
  have hhead : (u32le (UInt32.ofNat files.length)).length = 4 := rfl
  have hread := readDescriptors_append (files.length % 2^32) hfiles []
  rw [List.append_nil, Nat.sub_eq_zero_of_le (Nat.mod_le ..)] at hread
  unfold parseFileDescriptors fileGroupDescriptor
  rw [if_neg (by rw [List.length_append, hhead]; omega), List.take_left' hhead, List.drop_left' hhead, ofLe_u32le,
    UInt32.toNat_ofNat', hread, show readDescriptors 0 [] = [] from rfl, List.append_nil]

/-- A list of fewer than `2^32` entries that fit is read back as it was, and no longer one is; any bytes give no more
entries than whole descriptors are there; and a text without NUL is read back. -/
theorem fileList_roundTrip : (∀ files : List ClipFile, (∀ f ∈ files, f.Fits) →
        (parseFileDescriptors (fileGroupDescriptor files) = files ↔ files.length < 2^32)) ∧
      (∀ data, (parseFileDescriptors data).length ≤ (data.length - 4) / rec) ∧
      ∀ text, Char.ofNat 0 ∉ text → decodeUnicode (unicodeResponse text) = text := by
  refine ⟨fun files hfiles => ?_, fun data => ?_, fun text htext => decodeUnicode_utf16z htext⟩
  · rw [parse_fileGroupDescriptor hfiles]
    constructor
    · intro h
      have hlen := congrArg List.length h
      rw [List.length_take] at hlen
      have hmod := Nat.mod_lt files.length (Nat.two_pow_pos 32)
      omega
    · intro hlt
      rw [Nat.mod_eq_of_lt hlt, List.take_length]
  · unfold parseFileDescriptors
    split_ifs with hshort
    · exact Nat.zero_le _
    · have hle := length_readDescriptors (ofLe (data.take 4)) (data.drop 4)
      rw [List.length_drop] at hle
      exact (Nat.le_div_iff_mul_le (by decide)).2 hle

/-- `2^32` empty files: the count in front is 0. -/
theorem fileList_too_long : parseFileDescriptors (fileGroupDescriptor (List.replicate (2^32) ⟨['a'], 0, false⟩)) ≠
      List.replicate (2^32) ⟨['a'], 0, false⟩ := by
  have hfits : ClipFile.Fits ⟨['a'], 0, false⟩ := ⟨by decide, by decide, fun h => absurd h (by decide)⟩
  rw [parse_fileGroupDescriptor fun f hf => by rw [List.eq_of_mem_replicate hf]; exact hfits, List.length_replicate,
    Nat.mod_self, List.take_zero]
  intro h
  have hlen := congrArg List.length h
  rw [List.length_nil, List.length_replicate] at hlen
  exact absurd hlen (by decide)

end Rdpio.Channels.Cliprdr
