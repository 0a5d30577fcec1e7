import Rdpio.Lib.Reader

/-!
# Distinguished encoding

`crates/rdp-asn1/src/der.rs`: a tag, a length and that many bytes.
-/

namespace Rdpio.Nla.Der

open Lib (beBytes ofBe Reads ReaderOf)

inductive Asn1Error where
  | UnexpectedEof
  | IndefiniteLength
  | LengthOverflow
  | NonMinimalLength
  | UnexpectedTag (expected found : UInt8)
deriving DecidableEq

/-- An error that is returned, or the end of the program. -/
inductive Fault (E : Type) where
  | error (e : E)
  | panic
deriving DecidableEq

abbrev Cursor (E : Type) := ReaderOf (Except (Fault E))

def TAG_INTEGER : UInt8 := 0x02
def TAG_OCTET_STRING : UInt8 := 0x04
def TAG_SEQUENCE : UInt8 := 0x30

def contextTag (n : UInt8) : UInt8 := 0xA0 ||| (n &&& 0x1F)

def significant (bytes : List UInt8) : List UInt8 := bytes.drop ((bytes.findIdx? (· != 0)).getD (bytes.length - 1))

def encodeLength (len : ℕ) : List UInt8 :=
  if len < 0x80 then [.ofNat len]
  else
    let significant := significant (beBytes 8 len)
    [0x80 ||| .ofNat significant.length] ++ significant

variable {E : Type}

def fail (e : E) {α : Type} : Cursor E α := fun _ => .error (.error e)

def splitFirst : Cursor Asn1Error UInt8
  | [] => .error (.error .UnexpectedEof)
  | b :: rest => .ok (b, rest)

def splitAt (n : ℕ) : Cursor E (List UInt8) := fun input =>
  if n ≤ input.length then .ok (input.take n, input.drop n) else .error .panic

def left : Cursor E ℕ := fun input => .ok (input.length, input)

/-- `b[i]`. -/
def index (b : List UInt8) (i : ℕ) : Cursor E UInt8 := fun input =>
  match b[i]? with
  | some x => .ok (x, input)
  | none => .error .panic

/-- Bytes shifted into a number of `w` bits. -/
def shiftIn (w : ℕ) (bytes : List UInt8) : ℕ := bytes.foldl (fun value b => (value <<< 8) % 2^w ||| b.toNat) 0

def decodeLength : Cursor Asn1Error ℕ := do
  let first ← splitFirst
  if first < 0x80 then pure first.toNat
  else if first = 0x80 then fail .IndefiniteLength
  else
    let n := (first &&& 0x7f).toNat
    if 8 < n then fail .LengthOverflow
    else if (← left) < n then fail .UnexpectedEof
    else
      let head ← splitAt n
      if (← index head 0) = 0 then fail .NonMinimalLength
      else
        let value := shiftIn 64 head
        if value < 0x80 then fail .NonMinimalLength else pure value

def tlv (tag : UInt8) (value : List UInt8) : List UInt8 := [tag] ++ encodeLength value.length ++ value

def integerValue (v : UInt32) : List UInt8 :=
  if v = 0 then [0x00]
  else
    let bytes := significant (beBytes 4 v.toNat)
    if bytes.getD 0 0 &&& 0x80 ≠ 0 then 0x00 :: bytes else bytes

def integer (v : UInt32) : List UInt8 := tlv TAG_INTEGER (integerValue v)

def octetString (bytes : List UInt8) : List UInt8 := tlv TAG_OCTET_STRING bytes

def sequence (inner : List UInt8) : List UInt8 := tlv TAG_SEQUENCE inner

def context (n : UInt8) (inner : List UInt8) : List UInt8 := tlv (contextTag n) inner

def readElement : Cursor Asn1Error (UInt8 × List UInt8) := do
  let tag ← splitFirst
  let len ← decodeLength
  if (← left) < len then fail .UnexpectedEof
  else
    let value ← splitAt len
    pure (tag, value)

def expect (tag : UInt8) : Cursor Asn1Error (List UInt8) := do
  let element ← readElement
  if element.1 ≠ tag then fail (.UnexpectedTag tag element.1) else pure element.2

def readU32 (value : List UInt8) : Except (Fault Asn1Error) UInt32 :=
  if 5 < value.length then .error (.error .LengthOverflow)
  else
    let v := shiftIn 64 value
    if 2^32 - 1 < v then .error (.error .LengthOverflow) else .ok (.ofNat v)

theorem significant_eq {bytes : List UInt8} (h : ∃ b ∈ bytes, b ≠ 0) :
    significant bytes = bytes.dropWhile (· == 0) := by
  have hfind : bytes.findIdx? (· != 0) = some (bytes.findIdx (· != 0)) := by
    rw [List.findIdx?_eq_some_iff_findIdx_eq]
    refine ⟨List.findIdx_lt_length.mpr ?_, rfl⟩
    simpa using h
  rw [significant, hfind, List.dropWhile_eq_drop_findIdx_not]
  rfl

theorem significant_beBytes {w n : ℕ} (hpos : 0 < n) (hn : n < 256^w) :
    ∃ b bs, significant (beBytes w n) = b :: bs ∧ b ≠ 0 ∧ (b :: bs).length ≤ w ∧ ofBe (b :: bs) = n := by
  have hvalue : ofBe ((beBytes w n).dropWhile (· == 0)) = n := by
    rw [Lib.ofBe_dropWhile, Lib.ofBe_beBytes, Nat.mod_eq_of_lt hn]
  have hlen := (List.dropWhile_sublist (l := beBytes w n) (· == 0)).length_le
  rw [Lib.length_beBytes] at hlen
  cases hdrop : (beBytes w n).dropWhile (· == 0) with
  | nil =>
    rw [hdrop] at hvalue
    exact absurd hvalue.symm (Nat.ne_of_gt hpos)
  | cons b bs =>
    rw [hdrop] at hvalue hlen
    have hhead : b ≠ 0 := by
      have := List.head?_dropWhile_not (· == 0) (beBytes w n)
      rw [hdrop] at this
      simpa using this
    have hmem : b ∈ beBytes w n := (List.dropWhile_sublist _).subset (by rw [hdrop]; exact List.mem_cons_self)
    exact ⟨b, bs, (significant_eq ⟨b, hmem, hhead⟩).trans hdrop, hhead, hlen, hvalue⟩

theorem significant_of_head {w : ℕ} {b : UInt8} {bs : List UInt8} (hb : b ≠ 0) (hlen : (b :: bs).length ≤ w) :
    significant (beBytes w (ofBe (b :: bs))) = b :: bs := by
  rw [Lib.beBytes_ofBe_of_le hlen, significant_eq ⟨b, by simp, hb⟩,
    List.dropWhile_append_of_pos (by simp), List.dropWhile_cons_of_neg (by simpa using hb)]

theorem shiftIn_eq {w : ℕ} {bytes : List UInt8} (h : 8 * bytes.length ≤ w) : shiftIn w bytes = ofBe bytes := by
  -- Nothing is shifted out: the bytes that are still to come have room.
  have hall : ∀ (bytes : List UInt8) (value : ℕ), (value + 1) * 256^bytes.length ≤ 2^w →
      bytes.foldl (fun value b => (value <<< 8) % 2^w ||| b.toNat) value = value * 256^bytes.length + ofBe bytes := by
    intro bytes
    induction bytes with
    | nil =>
      intro value _
      simp [ofBe, Lib.ofLe]
    | cons b bs ih =>
      intro value hvalue
      have hb : b.toNat < 2^8 := b.toNat_lt
      rw [List.length_cons, pow_succ, Nat.mul_comm (256^bs.length), ← Nat.mul_assoc] at hvalue
      have hshift : (value <<< 8) % 2^w ||| b.toNat = value * 256 + b.toNat := by
        have hfits : value * 2^8 < 2^w := by
          calc value * 2^8 < (value + 1) * 256 := by omega
            _ ≤ (value + 1) * 256 * 256^bs.length := Nat.le_mul_of_pos_right _ (Nat.pow_pos (by decide))
            _ ≤ 2^w := hvalue
        rw [Nat.shiftLeft_eq, Nat.mod_eq_of_lt hfits, Nat.mul_comm, ← Nat.two_pow_add_eq_or_of_lt hb]
        omega
      have hroom : (value * 256 + b.toNat + 1) * 256^bs.length ≤ 2^w :=
        le_trans (Nat.mul_le_mul_right _ (by omega)) hvalue
      rw [List.foldl_cons, hshift, ih _ hroom, Lib.ofBe_cons, List.length_cons, pow_succ]
      ring
  have hzero := hall bytes 0 (by
    rw [Nat.zero_add, Nat.one_mul, show 256 = 2^8 from rfl, ← pow_mul]
    exact Nat.pow_le_pow_right (by decide) h)
  rwa [Nat.zero_mul, Nat.zero_add] at hzero

section Runs

variable {α β : Type} (input : List UInt8)

@[simp]
theorem run_bind_ok {r : Cursor E α} {f : α → Cursor E β} {a : α} {rest : List UInt8}
    (h : r.run input = .ok (a, rest)) : (r >>= f).run input = (f a).run rest := by
  rw [StateT.run_bind, h]
  rfl

@[simp]
theorem run_splitFirst (b : UInt8) : splitFirst.run (b :: input) = .ok (b, input) := rfl

@[simp]
theorem run_left : (left : Cursor E ℕ).run input = .ok (input.length, input) := rfl

theorem run_splitAt {n : ℕ} (h : n ≤ input.length) :
    (splitAt n : Cursor E (List UInt8)).run input = .ok (input.take n, input.drop n) := if_pos h

@[simp]
theorem run_index (b : UInt8) (bs : List UInt8) : (index (b :: bs) 0 : Cursor E UInt8).run input = .ok (b, input) := rfl

theorem bind_ne_panic {x : Except (Fault E) α} {f : α → Except (Fault E) β} (hx : x ≠ .error .panic)
    (hf : ∀ a, x = .ok a → f a ≠ .error .panic) : (x >>= f) ≠ .error .panic := by
  cases x with
  | error e =>
    intro h
    cases h
    exact hx rfl
  | ok a => exact hf a rfl

theorem ok_ne_panic (a : α) : (.ok a : Except (Fault E) α) ≠ .error .panic := fun h => by cases h

end Runs

/-! ## Lengths are read back, and nothing else is -/

theorem or_long {n : ℕ} (h : n < 0x80) :
    ((0x80 : UInt8) ||| .ofNat n).toNat = 0x80 + n ∧ (((0x80 : UInt8) ||| .ofNat n) &&& 0x7f).toNat = n := by
  have hn : (UInt8.ofNat n).toNat = n := UInt8.toNat_ofNat_of_lt' (show n < 2^8 by omega)
  have hor : ((0x80 : UInt8) ||| .ofNat n).toNat = 0x80 + n := by
    rw [UInt8.toNat_or, hn]
    exact (Nat.two_pow_add_eq_or_of_lt (i := 7) h 1).symm
  refine ⟨hor, ?_⟩
  rw [UInt8.toNat_and, hor]
  change (0x80 + n) &&& (2^7 - 1) = n
  rw [Nat.and_two_pow_sub_one_eq_mod]
  omega

theorem long_eq {first : UInt8} (hshort : ¬ first < 0x80) (hindefinite : first ≠ 0x80) :
    ∃ n, (first &&& 0x7f).toNat = n ∧ first = 0x80 ||| .ofNat n ∧ 0 < n := by
  have hge : 0x80 ≤ first.toNat := Nat.le_of_not_lt fun h => hshort (UInt8.lt_iff_toNat_lt.mpr h)
  have hne : first.toNat ≠ 0x80 := fun h => hindefinite (UInt8.toNat_inj.mp h)
  have hlt := first.toNat_lt
  have hlow : (first &&& 0x7f).toNat = first.toNat % 2^7 := by
    rw [UInt8.toNat_and]
    exact Nat.and_two_pow_sub_one_eq_mod first.toNat 7
  refine ⟨first.toNat % 2^7, hlow, ?_, by omega⟩
  rw [← UInt8.toNat_inj, (or_long (n := first.toNat % 2^7) (by omega)).1]
  omega

theorem decodeLength_long {b : UInt8} {bs rest : List UInt8} (hlen : (b :: bs).length ≤ 8) {first : UInt8}
    (hfirst : first = 0x80 ||| .ofNat (b :: bs).length) :
    decodeLength.run (first :: (b :: bs ++ rest)) =
      if b = 0 ∨ ofBe (b :: bs) < 0x80 then .error (.error .NonMinimalLength) else .ok (ofBe (b :: bs), rest) := by
  obtain ⟨hnat, hlow⟩ := or_long (n := (b :: bs).length) (by omega)
  rw [← hfirst] at hnat hlow
  have hlong : ¬ first < 0x80 := by
    rw [UInt8.lt_iff_toNat_lt, hnat]
    exact Nat.not_lt.mpr (Nat.le_add_right ..)
  have hdefinite : first ≠ 0x80 := by
    intro h
    rw [h] at hnat
    simp at hnat
  have hleft : ¬ (b :: bs ++ rest).length < (b :: bs).length := by simp
  have hsplit := run_splitAt (E := Asn1Error) (b :: bs ++ rest) (n := (b :: bs).length) (by simp)
  rw [List.take_left, List.drop_left] at hsplit
  rw [decodeLength, run_bind_ok _ (run_splitFirst _ first), if_neg hlong, if_neg hdefinite]
  simp only [hlow]
  rw [if_neg (by omega), run_bind_ok _ (run_left _), if_neg hleft, run_bind_ok _ hsplit, run_bind_ok _ (run_index ..),
    shiftIn_eq (by omega)]
  by_cases hb : b = 0
  · rw [if_pos hb, if_pos (.inl hb)]
    rfl
  rw [if_neg hb]
  by_cases hsmall : ofBe (b :: bs) < 0x80
  · rw [if_pos hsmall, if_pos (.inr hsmall)]
    rfl
  · rw [if_neg hsmall, if_neg (by simp [hb, hsmall])]
    rfl

theorem encodeLength_short {v : ℕ} (h : v < 0x80) : encodeLength v = [.ofNat v] := if_pos h

theorem encodeLength_long {b : UInt8} {bs : List UInt8} (hb : b ≠ 0) (hlen : (b :: bs).length ≤ 8)
    (h : ¬ ofBe (b :: bs) < 0x80) :
    encodeLength (ofBe (b :: bs)) = (0x80 ||| .ofNat (b :: bs).length) :: b :: bs := by
  rw [encodeLength, if_neg h, significant_of_head hb hlen]
  rfl

theorem reads_encodeLength {v : ℕ} (hv : v < 2^64) : Reads decodeLength (encodeLength v) v := by
  intro rest
  by_cases hshort : v < 0x80
  · have hnat : (UInt8.ofNat v).toNat = v := UInt8.toNat_ofNat_of_lt' (show v < 2^8 by omega)
    have hlt : UInt8.ofNat v < 0x80 := by
      rw [UInt8.lt_iff_toNat_lt, hnat]
      exact hshort
    rw [encodeLength_short hshort, List.singleton_append, decodeLength, run_bind_ok _ (run_splitFirst ..), if_pos hlt,
      hnat]
    rfl
  · obtain ⟨b, bs, -, hb, hlen, hvalue⟩ := significant_beBytes (w := 8) (n := v) (by omega) hv
    rw [← hvalue] at hshort ⊢
    rw [encodeLength_long hb hlen hshort, List.cons_append, decodeLength_long hlen rfl, if_neg (by simp [hb, hshort])]
    rfl

theorem decodeLength_cases (input : List UInt8) : (∃ e, decodeLength.run input = .error (.error e)) ∨
      ∃ v rest, v < 2^64 ∧ input = encodeLength v ++ rest ∧ decodeLength.run input = .ok (v, rest) := by
  cases input with
  | nil => exact .inl ⟨_, rfl⟩
  | cons first input =>
    by_cases hshort : first < 0x80
    · have hlt : first.toNat < 0x80 := UInt8.lt_iff_toNat_lt.mp hshort
      refine .inr ⟨first.toNat, input, by omega, ?_, ?_⟩
      · rw [encodeLength_short hlt, UInt8.ofNat_toNat]
        rfl
      · rw [decodeLength, run_bind_ok _ (run_splitFirst ..), if_pos hshort]
        rfl
    by_cases hindefinite : first = 0x80
    · rw [decodeLength, run_bind_ok _ (run_splitFirst ..), if_neg hshort, if_pos hindefinite]
      exact .inl ⟨_, rfl⟩
    obtain ⟨n, hn, hfirst, hpos⟩ := long_eq hshort hindefinite
    by_cases hmany : 8 < n
    · rw [decodeLength, run_bind_ok _ (run_splitFirst ..), if_neg hshort, if_neg hindefinite]
      simp only [hn]
      rw [if_pos hmany]
      exact .inl ⟨_, rfl⟩
    by_cases hfew : input.length < n
    · rw [decodeLength, run_bind_ok _ (run_splitFirst ..), if_neg hshort, if_neg hindefinite]
      simp only [hn]
      rw [if_neg hmany, run_bind_ok _ (run_left _), if_pos hfew]
      exact .inl ⟨_, rfl⟩
    have hlength : (input.take n).length = n := List.length_take_of_le (Nat.le_of_not_lt hfew)
    cases hhead : input.take n with
    | nil =>
      rw [hhead] at hlength
      exact absurd hlength (Nat.ne_of_lt hpos)
    | cons b bs =>
      rw [hhead] at hlength
      have hinput : input = b :: bs ++ input.drop n := by rw [← hhead, List.take_append_drop]
      have hlen : (b :: bs).length ≤ 8 := by omega
      have hlong : decodeLength.run (first :: (b :: bs ++ input.drop n)) = _ :=
        decodeLength_long hlen (hfirst.trans (by rw [hlength]))
      rw [← hinput] at hlong
      rw [hlong]
      split_ifs with hbad
      · exact .inl ⟨_, rfl⟩
      · rw [not_or] at hbad
        have hvalue := Lib.ofBe_lt (b :: bs)
        refine .inr ⟨ofBe (b :: bs), input.drop n, ?_, ?_, rfl⟩
        · calc ofBe (b :: bs) < 256^(b :: bs).length := hvalue
            _ ≤ 256^8 := Nat.pow_le_pow_right (by decide) hlen
            _ = 2^64 := rfl
        · rw [encodeLength_long hbad.1 hlen hbad.2, hlength, ← hfirst, List.cons_append, ← hinput]

theorem decodeLength_iff {input : List UInt8} {v : ℕ} {rest : List UInt8} :
    decodeLength.run input = .ok (v, rest) ↔ v < 2^64 ∧ input = encodeLength v ++ rest := by
  constructor
  · intro h
    rcases decodeLength_cases input with ⟨e, he⟩ | ⟨v', rest', hv, hinput, hok⟩
    · rw [he] at h
      cases h
    · rw [hok, Except.ok.injEq, Prod.mk.injEq] at h
      rw [← h.1, ← h.2]
      exact ⟨hv, hinput⟩
  · rintro ⟨hv, rfl⟩
    exact reads_encodeLength hv rest

theorem length_lt_tlv (tag : UInt8) (value : List UInt8) : value.length < (tlv tag value).length := by
  simp only [tlv, List.length_append, List.length_singleton]
  omega

theorem tlv_ne_nil (tag : UInt8) (value rest : List UInt8) : tlv tag value ++ rest ≠ [] := by
  rw [tlv, List.append_assoc, List.append_assoc, List.singleton_append]
  exact List.cons_ne_nil _ _

theorem reads_tlv (tag : UInt8) {value : List UInt8} (h : value.length < 2^64) :
    Reads readElement (tlv tag value) (tag, value) := by
  intro rest
  have hsplit := run_splitAt (E := Asn1Error) (value ++ rest) (n := value.length) (by simp)
  rw [List.take_left, List.drop_left] at hsplit
  rw [tlv, List.append_assoc, List.append_assoc, List.singleton_append, readElement,
    run_bind_ok _ (run_splitFirst ..), run_bind_ok _ (reads_encodeLength h (value ++ rest)), run_bind_ok _ (run_left _),
    if_neg (by simp), run_bind_ok _ hsplit]
  rfl

theorem readElement_cases (input : List UInt8) : (∃ e, readElement.run input = .error (.error e)) ∨
      ∃ tag value rest, value.length < 2^64 ∧ input = tlv tag value ++ rest ∧
        readElement.run input = .ok ((tag, value), rest) := by
  cases input with
  | nil => exact .inl ⟨_, rfl⟩
  | cons tag input =>
    rcases decodeLength_cases input with ⟨e, he⟩ | ⟨len, after, hlen, hinput, hok⟩
    · refine .inl ⟨e, ?_⟩
      rw [readElement, run_bind_ok _ (run_splitFirst ..), StateT.run_bind, he]
      rfl
    by_cases hfew : after.length < len
    · refine .inl ⟨.UnexpectedEof, ?_⟩
      rw [readElement, run_bind_ok _ (run_splitFirst ..), run_bind_ok _ hok, run_bind_ok _ (run_left _), if_pos hfew]
      rfl
    have hlength : (after.take len).length = len := List.length_take_of_le (Nat.le_of_not_lt hfew)
    refine .inr ⟨tag, after.take len, after.drop len, by rwa [hlength], ?_, ?_⟩
    · rw [tlv, hlength, List.append_assoc, List.take_append_drop, List.append_assoc, ← hinput]
      rfl
    · rw [readElement, run_bind_ok _ (run_splitFirst ..), run_bind_ok _ hok, run_bind_ok _ (run_left _), if_neg hfew,
        run_bind_ok _ (run_splitAt _ (Nat.le_of_not_lt hfew))]
      rfl

theorem length_readElement {input rest : List UInt8} {element : UInt8 × List UInt8}
    (h : readElement.run input = .ok (element, rest)) : rest.length < input.length := by
  rcases readElement_cases input with ⟨e, he⟩ | ⟨tag, value, rest', -, hinput, hok⟩
  · rw [he] at h
    cases h
  · rw [hok, Except.ok.injEq, Prod.mk.injEq] at h
    rw [hinput, ← h.2]
    simp only [tlv, List.length_append, List.length_singleton]
    omega

theorem reads_expect (tag : UInt8) {value : List UInt8} (h : value.length < 2^64) :
    Reads (expect tag) (tlv tag value) value := by
  intro rest
  rw [expect, run_bind_ok _ (reads_tlv tag h rest), if_neg (by simp)]
  rfl

theorem run_expect (tag : UInt8) {value : List UInt8} (h : value.length < 2^64) :
    (expect tag).run (tlv tag value) = .ok (value, []) := by
  have hrun := reads_expect tag h []
  rwa [List.append_nil] at hrun

theorem length_expect {tag : UInt8} {input rest value : List UInt8} (h : (expect tag).run input = .ok (value, rest)) :
    rest.length < input.length := by
  rcases readElement_cases input with ⟨e, he⟩ | ⟨found, value', rest', -, -, hok⟩
  · rw [expect, StateT.run_bind, he] at h
    cases h
  · refine length_readElement (?_ : readElement.run input = .ok ((found, value'), rest))
    rw [expect, run_bind_ok _ hok] at h
    rw [hok]
    by_cases hfound : found = tag
    · rw [if_neg (not_not.mpr hfound)] at h
      cases h
      rfl
    · rw [if_pos hfound] at h
      cases h

theorem readElement_ne_panic (input : List UInt8) : readElement.run input ≠ .error .panic := by
  rcases readElement_cases input with ⟨e, he⟩ | ⟨tag, value, rest, -, -, hok⟩
  · rw [he]
    exact fun h => by cases h
  · rw [hok]
    exact fun h => by cases h

theorem expect_ne_panic (tag : UInt8) (input : List UInt8) : (expect tag).run input ≠ .error .panic := by
  rcases readElement_cases input with ⟨e, he⟩ | ⟨found, value, rest, -, -, hok⟩
  · rw [expect, StateT.run_bind, he]
    exact fun h => by cases h
  · rw [expect, run_bind_ok _ hok]
    by_cases hfound : found = tag
    · rw [if_neg (not_not.mpr hfound)]
      exact fun h => by cases h
    · rw [if_pos hfound]
      exact fun h => by cases h

theorem readU32_integerValue (v : UInt32) : readU32 (integerValue v) = .ok v := by
  have hbytes : ∃ bytes, integerValue v = bytes ∧ bytes.length ≤ 5 ∧ ofBe bytes = v.toNat := by
    unfold integerValue
    by_cases hzero : v = 0
    · rw [if_pos hzero, hzero]
      exact ⟨_, rfl, by decide, rfl⟩
    have hpos : 0 < v.toNat := Nat.pos_of_ne_zero fun h => hzero (UInt32.toNat_inj.mp h)
    obtain ⟨b, bs, hsig, -, hlen, hvalue⟩ := significant_beBytes (w := 4) hpos v.toNat_lt
    rw [if_neg hzero, hsig]
    simp only
    split_ifs with hsign
    · refine ⟨_, rfl, Nat.succ_le_succ hlen, ?_⟩
      rw [Lib.ofBe_cons, UInt8.toNat_zero, Nat.zero_mul, Nat.zero_add, hvalue]
    · exact ⟨_, rfl, Nat.le_succ_of_le hlen, hvalue⟩
  obtain ⟨bytes, hbytes, hlen, hvalue⟩ := hbytes
  have hv := v.toNat_lt
  rw [hbytes, readU32, if_neg (by omega)]
  have hshift : shiftIn 64 bytes = ofBe bytes := shiftIn_eq (by omega)
  simp only [hshift, hvalue]
  rw [if_neg (by omega), UInt32.ofNat_toNat]

theorem readU32_ne_panic (value : List UInt8) : readU32 value ≠ .error .panic := by
  unfold readU32
  simp only
  split_ifs <;> simp

end Rdpio.Nla.Der
