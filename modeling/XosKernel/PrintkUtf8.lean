import XosKernel.Utf8
import XosKernel.VsnprintfBuffer
import Mathlib.Tactic.Ring

/-! `utf8_to_utf32`, with which `efi_puts` reads its string. The test for a surrogate looks at sixteen bits of the
character only, so it also takes characters of the other planes for surrogates. All others are read as UTF-8 says. -/

namespace XosKernel.Vsnprintf

open Utf8

/-! ### The function -/

/-- A pass of `for (clen = 0; cx & 0x80; ++clen) cx <<= 1`. -/
def lengthPass (s : Nat × U8) : Loop.Pass (Nat × U8) (Nat × U8) :=
  if s.2 &&& 0x80 = 0 then .done s else .next (s.1 + 1, s.2 <<< 1)

/-- `clen` and `cx` after this loop. -/
def lengthBits (c0 : U8) : Option (Nat × U8) := Loop.run lengthPass 9 (0, c0)

/-- The loop over `clen` trailing octets: `c32`, or nothing when the function returns from the loop. There is no result
when it reads behind the block. -/
def trailingBits : Nat → U32 → List U8 → Option (Option U32)
  | 0, c32, _ => some (some c32)
  | _ + 1, _, [] => none
  | clen + 1, c32, c :: s8 =>
      let cx := c ^^^ 0x80
      if cx &&& 0xc0 ≠ 0 then some none else trailingBits clen (c32 <<< 6 ||| cx.setWidth 32) s8

/-- `(c32 >= 0x80) + (c32 >= 0x800) + (c32 >= 0x10000)`. -/
def octetsNeeded (c32 : U32) : Nat :=
  (if c32 ≥ 0x80 then 1 else 0) + (if c32 ≥ 0x800 then 1 else 0) + if c32 ≥ 0x10000 then 1 else 0

/-- `utf8_to_utf32` on the block at `*s8`, with the bytes at `*s8` afterwards. There is no result when it reads behind
the block. -/
def utf8ToUtf32 : List U8 → Option (U32 × List U8)
  | [] => none
  | c0 :: s8 =>
      match lengthBits c0 with
      | none => none
      | some (clen, cx) =>
          if clen < 2 ∨ clen > 4 then some (c0.setWidth 32, s8)
          else
            match trailingBits (clen - 1) (cx.setWidth 32 >>> clen) s8 with
            | none => none
            | some none => some (c0.setWidth 32, s8)
            | some (some c32) =>
                if c32 > 0x10ffff ∨ c32 &&& 0xf800 = 0xd800 ∨ clen - 1 ≠ octetsNeeded c32 then
                  some (c0.setWidth 32, s8)
                else some (c32, s8.drop (clen - 1))

/-! ### The first octet -/

/-- The number of ones in front of the first zero. -/
def ones (c0 : U8) : Nat :=
  if c0.toNat < 0x80 then 0 else if c0.toNat < 0xc0 then 1 else if c0.toNat < 0xe0 then 2
  else if c0.toNat < 0xf0 then 3 else if c0.toNat < 0xf8 then 4 else if c0.toNat < 0xfc then 5
  else if c0.toNat < 0xfe then 6 else if c0.toNat < 0xff then 7 else 8

theorem lengthBits_eq : ∀ c0 : U8, lengthBits c0 = some (ones c0, c0 <<< ones c0) := by decide +kernel

/-- The bits below the marker. -/
theorem toNat_firstBits : ∀ n ≤ 3, 1 ≤ n → ∀ c0 : U8, ones c0 = n + 1 →
    ((c0 <<< (n + 1)).setWidth 32 >>> (n + 1) : U32).toNat + marker n = c0.toNat ∧
      ((c0 <<< (n + 1)).setWidth 32 >>> (n + 1) : U32).toNat < 2 ^ (6 - n) := by decide +kernel

theorem ones_marker : ∀ n ≤ 3, 1 ≤ n → ∀ b < 2 ^ (6 - n), ones (BitVec.ofNat 8 (marker n + b)) = n + 1 := by
  intro n hn hpos b hb
  have hoctet (k : Nat) (hk : k < 256) : (BitVec.ofNat 8 k).toNat = k := Nat.mod_eq_of_lt hk
  obtain rfl | rfl | rfl : n = 1 ∨ n = 2 ∨ n = 3 := by omega
  · have hbits : b < 32 := hb
    have htoNat : (BitVec.ofNat 8 (marker 1 + b)).toNat = 0xc0 + b := hoctet (0xc0 + b) (by omega)
    rw [ones, htoNat, if_neg (by omega), if_neg (by omega), if_pos (by omega)]
  · have hbits : b < 16 := hb
    have htoNat : (BitVec.ofNat 8 (marker 2 + b)).toNat = 0xe0 + b := hoctet (0xe0 + b) (by omega)
    rw [ones, htoNat, if_neg (by omega), if_neg (by omega), if_neg (by omega), if_pos (by omega)]
  · have hbits : b < 8 := hb
    have htoNat : (BitVec.ofNat 8 (marker 3 + b)).toNat = 0xf0 + b := hoctet (0xf0 + b) (by omega)
    rw [ones, htoNat, if_neg (by omega), if_neg (by omega), if_neg (by omega), if_neg (by omega), if_pos (by omega)]

/-! ### The trailing octets -/

theorem trailing_octet : ∀ c : U8, (c ^^^ 0x80) &&& 0xc0 = 0 →
    (c ^^^ 0x80).toNat < 64 ∧ c = BitVec.ofNat 8 (0x80 + (c ^^^ 0x80).toNat) := by decide +kernel

theorem trailing_ofNat : ∀ b < 64, (BitVec.ofNat 8 (0x80 + b) ^^^ 0x80) &&& 0xc0 = (0 : U8) ∧
    (BitVec.ofNat 8 (0x80 + b) ^^^ 0x80 : U8).toNat = b := by
  intro b hb
  have hlow : (BitVec.ofNat 8 b).toNat = b := Nat.mod_eq_of_lt (by omega)
  have hxor : (BitVec.ofNat 8 b ^^^ 0x80) ^^^ 0x80 = BitVec.ofNat 8 b := by
    rw [BitVec.xor_assoc, BitVec.xor_self, BitVec.xor_zero]
  have hmask : BitVec.ofNat 8 b &&& 0xc0 = 0 := by
    have htoNat : (BitVec.ofNat 8 b &&& 0xc0).toNat = b / 0x40 * 0x40 := by
      rw [show (0xc0 : U8) = ~~~(0x40 - 1) from rfl, Word.toNat_and_not_sub_one ⟨6, rfl⟩, hlow]
      rfl
    rw [← BitVec.toNat_inj, htoNat, Nat.div_eq_of_lt hb]
    rfl
  obtain ⟨-, hc⟩ := trailing_octet (BitVec.ofNat 8 b ^^^ 0x80) (by rw [hxor, hmask])
  rw [hxor, hlow] at hc
  rw [← hc, hxor]
  exact ⟨hmask, hlow⟩

/-- `(c32 << 6) | cx`. -/
theorem toNat_shift_or {c32 : U32} {cx : U8} (hc32 : c32.toNat < 2 ^ 26) (hcx : cx.toNat < 64) :
    (c32 <<< 6 ||| cx.setWidth 32).toNat = c32.toNat * 64 + cx.toNat := by
  have hshift : c32.toNat <<< 6 = c32.toNat * 64 := Nat.shiftLeft_eq _ _
  rw [BitVec.toNat_or, BitVec.toNat_shiftLeft, BitVec.toNat_setWidth, hshift, Nat.mod_eq_of_lt (by omega),
    Nat.mod_eq_of_lt (by omega), ← hshift]
  exact (Nat.shiftLeft_add_eq_or_of_lt (b := cx.toNat) (i := 6) hcx c32.toNat).symm

theorem trailingBits_next {n : Nat} {c32 : U32} {c : U8} (s8 : List U8) (h : (c ^^^ 0x80) &&& 0xc0 = 0) :
    trailingBits (n + 1) c32 (c :: s8) = trailingBits n (c32 <<< 6 ||| (c ^^^ 0x80).setWidth 32) s8 :=
  if_neg (not_not.mpr h)

theorem trailingBits_other {n : Nat} {c32 : U32} {c : U8} (s8 : List U8) (h : ¬ (c ^^^ 0x80) &&& 0xc0 = 0) :
    trailingBits (n + 1) c32 (c :: s8) = some none := if_pos h

/-- The room for six more bits for each of `n` octets. -/
def Fits (n : Nat) (c32 : U32) : Prop := (c32.toNat + 1) * 64 ^ n ≤ 2 ^ 32

theorem Fits.lt {n : Nat} {c32 : U32} (h : Fits (n + 1) c32) : c32.toNat < 2 ^ 26 := by
  have hpos : 64 ^ 1 ≤ 64 ^ (n + 1) := Nat.pow_le_pow_right (by omega) (by omega)
  have hle := (Nat.mul_le_mul_left (c32.toNat + 1) hpos).trans h
  omega

theorem Fits.step {n : Nat} {c32 : U32} {cx : U8} (h : Fits (n + 1) c32) (hcx : cx.toNat < 64) :
    Fits n (c32 <<< 6 ||| cx.setWidth 32) := by
  rw [Fits, toNat_shift_or h.lt hcx]
  calc (c32.toNat * 64 + cx.toNat + 1) * 64 ^ n
      ≤ ((c32.toNat + 1) * 64) * 64 ^ n := Nat.mul_le_mul_right _ (by omega)
    _ = (c32.toNat + 1) * 64 ^ (n + 1) := by rw [Nat.mul_assoc, Nat.pow_succ, Nat.mul_comm 64]
    _ ≤ 2 ^ 32 := h

/-- The loop reads the octets of a character. -/
theorem trailingBits_tails (n : Nat) {c32 : U32} (hfits : Fits n c32) (w : Nat) (rest : List U8) :
    ∃ v, trailingBits n c32 (tails n w ++ rest) = some (some v) ∧ v.toNat = c32.toNat * 64 ^ n + w % 64 ^ n := by
  induction n generalizing c32 with
  | zero => exact ⟨c32, rfl, by simp [Nat.mod_one]⟩
  | succ n ih =>
      obtain ⟨hmask, hvalue⟩ := trailing_ofNat (w / 64 ^ n % 64) (Nat.mod_lt _ (by decide))
      have hlt : (BitVec.ofNat 8 (0x80 + w / 64 ^ n % 64) ^^^ 0x80 : U8).toNat < 64 := by
        rw [hvalue]
        exact Nat.mod_lt _ (by decide)
      obtain ⟨v, hv, htoNat⟩ := ih (hfits.step hlt)
      refine ⟨v, ?_, ?_⟩
      · rw [tails, List.cons_append, trailingBits_next _ hmask]
        exact hv
      · rw [htoNat, toNat_shift_or hfits.lt hlt, hvalue, Nat.pow_succ, Nat.mod_mul, Nat.add_mul]
        ring

/-- What the loop accepts are octets of a character. -/
theorem trailingBits_sound (n : Nat) {c32 v : U32} (hfits : Fits n c32) {s8 : List U8}
    (h : trailingBits n c32 s8 = some (some v)) :
    ∃ w < 64 ^ n, v.toNat = c32.toNat * 64 ^ n + w ∧ s8 = tails n w ++ s8.drop n := by
  induction n generalizing c32 s8 with
  | zero =>
      obtain rfl : c32 = v := by simpa [trailingBits] using h
      exact ⟨0, by simp, by simp, by simp [tails]⟩
  | succ n ih =>
      cases s8 with
      | nil => simp [trailingBits] at h
      | cons c s8 =>
          by_cases hmask : (c ^^^ 0x80) &&& 0xc0 = 0
          · obtain ⟨hlt, hc⟩ := trailing_octet c hmask
            rw [trailingBits_next _ hmask] at h
            obtain ⟨w, hw, hv, hs8⟩ := ih (hfits.step hlt) h
            have hdiv : ((c ^^^ 0x80).toNat * 64 ^ n + w) / 64 ^ n % 64 = (c ^^^ 0x80).toNat := by
              rw [Nat.mul_comm, Nat.mul_add_div (Nat.pow_pos (by decide)), Nat.div_eq_of_lt hw, Nat.add_zero,
                Nat.mod_eq_of_lt hlt]
            have hlow : tails n ((c ^^^ 0x80).toNat * 64 ^ n + w) = tails n w :=
              tails_congr (by rw [Nat.mul_comm, Nat.mul_add_mod])
            refine ⟨(c ^^^ 0x80).toNat * 64 ^ n + w, ?_, ?_, ?_⟩
            · calc (c ^^^ 0x80).toNat * 64 ^ n + w
                  < (c ^^^ 0x80).toNat * 64 ^ n + 64 ^ n := Nat.add_lt_add_left hw _
                _ = ((c ^^^ 0x80).toNat + 1) * 64 ^ n := by rw [Nat.add_mul, Nat.one_mul]
                _ ≤ 64 * 64 ^ n := Nat.mul_le_mul_right _ hlt
                _ = 64 ^ (n + 1) := by rw [Nat.pow_succ, Nat.mul_comm]
            · rw [hv, toNat_shift_or hfits.lt hlt, Nat.pow_succ]
              ring
            · rw [tails, hdiv, hlow, ← hc, List.drop_succ_cons, List.cons_append, ← hs8]
          · rw [trailingBits_other _ hmask] at h
            cases h

/-- The loop stops at a NUL. -/
theorem trailingBits_nul (n : Nat) (c32 : U32) (s8 : List U8) :
    ∃ r, ∀ rest, trailingBits n c32 (s8 ++ 0 :: rest) = some r := by
  induction n generalizing c32 s8 with
  | zero => exact ⟨some c32, fun _ => rfl⟩
  | succ n ih =>
      cases s8 with
      | nil => exact ⟨none, fun _ => rfl⟩
      | cons c s8 =>
          by_cases hmask : (c ^^^ 0x80) &&& 0xc0 = 0
          · obtain ⟨r, hr⟩ := ih (c32 <<< 6 ||| (c ^^^ 0x80).setWidth 32) s8
            refine ⟨r, fun rest => ?_⟩
            rw [List.cons_append, trailingBits_next _ hmask]
            exact hr rest
          · exact ⟨none, fun rest => trailingBits_other _ hmask⟩

/-! ### The test of a character -/

/-- What the last `if` does not take for a character. -/
def Rejected (c32 : U32) (clen : Nat) : Prop :=
  c32 > 0x10ffff ∨ c32 &&& 0xf800 = 0xd800 ∨ clen ≠ octetsNeeded c32

/-- A character of another plane, with a surrogate in its lower sixteen bits. -/
def LooksSurrogate (c : Nat) : Prop := 0x10000 ≤ c ∧ c ≤ 0x10ffff ∧ 0xd800 ≤ c % 0x10000 ∧ c % 0x10000 < 0xe000

theorem octetsNeeded_eq (c32 : U32) : octetsNeeded c32 = extra c32.toNat := by
  simp only [octetsNeeded, extra, ge_iff_le, BitVec.le_def, show (0x80 : U32).toNat = 0x80 from rfl,
    show (0x800 : U32).toNat = 0x800 from rfl, show (0x10000 : U32).toNat = 0x10000 from rfl]

/-- The mask leaves sixteen bits of the character, without the low eleven. -/
theorem and_f800_iff (c32 : U32) :
    c32 &&& 0xf800 = 0xd800 ↔ 0xd800 ≤ c32.toNat % 0x10000 ∧ c32.toNat % 0x10000 < 0xe000 := by
  have hmask : c32 &&& 0xf800 = (c32 &&& (0x10000 - 1)) &&& ~~~(0x800 - 1) := by
    rw [BitVec.and_assoc]
    rfl
  have htoNat : (c32 &&& 0xf800).toNat = c32.toNat % 0x10000 / 0x800 * 0x800 := by
    rw [hmask, Word.toNat_and_not_sub_one (a := (0x800 : U32)) ⟨11, rfl⟩,
      Word.toNat_and_sub_one (a := (0x10000 : U32)) ⟨16, rfl⟩]
    rfl
  rw [← BitVec.toNat_inj, htoNat, show (0xd800 : U32).toNat = 0xd800 from rfl]
  omega

/-- The last test takes the characters of the right number of octets that do not look like surrogates. -/
theorem not_rejected_iff (c32 : U32) (clen : Nat) :
    ¬ Rejected c32 clen ↔ IsScalar c32.toNat ∧ ¬ LooksSurrogate c32.toNat ∧ clen = extra c32.toNat := by
  have hmax : c32 > 0x10ffff ↔ ¬ c32.toNat ≤ 0x10ffff := by
    rw [gt_iff_lt, BitVec.lt_def]
    exact Nat.not_le.symm
  rw [Rejected, hmax, and_f800_iff, octetsNeeded_eq, IsScalar, LooksSurrogate]
  omega

/-! ### The function on a block -/

section

variable {c0 : U8} {s8 : List U8} {n : Nat} {c32 : U32}

/-- The bits of the first of `n + 1` octets. -/
def firstBits (n : Nat) (c0 : U8) : U32 := (c0 <<< (n + 1)).setWidth 32 >>> (n + 1)

theorem fits_firstBits (hn : n ≤ 3) (hpos : 1 ≤ n) (hones : ones c0 = n + 1) : Fits n (firstBits n c0) := by
  have hlt := (toNat_firstBits n hn hpos c0 hones).2
  have hroom : ∀ k ≤ 3, 2 ^ (6 - k) * 64 ^ k ≤ 2 ^ 32 := by decide
  exact (Nat.mul_le_mul_right _ hlt).trans (hroom n hn)

theorem utf8ToUtf32_single (h : ones c0 < 2 ∨ ones c0 > 4) (s8 : List U8) :
    utf8ToUtf32 (c0 :: s8) = some (c0.setWidth 32, s8) := by
  simp only [utf8ToUtf32, lengthBits_eq, if_pos h]

variable (hn : n ≤ 3) (hpos : 1 ≤ n) (hones : ones c0 = n + 1)

include hn hpos hones in
theorem utf8ToUtf32_malformed (h : trailingBits n (firstBits n c0) s8 = some none) :
    utf8ToUtf32 (c0 :: s8) = some (c0.setWidth 32, s8) := by
  have hclen : ¬ (n + 1 < 2 ∨ n + 1 > 4) := by omega
  simp only [utf8ToUtf32, lengthBits_eq, hones, if_neg hclen]
  rw [show n + 1 - 1 = n from rfl, ← firstBits, h]

include hn hpos hones in
theorem utf8ToUtf32_rejected (h : trailingBits n (firstBits n c0) s8 = some (some c32)) (hrejected : Rejected c32 n) :
    utf8ToUtf32 (c0 :: s8) = some (c0.setWidth 32, s8) := by
  have hclen : ¬ (n + 1 < 2 ∨ n + 1 > 4) := by omega
  simp only [utf8ToUtf32, lengthBits_eq, hones, if_neg hclen]
  rw [show n + 1 - 1 = n from rfl, ← firstBits, h]
  exact if_pos hrejected

include hn hpos hones in
theorem utf8ToUtf32_char (h : trailingBits n (firstBits n c0) s8 = some (some c32)) (haccepted : ¬ Rejected c32 n) :
    utf8ToUtf32 (c0 :: s8) = some (c32, s8.drop n) := by
  have hclen : ¬ (n + 1 < 2 ∨ n + 1 > 4) := by omega
  simp only [utf8ToUtf32, lengthBits_eq, hones, if_neg hclen]
  rw [show n + 1 - 1 = n from rfl, ← firstBits, h]
  exact if_neg haccepted

end

/-- A scalar value of several octets is what the loops read. -/
theorem trailingBits_encode {c : Nat} (hc : c ≤ 0x10ffff) (hpos : 1 ≤ extra c) (rest : List U8) :
    ones (BitVec.ofNat 8 (marker (extra c) + c / 64 ^ extra c)) = extra c + 1 ∧
      trailingBits (extra c) (firstBits (extra c) (BitVec.ofNat 8 (marker (extra c) + c / 64 ^ extra c)))
        (tails (extra c) c ++ rest) = some (some (BitVec.ofNat 32 c)) := by
  obtain ⟨hle, hfirst⟩ := first_lt hc hpos
  have hones := ones_marker (extra c) hle hpos _ hfirst
  refine ⟨hones, ?_⟩
  obtain ⟨v, hv, htoNat⟩ := trailingBits_tails (extra c) (fits_firstBits hle hpos hones) c rest
  have hmarker : ∀ k ≤ 3, 1 ≤ k → marker k + 2 ^ (6 - k) ≤ 256 := by decide
  have hbits := (toNat_firstBits (extra c) hle hpos _ hones).1
  have hroom := hmarker (extra c) hle hpos
  rw [BitVec.toNat_ofNat, Nat.mod_eq_of_lt (by omega)] at hbits
  have hbits' : (firstBits (extra c) (BitVec.ofNat 8 (marker (extra c) + c / 64 ^ extra c))).toNat =
      c / 64 ^ extra c := by
    unfold firstBits
    omega
  rw [hv]
  refine congrArg (some ∘ some) (BitVec.eq_of_toNat_eq ?_)
  rw [htoNat, hbits', Nat.div_add_mod', BitVec.toNat_ofNat, Nat.mod_eq_of_lt (by omega)]

/-- A character that does not look like a surrogate is decoded. -/
theorem utf8ToUtf32_encode {c : Nat} (hc : IsScalar c) (hlooks : ¬ LooksSurrogate c) (rest : List U8) :
    utf8ToUtf32 (encode c ++ rest) = some (BitVec.ofNat 32 c, rest) := by
  have hmod : (BitVec.ofNat 32 c).toNat = c := by
    have hmax := hc.1
    rw [BitVec.toNat_ofNat, Nat.mod_eq_of_lt (by omega)]
  rcases Nat.eq_zero_or_pos (extra c) with hzero | hpos
  · have hlt : c < 0x80 := by
      rcases extra_cases hc.1 with ⟨-, h⟩ | ⟨h, -⟩ | ⟨h, -⟩ | ⟨h, -⟩ <;> omega
    have htoNat : (BitVec.ofNat 8 c).toNat = c := by rw [BitVec.toNat_ofNat, Nat.mod_eq_of_lt (by omega)]
    have hones : ones (BitVec.ofNat 8 c) = 0 := by rw [ones, htoNat, if_pos hlt]
    rw [encode_single hlt, List.singleton_append, utf8ToUtf32_single (Or.inl (by omega)), Option.some.injEq,
      Prod.mk.injEq]
    refine ⟨BitVec.eq_of_toNat_eq ?_, rfl⟩
    rw [hmod, BitVec.toNat_setWidth, htoNat, Nat.mod_eq_of_lt (by omega)]
  · obtain ⟨hones, htrailing⟩ := trailingBits_encode hc.1 hpos rest
    have haccepted : ¬ Rejected (BitVec.ofNat 32 c) (extra c) := by
      rw [not_rejected_iff, hmod]
      exact ⟨hc, hlooks, rfl⟩
    rw [encode, List.cons_append, utf8ToUtf32_char (first_lt hc.1 hpos).1 hpos hones htrailing haccepted]
    simp

/-- One that does is not. -/
theorem utf8ToUtf32_looksSurrogate {c : Nat} (hlooks : LooksSurrogate c) (rest : List U8) :
    ∃ c0 s8, encode c ++ rest = c0 :: s8 ∧ utf8ToUtf32 (encode c ++ rest) = some (c0.setWidth 32, s8) := by
  have hmax := hlooks.2.1
  have hlow := hlooks.1
  have hpos : 1 ≤ extra c := by
    rcases extra_cases hmax with ⟨-, h⟩ | ⟨h, -⟩ | ⟨h, -⟩ | ⟨h, -⟩ <;> omega
  obtain ⟨hones, htrailing⟩ := trailingBits_encode hmax hpos rest
  refine ⟨_, _, rfl, utf8ToUtf32_rejected (first_lt hmax hpos).1 hpos hones htrailing ?_⟩
  by_contra haccepted
  rw [not_rejected_iff, BitVec.toNat_ofNat, Nat.mod_eq_of_lt (by omega)] at haccepted
  exact haccepted.2.1 hlooks

/-- What is decoded otherwise than as the first octet is a scalar value. -/
theorem utf8ToUtf32_sound {c0 : U8} {s8 : List U8} {r : U32 × List U8} (h : utf8ToUtf32 (c0 :: s8) = some r) :
    r = (c0.setWidth 32, s8) ∨ ∃ c, IsScalar c ∧ encode c <+: c0 :: s8 := by
  by_cases hsingle : ones c0 < 2 ∨ ones c0 > 4
  · rw [utf8ToUtf32_single hsingle, Option.some.injEq] at h
    exact Or.inl h.symm
  obtain ⟨n, hones⟩ : ∃ n, ones c0 = n + 1 := ⟨ones c0 - 1, by omega⟩
  have hn : n ≤ 3 := by omega
  have hpos : 1 ≤ n := by omega
  cases htrailing : trailingBits n (firstBits n c0) s8 with
  | none =>
      have hclen : ¬ (n + 1 < 2 ∨ n + 1 > 4) := by omega
      simp only [utf8ToUtf32, lengthBits_eq, hones, if_neg hclen] at h
      rw [show n + 1 - 1 = n from rfl, ← firstBits, htrailing] at h
      cases h
  | some o =>
      cases o with
      | none =>
          rw [utf8ToUtf32_malformed hn hpos hones htrailing, Option.some.injEq] at h
          exact Or.inl h.symm
      | some v =>
          by_cases hrejected : Rejected v n
          · rw [utf8ToUtf32_rejected hn hpos hones htrailing hrejected, Option.some.injEq] at h
            exact Or.inl h.symm
          · obtain ⟨hscalar, -, hlength⟩ := (not_rejected_iff v n).mp hrejected
            obtain ⟨w, hw, hv, hs8⟩ := trailingBits_sound n (fits_firstBits hn hpos hones) htrailing
            have hbits := (toNat_firstBits n hn hpos c0 hones).1
            rw [← firstBits] at hbits
            have hdiv : v.toNat / 64 ^ n = (firstBits n c0).toNat := by
              rw [hv, Nat.mul_comm, Nat.mul_add_div (Nat.pow_pos (by decide)), Nat.div_eq_of_lt hw, Nat.add_zero]
            have hlow : tails n v.toNat = tails n w := tails_congr (by rw [hv, Nat.mul_comm, Nat.mul_add_mod])
            refine Or.inr ⟨v.toNat, hscalar, s8.drop n, ?_⟩
            rw [encode, ← hlength, hdiv, hlow, Nat.add_comm, hbits, BitVec.ofNat_toNat, BitVec.setWidth_eq,
              List.cons_append, ← hs8]

/-- No byte behind the first NUL behind the first octet is read: the bytes there do not matter, and there may be none. -/
theorem utf8ToUtf32_nul (c0 : U8) (s8 : List U8) :
    ∃ c32 n, ∀ rest, utf8ToUtf32 (c0 :: (s8 ++ 0 :: rest)) = some (c32, (s8 ++ 0 :: rest).drop n) := by
  by_cases hsingle : ones c0 < 2 ∨ ones c0 > 4
  · exact ⟨c0.setWidth 32, 0, fun rest => utf8ToUtf32_single hsingle _⟩
  obtain ⟨n, hones⟩ : ∃ n, ones c0 = n + 1 := ⟨ones c0 - 1, by omega⟩
  have hn : n ≤ 3 := by omega
  have hpos : 1 ≤ n := by omega
  obtain ⟨o, ho⟩ := trailingBits_nul n (firstBits n c0) s8
  cases o with
  | none => exact ⟨c0.setWidth 32, 0, fun rest => utf8ToUtf32_malformed hn hpos hones (ho rest)⟩
  | some v =>
      by_cases hrejected : Rejected v n
      · exact ⟨c0.setWidth 32, 0, fun rest => utf8ToUtf32_rejected hn hpos hones (ho rest) hrejected⟩
      · exact ⟨v, n, fun rest => utf8ToUtf32_char hn hpos hones (ho rest) hrejected⟩

/-! ### The octets that `vsnprintf` writes -/

/-- What the wide output of `vsnprintf` puts for a character. -/
def putChar (c32 : U32) : Put := if c32 < 0x80 then .octet (c32.setWidth 8) else .wide c32

theorem widePass_putChar {ws ws' : List U16} {len : U64} {c32 : U32} (puts : List Put) (hne : len ≠ 0)
    (hchar : utf16ToUtf32 ws = (c32, ws')) :
    ∃ len', widePass (ws, len, puts) = .next (ws', len', puts ++ [putChar c32]) := by
  simp only [widePass, if_neg hne, hchar, putChar]
  split_ifs
  · exact ⟨_, rfl⟩
  · exact ⟨_, rfl⟩

/-- Bits below others are added to them. -/
theorem ofNat_or_low (k i : Nat) {b : Nat} (hb : b < 2 ^ i) :
    BitVec.ofNat 8 (k <<< i) ||| BitVec.ofNat 8 b = BitVec.ofNat 8 (k <<< i + b) := by
  rw [Nat.shiftLeft_add_eq_or_of_lt hb, BitVec.ofNat_or]

theorem trailing_or : ∀ b < 64, (0x80 : U8) ||| BitVec.ofNat 8 b = BitVec.ofNat 8 (0x80 + b) :=
  fun _ hb => ofNat_or_low 2 6 hb

theorem leading_or : ∀ n ≤ 3, 1 ≤ n → ∀ b < 2 ^ (6 - n),
    leading n ||| BitVec.ofNat 8 b = BitVec.ofNat 8 (marker n + b) := by
  intro n hn hpos b hb
  obtain rfl | rfl | rfl : n = 1 ∨ n = 2 ∨ n = 3 := by omega
  · exact ofNat_or_low 6 5 hb
  · exact ofNat_or_low 14 4 hb
  · exact ofNat_or_low 30 3 hb

theorem trailingOctets_eq (n : Nat) (c32 : U32) : trailingOctets n c32 = tails n c32.toNat := by
  induction n generalizing c32 with
  | zero => rfl
  | succ n ih =>
      have hshift : (c32 >>> 6).toNat = c32.toNat / 64 := by
        rw [BitVec.toNat_ushiftRight, Nat.shiftRight_eq_div_pow]
      have hlow : (c32 &&& 0x3f).setWidth 8 = BitVec.ofNat 8 (c32.toNat % 64) := by
        have hmask : (c32 &&& 0x3f).toNat = c32.toNat % 64 := Word.toNat_and_sub_one (a := (0x40 : U32)) ⟨6, rfl⟩ c32
        rw [← hmask]
        rfl
      rw [trailingOctets, ih, hshift, hlow, trailing_or _ (Nat.mod_lt _ (by decide)), tails_succ]

/-- `vsnprintf` writes characters in UTF-8. -/
theorem octets_putChar {c32 : U32} (hc : c32.toNat ≤ 0x10ffff) : (putChar c32).octets = encode c32.toNat := by
  by_cases hlt : c32 < 0x80
  · rw [putChar, if_pos hlt, encode_single (BitVec.lt_def.mp hlt)]
    rfl
  · have hge : ¬ c32.toNat < 0x80 := fun h => hlt (BitVec.lt_def.mpr h)
    have hpos : 1 ≤ extra c32.toNat := by
      rcases extra_cases hc with ⟨-, h⟩ | ⟨h, -⟩ | ⟨h, -⟩ | ⟨h, -⟩ <;> omega
    obtain ⟨hle, hfirst⟩ := first_lt hc hpos
    have htrailing : trailing c32 = extra c32.toNat := by
      rw [← octetsNeeded_eq, trailing, octetsNeeded, if_pos (BitVec.not_lt.mp hlt)]
    have hbits : (c32 >>> (6 * extra c32.toNat)).setWidth 8 = BitVec.ofNat 8 (c32.toNat / 64 ^ extra c32.toNat) := by
      have hshift : (c32 >>> (6 * extra c32.toNat)).toNat = c32.toNat / 64 ^ extra c32.toNat := by
        rw [BitVec.toNat_ushiftRight, Nat.shiftRight_eq_div_pow, Nat.pow_mul]
      rw [← hshift]
      rfl
    rw [putChar, if_neg hlt, encode]
    simp only [Put.octets, htrailing, trailingOctets_eq, hbits, leading_or _ hle hpos _ hfirst]

/-! ### Every string -/

/-- The bytes at `*s8`: an octet, the string behind it and its NUL, and the bytes behind the NUL. -/
def blockAt (c0 : U8) (s : CString) (behind : List U8) : List U8 := c0 :: (s.bytes ++ 0 :: behind)

/-- What `utf8_to_utf32` is for. -/
structure ReadsUtf8 (c0 : U8) (s : CString) (behind : List U8) : Prop where
  decodes : ∀ c, IsScalar c → encode c <+: blockAt c0 s behind →
    utf8ToUtf32 (blockAt c0 s behind) = some (BitVec.ofNat 32 c, (blockAt c0 s behind).drop (encode c).length)
  inverts : ∀ c32 : U32, IsScalar c32.toNat → (putChar c32).octets <+: blockAt c0 s behind →
    utf8ToUtf32 (blockAt c0 s behind) = some (c32, (blockAt c0 s behind).drop (putChar c32).octets.length)
  other : (∀ c, IsScalar c → ¬ encode c <+: blockAt c0 s behind) →
    utf8ToUtf32 (blockAt c0 s behind) = some (c0.setWidth 32, (blockAt c0 s behind).drop 1)
  bounded : ∃ c32 n, ∀ bytes,
    utf8ToUtf32 (blockAt c0 s bytes) = some (c32, (s.bytes ++ 0 :: bytes).drop n)

/-- **UTF-8**: `utf8_to_utf32` reads a string as UTF-8 says, unless it starts with a character of another plane that looks
like a surrogate. -/
theorem utf8ToUtf32_reads_iff (c0 : U8) (s : CString) (behind : List U8) :
    ReadsUtf8 c0 s behind ↔ ¬ ∃ c, LooksSurrogate c ∧ encode c <+: blockAt c0 s behind := by
  constructor
  · rintro hreads ⟨c, hlooks, hbegins⟩
    have hscalar : IsScalar c := ⟨hlooks.2.1, fun h => by have := hlooks.1; omega⟩
    have hdecodes := hreads.decodes c hscalar hbegins
    obtain ⟨tail, htail⟩ := hbegins
    obtain ⟨c1, s8, -, hfirst⟩ := utf8ToUtf32_looksSurrogate hlooks tail
    rw [htail, hdecodes, Option.some.injEq, Prod.mk.injEq, ← BitVec.toNat_inj, BitVec.toNat_ofNat,
      BitVec.toNat_setWidth] at hfirst
    have hvalue := hfirst.1
    have hoctet := c1.isLt
    have hlow := hlooks.1
    have hmax := hlooks.2.1
    omega
  · intro hnone
    have hdecodes (c : Nat) (hscalar : IsScalar c) (hbegins : encode c <+: blockAt c0 s behind) :
        utf8ToUtf32 (blockAt c0 s behind) =
          some (BitVec.ofNat 32 c, (blockAt c0 s behind).drop (encode c).length) := by
      have hlooks : ¬ LooksSurrogate c := fun h => hnone ⟨c, h, hbegins⟩
      obtain ⟨tail, htail⟩ := hbegins
      rw [← htail, utf8ToUtf32_encode hscalar hlooks, List.drop_left]
    refine ⟨hdecodes, fun c32 hscalar hbegins => ?_, fun hother => ?_, utf8ToUtf32_nul c0 s.bytes⟩
    · rw [octets_putChar hscalar.1] at hbegins ⊢
      rw [hdecodes c32.toNat hscalar hbegins, BitVec.ofNat_toNat, BitVec.setWidth_eq]
    · obtain ⟨c32, n, hresult⟩ := utf8ToUtf32_nul c0 s.bytes
      rcases utf8ToUtf32_sound (hresult behind) with hfirst | ⟨c, hscalar, hbegins⟩
      · exact (hresult behind).trans (congrArg some hfirst)
      · exact absurd hbegins (hother c hscalar)

theorem signWriting_noNul : ∀ b ∈ [0x9d, 0xa0, 0x80], b ≠ (0 : U8) := by decide

/-- U+1D800, a character of plane 1, is read as its first octet. -/
theorem utf8ToUtf32_signWriting :
    encode 0x1d800 = [0xf0, 0x9d, 0xa0, 0x80] ∧ ¬ ReadsUtf8 0xf0 ⟨[0x9d, 0xa0, 0x80], signWriting_noNul⟩ [] := by
  refine ⟨by decide, fun hreads => ?_⟩
  have hscalar : IsScalar 0x1d800 := ⟨by omega, by omega⟩
  have hdecodes := hreads.decodes 0x1d800 hscalar (by decide)
  revert hdecodes
  decide

end XosKernel.Vsnprintf
