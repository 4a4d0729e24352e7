import XosKernel.VsnprintfModel
import XosKernel.PrintfLayout
import XosKernel.WordAlign
import Mathlib.Data.List.TakeWhile

/-! The digits of a number. `number` has the digits of the standard's layout in each base. In base 10 it works on four
digits at a time, with products in place of divisions that are exact for the numbers that occur. -/

namespace XosKernel.Vsnprintf

/-! ### Bases 8 and 16 -/

theorem putDigits_eq {shift : Nat} (hshift : 0 < shift) {digit : U64 → U8} {f : Nat → U8}
    (hdigit : ∀ num, digit num = f (num.toNat % 2 ^ shift)) :
    ∀ (n : Nat) (num : U64) (s : List U8), num.toNat < (2 ^ shift) ^ n →
      putDigits shift digit n num s = ((Nat.digits (2 ^ shift) num.toNat).map f).reverse ++ s := by
  have hbase : 1 < 2 ^ shift := Nat.one_lt_two_pow hshift.ne'
  intro n
  induction n with
  | zero =>
      intro num s hnum
      have hzero : num.toNat = 0 := by simpa using hnum
      rw [putDigits, hzero, Nat.digits_zero]
      rfl
  | succ n ih =>
      intro num s hnum
      rw [putDigits]
      by_cases hzero : num = 0
      · rw [if_neg (not_not_intro hzero), hzero, show (0 : U64).toNat = 0 from rfl, Nat.digits_zero]
        rfl
      · have hpos : 0 < num.toNat := Nat.pos_of_ne_zero fun h => hzero (BitVec.eq_of_toNat_eq h)
        have hshifted : (num >>> shift).toNat = num.toNat / 2 ^ shift := by
          rw [BitVec.toNat_ushiftRight, Nat.shiftRight_eq_div_pow]
        have hless : (num >>> shift).toNat < (2 ^ shift) ^ n := by
          rw [hshifted]
          apply Nat.div_lt_of_lt_mul
          rwa [← Nat.pow_succ']
        rw [if_pos hzero, ih _ _ hless, hshifted, Nat.digits_def' hbase hpos, List.map_cons, List.reverse_cons,
          List.append_assoc, List.singleton_append, hdigit]

/-! ### Base 10 -/

/-- The octet of a decimal digit. -/
def digit8 (d : Nat) : U8 := BitVec.ofNat 8 (48 + d)

/-- `l` is the number `n` in `k` decimal digits. -/
def Decimal (k n : Nat) (l : List U8) : Prop :=
  ∃ ds : List Nat, ds.length = k ∧ (∀ d ∈ ds, d < 10) ∧ Nat.ofDigits 10 ds = n ∧ l = (ds.map digit8).reverse

theorem Decimal.nil : Decimal 0 0 [] := ⟨[], rfl, by simp, rfl, rfl⟩

theorem Decimal.append {k k' n n' : Nat} {l l' : List U8} (h : Decimal k n l) (h' : Decimal k' n' l') :
    Decimal (k + k') (n + 10 ^ k * n') (l' ++ l) := by
  obtain ⟨ds, hlength, hlt, hvalue, rfl⟩ := h
  obtain ⟨ds', hlength', hlt', hvalue', rfl⟩ := h'
  refine ⟨ds ++ ds', by rw [List.length_append, hlength, hlength'], fun d hd => ?_, ?_, ?_⟩
  · exact (List.mem_append.mp hd).elim (hlt d) (hlt' d)
  · rw [Nat.ofDigits_append, hlength, hvalue, hvalue']
  · rw [List.map_append, List.reverse_append]

theorem Decimal.digit {d : Nat} (hd : d < 10) : Decimal 1 d [digit8 d] :=
  ⟨[d], rfl, by simpa using hd, by simp, rfl⟩

/-- The zeros in front of a number are stripped off. -/
theorem Decimal.dropWhile {k n : Nat} {l : List U8} (h : Decimal k n l) :
    l.dropWhile (· = chr '0') = ((Nat.digits 10 n).map digit8).reverse := by
  obtain ⟨ds, hlength, hlt, rfl, rfl⟩ := h
  have hpadded : Nat.digitsAppend 10 k (Nat.ofDigits 10 ds) = ds :=
    (Nat.setInvOn_digitsAppend_ofDigits (by decide) k).1 ⟨hlength, hlt⟩
  generalize Nat.ofDigits 10 ds = n at hpadded
  have hfirst : ∀ c ∈ ((Nat.digits 10 n).map digit8).reverse.head?, ¬ decide (c = chr '0') = true := by
    intro c hc
    rw [List.head?_reverse, List.getLast?_map, Option.mem_map] at hc
    obtain ⟨d, hd, rfl⟩ := hc
    have hdigit : d < 10 := Nat.digits_lt_base (by decide) (List.mem_of_getLast? hd)
    have hne : d ≠ 0 := Printf.getLast?_digits_ne_zero hd
    rw [decide_eq_true_eq, ← BitVec.toNat_inj, digit8, BitVec.toNat_ofNat, show (chr '0').toNat = 48 from rfl]
    omega
  rw [← hpadded, Nat.digitsAppend, List.map_append, List.reverse_append, List.map_replicate, List.reverse_replicate]
  rw [List.dropWhile_append_of_pos]
  · rw [List.dropWhile_eq_self_iff]
    intro hpos
    exact hfirst _ (by rw [List.head?_eq_getElem?, List.getElem?_eq_getElem hpos]; rfl)
  · intro c hc
    rw [List.eq_of_mem_replicate hc]
    rfl

/-- A product in place of a division by 10. -/
theorem toNat_div10 {r : U32} (hr : r.toNat < 10000) : ((r * 0xccd) >>> 15).toNat = r.toNat / 10 := by
  rw [BitVec.toNat_ushiftRight, Nat.shiftRight_eq_div_pow, BitVec.toNat_mul, show (0xccd : U32).toNat = 0xccd from rfl,
    Nat.mod_eq_of_lt (by omega)]
  omega

/-- A product in place of a division by 10000. -/
theorem toNat_div10000 {x : U32} (hx : x.toNat ≤ 1125520955) :
    (((x.setWidth 64 * 0x346DC5D7 : U64) >>> 43).setWidth 32).toNat = x.toNat / 10000 := by
  rw [BitVec.toNat_setWidth, BitVec.toNat_ushiftRight, Nat.shiftRight_eq_div_pow, BitVec.toNat_mul, BitVec.toNat_setWidth,
    show (0x346DC5D7 : U64).toNat = 0x346DC5D7 from rfl, Nat.mod_eq_of_lt (show x.toNat < 2 ^ 64 by omega),
    Nat.mod_eq_of_lt (show x.toNat * 0x346DC5D7 < 2 ^ 64 by omega)]
  have hdiv : x.toNat * 0x346DC5D7 / 2 ^ 43 = x.toNat / 10000 := by omega
  rw [hdiv, Nat.mod_eq_of_lt (by omega)]

theorem add_setWidth_eq_digit8 (r : U32) : 48 + r.setWidth 8 = digit8 r.toNat := by
  apply BitVec.eq_of_toNat_eq
  rw [digit8, BitVec.toNat_add, BitVec.toNat_setWidth, BitVec.toNat_ofNat, show (48 : U8).toNat = 48 from rfl]
  omega

/-- The digits of `put_dec_full4`. -/
theorem putDecDigits_decimal {n : Nat} (hn : n ≤ 3) {r : U32} (hr : r.toNat < 10 ^ (n + 1)) (s : List U8) :
    ∃ l, putDecDigits n r s = l ++ s ∧ Decimal (n + 1) r.toNat l := by
  induction n generalizing r s with
  | zero =>
      refine ⟨[digit8 r.toNat], ?_, .digit (by simpa using hr)⟩
      rw [putDecDigits, add_setWidth_eq_digit8]
      rfl
  | succ n ih =>
      have hpow : 10 ^ (n + 1) ≤ 10 ^ 3 := Nat.pow_le_pow_right (by decide) hn
      rw [Nat.pow_succ] at hr
      have hq := toNat_div10 (r := r) (by omega)
      rw [putDecDigits]
      generalize (r * 0xccd) >>> 15 = q at hq ⊢
      have hlast : (r - q * 10).toNat = r.toNat % 10 := by
        rw [BitVec.toNat_sub, BitVec.toNat_mul, show (10 : U32).toNat = 10 from rfl, hq]
        omega
      obtain ⟨l, hl, hdecimal⟩ := ih (by omega) (r := q) (by omega) (digit8 (r.toNat % 10) :: s)
      refine ⟨l ++ [digit8 (r.toNat % 10)], ?_, ?_⟩
      · rw [add_setWidth_eq_digit8, hlast, hl, List.append_assoc, List.singleton_append]
      · have happend := (Decimal.digit (Nat.mod_lt r.toNat (show 0 < 10 by decide))).append hdecimal
        rw [hq, Nat.pow_one, Nat.mod_add_div, Nat.add_comm 1] at happend
        exact happend

theorem putDecHelper4_decimal {x : U32} {k n : Nat} {s : List U8} (hx : x.toNat ≤ 1125520955) (hs : Decimal k n s) :
    ∃ q s', putDecHelper4 x s = (q, s') ∧ q.toNat = x.toNat / 10000 ∧
      Decimal (k + 4) (n + 10 ^ k * (x.toNat % 10000)) s' := by
  have hq := toNat_div10000 hx
  unfold putDecHelper4
  generalize ((x.setWidth 64 * 0x346DC5D7 : U64) >>> 43).setWidth 32 = q at hq ⊢
  have hlast : (x - q * 10000).toNat = x.toNat % 10000 := by
    rw [BitVec.toNat_sub, BitVec.toNat_mul, show (10000 : U32).toNat = 10000 from rfl, hq]
    omega
  obtain ⟨l, hl, hdecimal⟩ := putDecDigits_decimal (n := 3) le_rfl (r := x - q * 10000) (by rw [hlast]; omega) s
  rw [hlast] at hdecimal
  exact ⟨q, l ++ s, congrArg (Prod.mk q) hl, hq, hs.append hdecimal⟩

/-- The four parts of a number of 64 bits. -/
theorem toNat_parts (num : U64) :
    num.toNat = (num.setWidth 32 &&& 0xffff : U32).toNat + 2 ^ 16 * (num.setWidth 32 >>> 16 : U32).toNat +
      2 ^ 32 * ((num >>> 32).setWidth 32 &&& 0xffff : U32).toNat + 2 ^ 48 * ((num >>> 32).setWidth 32 >>> 16 : U32).toNat := by
  have hlow (x : U32) : (x &&& 0xffff).toNat = x.toNat % 0x10000 :=
    Word.toNat_and_sub_one (a := 0x10000#32) ⟨16, rfl⟩ x
  have hnum := num.isLt
  rw [hlow, hlow, BitVec.toNat_ushiftRight, BitVec.toNat_ushiftRight, BitVec.toNat_setWidth, BitVec.toNat_setWidth,
    BitVec.toNat_ushiftRight, Nat.shiftRight_eq_div_pow, Nat.shiftRight_eq_div_pow, Nat.shiftRight_eq_div_pow]
  omega

theorem toNat_lowHalf_lt (x : U32) : (x &&& 0xffff).toNat < 2 ^ 16 := by
  rw [show (x &&& 0xffff).toNat = x.toNat % 0x10000 from Word.toNat_and_sub_one (a := 0x10000#32) ⟨16, rfl⟩ x]
  omega

theorem toNat_highHalf_lt (x : U32) : (x >>> 16).toNat < 2 ^ 16 := by
  rw [BitVec.toNat_ushiftRight, Nat.shiftRight_eq_div_pow]
  omega

/-! The sums that `put_dec` makes of the four parts and of the quotient of the sum before. -/

section

variable {d0 d1 d2 d3 q : U32} (h0 : d0.toNat < 2 ^ 16) (h1 : d1.toNat < 2 ^ 16) (h2 : d2.toNat < 2 ^ 16)
  (h3 : d3.toNat < 2 ^ 16) (hq : q.toNat < 2 ^ 18)

include h1 h2 h3

include h0 in
theorem toNat_firstSum : (656 * d3 + 7296 * d2 + 5536 * d1 + d0).toNat =
    656 * d3.toNat + 7296 * d2.toNat + 5536 * d1.toNat + d0.toNat := by
  simp (disch := omega) only [BitVec.ofNat_eq_ofNat, BitVec.toNat_add, BitVec.toNat_mul, BitVec.toNat_ofNat,
    Nat.reducePow, Nat.mod_eq_of_lt]

include hq

theorem toNat_secondSum : (q + (7671 * d3 + 9496 * d2 + 6 * d1)).toNat =
    q.toNat + (7671 * d3.toNat + 9496 * d2.toNat + 6 * d1.toNat) := by
  simp (disch := omega) only [BitVec.ofNat_eq_ofNat, BitVec.toNat_add, BitVec.toNat_mul, BitVec.toNat_ofNat,
    Nat.reducePow, Nat.mod_eq_of_lt]

omit h1 in
theorem toNat_thirdSum : (q + (4749 * d3 + 42 * d2)).toNat = q.toNat + (4749 * d3.toNat + 42 * d2.toNat) := by
  simp (disch := omega) only [BitVec.ofNat_eq_ofNat, BitVec.toNat_add, BitVec.toNat_mul, BitVec.toNat_ofNat,
    Nat.reducePow, Nat.mod_eq_of_lt]

omit h1 h2 in
theorem toNat_fourthSum : (q + 281 * d3).toNat = q.toNat + 281 * d3.toNat := by
  simp (disch := omega) only [BitVec.ofNat_eq_ofNat, BitVec.toNat_add, BitVec.toNat_mul, BitVec.toNat_ofNat,
    Nat.reducePow, Nat.mod_eq_of_lt]

end

/-- `put_dec` has the decimal digits of its number. -/
theorem putDec_eq (num : U64) : putDec num = ((Nat.digits 10 num.toNat).map digit8).reverse := by
  have hparts := toNat_parts num
  have hlow0 := toNat_lowHalf_lt (num.setWidth 32)
  have hlow2 := toNat_lowHalf_lt ((num >>> 32).setWidth 32)
  have hhigh1 := toNat_highHalf_lt (num.setWidth 32)
  have hhigh3 := toNat_highHalf_lt ((num >>> 32).setWidth 32)
  unfold putDec
  dsimp only
  generalize (num.setWidth 32 &&& 0xffff : U32) = d0, (num.setWidth 32 >>> 16 : U32) = d1,
    ((num >>> 32).setWidth 32 &&& 0xffff : U32) = d2, ((num >>> 32).setWidth 32 >>> 16 : U32) = d3 at *
  have hx0 : (656 * d3 + 7296 * d2 + 5536 * d1 + d0).toNat =
      656 * d3.toNat + 7296 * d2.toNat + 5536 * d1.toNat + d0.toNat :=
    toNat_firstSum hlow0 hhigh1 hlow2 hhigh3
  obtain ⟨q0, s0, hcall0, hq0, hs0⟩ := putDecHelper4_decimal (x := 656 * d3 + 7296 * d2 + 5536 * d1 + d0) (by omega) .nil
  rw [hcall0]
  dsimp only
  have hx1 : (q0 + (7671 * d3 + 9496 * d2 + 6 * d1)).toNat =
      q0.toNat + (7671 * d3.toNat + 9496 * d2.toNat + 6 * d1.toNat) :=
    toNat_secondSum hhigh1 hlow2 hhigh3 (by omega)
  obtain ⟨q1, s1, hcall1, hq1, hs1⟩ := putDecHelper4_decimal (x := q0 + (7671 * d3 + 9496 * d2 + 6 * d1)) (by omega) hs0
  rw [hcall1]
  dsimp only
  have hx2 : (q1 + (4749 * d3 + 42 * d2)).toNat = q1.toNat + (4749 * d3.toNat + 42 * d2.toNat) :=
    toNat_thirdSum hlow2 hhigh3 (by omega)
  obtain ⟨q2, s2, hcall2, hq2, hs2⟩ := putDecHelper4_decimal (x := q1 + (4749 * d3 + 42 * d2)) (by omega) hs1
  rw [hcall2]
  dsimp only
  have hx3 : (q2 + 281 * d3).toNat = q2.toNat + 281 * d3.toNat :=
    toNat_fourthSum hhigh3 (by omega)
  obtain ⟨q3, s3, hcall3, hq3, hs3⟩ := putDecHelper4_decimal (x := q2 + 281 * d3) (by omega) hs2
  rw [hcall3]
  dsimp only
  obtain ⟨l, hl, hdecimal⟩ := putDecDigits_decimal (n := 3) le_rfl (r := q3) (by omega) s3
  rw [putDecFull4, hl, (hs3.append hdecimal).dropWhile]
  congr 3
  omega

/-! ### All bases -/

/-- The base that a conversion selects. -/
def Base.of : Printf.Conversion → Base
  | .d => .decimal
  | .i => .decimal
  | .o => .octal
  | .u => .decimal
  | .x => .hexadecimal
  | .X => .hexadecimal

theorem and_two_pow_sub_one {num mask : U64} {k : Nat} (hmask : mask.toNat = 2 ^ k - 1) :
    num &&& mask = BitVec.ofNat 64 (num.toNat % 2 ^ k) := by
  apply BitVec.eq_of_toNat_eq
  have hle : num.toNat % 2 ^ k ≤ num.toNat := Nat.mod_le _ _
  rw [BitVec.toNat_and, hmask, Nat.and_two_pow_sub_one_eq_mod, BitVec.toNat_ofNat,
    Nat.mod_eq_of_lt (hle.trans_lt num.isLt)]

theorem octal_digit (num : U64) : 48 + (num &&& 7).setWidth 8 = chr (Printf.digit .o (num.toNat % 2 ^ 3)) := by
  have hdigit : ∀ d < 8, 48 + (BitVec.ofNat 64 d).setWidth 8 = chr (Printf.digit .o d) := by decide
  rw [and_two_pow_sub_one (k := 3) rfl]
  exact hdigit _ (Nat.mod_lt _ (by decide))

theorem hex_digit {conv : Printf.Conversion} (hconv : conv.hex) (num : U64) :
    hexDigit (num &&& 0xf) ||| (if conv = .x then 0x20 else 0) = chr (Printf.digit conv (num.toNat % 2 ^ 4)) := by
  have hdigit : ∀ d < 16, ∀ up : Bool, hexDigit (BitVec.ofNat 64 d) ||| (if up then 0 else 0x20) =
      chr (if up then (Nat.digitChar d).toUpper else Nat.digitChar d) := by decide
  rw [and_two_pow_sub_one (k := 4) rfl]
  cases conv with
  | x => exact hdigit _ (Nat.mod_lt _ (by decide)) false
  | X => exact hdigit _ (Nat.mod_lt _ (by decide)) true
  | d | i | o | u => cases hconv

theorem decimal_digit {conv : Printf.Conversion} (hconv : conv.base = 10) {d : Nat} (hd : d < 10) :
    digit8 d = chr (Printf.digit conv d) := by
  have hdigit : ∀ d < 10, digit8 d = chr (Nat.digitChar d) := by decide
  rw [hdigit d hd, Printf.digit, if_neg]
  rintro rfl
  cases hconv

/-- **Digits.** `number` has the digits of the number in the base and the case of the conversion. -/
theorem number_eq (conv : Printf.Conversion) (num : U64) :
    number num (Base.of conv) (if conv = .x then 0x20 else 0) = (Printf.digits conv num.toNat).map chr := by
  have hdecimal (h : conv.base = 10) : (if num ≠ 0 then putDec num else []) = (Printf.digits conv num.toNat).map chr := by
    have hdigits : (if num ≠ 0 then putDec num else []) = ((Nat.digits 10 num.toNat).map digit8).reverse := by
      split
      next => exact putDec_eq num
      next hzero =>
        rw [not_not.mp hzero, show (0 : U64).toNat = 0 from rfl, Nat.digits_zero]
        rfl
    rw [hdigits, Printf.digits, h, List.map_map, ← List.map_reverse]
    refine List.map_congr_left fun d hd => ?_
    exact decimal_digit h (Nat.digits_lt_base (by decide) (List.mem_reverse.mp hd))
  have hhex (h : conv.hex) (hbase : conv.base = 2 ^ 4) :
      putDigits 4 (fun num => hexDigit (num &&& 0xf) ||| if conv = .x then 0x20 else 0) 64 num [] =
        (Printf.digits conv num.toNat).map chr := by
    rw [putDigits_eq (f := fun d => chr (Printf.digit conv d)) (by decide) (fun num => hex_digit h num) 64 num []
        (num.isLt.trans (by decide)), List.append_nil,
      Printf.digits, hbase, List.map_map, ← List.map_reverse]
    rfl
  cases conv with
  | d => exact hdecimal rfl
  | i => exact hdecimal rfl
  | u => exact hdecimal rfl
  | x => exact hhex rfl rfl
  | X => exact hhex rfl rfl
  | o =>
      rw [Base.of, number, putDigits_eq (f := fun d => chr (Printf.digit .o d)) (by decide) octal_digit 64 num []
        (num.isLt.trans (by decide)), List.append_nil, Printf.digits, List.map_map, ← List.map_reverse]
      rfl

end XosKernel.Vsnprintf
