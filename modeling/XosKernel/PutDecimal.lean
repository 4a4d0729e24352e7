import XosKernel.VsnprintfDigits

/-! `put_dec` with its pointers: the places before `end` that it stores at and reads again, and the values that it
computes on the way to the digits. Every sum and every product fits its type, and every product in place of a division
is the quotient. -/

namespace XosKernel.Vsnprintf

/-- The octets around `end` by their place, and the places that were accessed, the last one first. -/
structure Scratch where
  octets : Int → U8
  touched : List Int

/-- `*p = c`. -/
def Scratch.poke (m : Scratch) (p : Int) (c : U8) : Scratch :=
  { octets := Function.update m.octets p c, touched := p :: m.touched }

theorem Scratch.poke_self (m : Scratch) (p : Int) (c : U8) : (m.poke p c).octets p = c := Function.update_self _ _ _

theorem Scratch.poke_of_ne (m : Scratch) {p p' : Int} (h : p' ≠ p) (c : U8) : (m.poke p c).octets p' = m.octets p' :=
  Function.update_of_ne h _ _

/-- The place of the access `*p` that reads. -/
def Scratch.peek (m : Scratch) (p : Int) : Scratch := { m with touched := p :: m.touched }

/-- `put_dec_full4` with `n` passes of its loop to go. -/
def putDecDigitsAt : Nat → Int → U32 → Scratch → Scratch
  | 0, endPos, r, m => m.poke (endPos - 1) (48 + r.setWidth 8)
  | n + 1, endPos, r, m =>
      let q := (r * 0xccd) >>> 15
      putDecDigitsAt n (endPos - 1) q (m.poke (endPos - 1) (48 + (r - q * 10).setWidth 8))

def putDecFull4At (endPos : Int) (r : U32) (m : Scratch) : Scratch := putDecDigitsAt 3 endPos r m

def putDecHelper4At (endPos : Int) (x : U32) (m : Scratch) : U32 × Scratch :=
  let q := ((x.setWidth 64 * 0x346DC5D7 : U64) >>> 43).setWidth 32
  (q, putDecFull4At endPos (x - q * 10000) m)

/-- `while (p < end && *p == '0') ++p`. -/
def stripZeros (endPos p : Int) (m : Scratch) : Int × Scratch :=
  if p < endPos then
    if m.octets p = chr '0' then stripZeros endPos (p + 1) (m.peek p) else (p, m.peek p)
  else (p, m)
termination_by (endPos - p).toNat

/-- `put_dec`, with the pointer that it returns. -/
def putDecAt (endPos : Int) (n : U64) (m : Scratch) : Int × Scratch :=
  let d1 : U32 := n.setWidth 32 >>> 16
  let h : U32 := (n >>> 32).setWidth 32
  let d2 := h &&& 0xffff
  let d3 := h >>> 16
  let p := endPos
  let q := 656 * d3 + 7296 * d2 + 5536 * d1 + (n.setWidth 32 &&& 0xffff)
  let r := putDecHelper4At p q m
  let p := p - 4
  let r := putDecHelper4At p (r.1 + (7671 * d3 + 9496 * d2 + 6 * d1)) r.2
  let p := p - 4
  let r := putDecHelper4At p (r.1 + (4749 * d3 + 42 * d2)) r.2
  let p := p - 4
  let r := putDecHelper4At p (r.1 + 281 * d3) r.2
  let p := p - 4
  let m := putDecFull4At p r.1 r.2
  let p := p - 4
  stripZeros endPos p m

/-! ### The values on the way to the digits -/

/-- The parts `d0` to `d3` of a number. -/
def limb0 (n : U64) : U32 := n.setWidth 32 &&& 0xffff
def limb1 (n : U64) : U32 := n.setWidth 32 >>> 16
def limb2 (n : U64) : U32 := (n >>> 32).setWidth 32 &&& 0xffff
def limb3 (n : U64) : U32 := (n >>> 32).setWidth 32 >>> 16

/-- `(r * 0xccd) >> 15`. -/
def div10 (r : U32) : U32 := (r * 0xccd) >>> 15

/-- `(x * 0x346DC5D7ULL) >> 43`. -/
def div10000 (x : U32) : U32 := ((x.setWidth 64 * 0x346DC5D7 : U64) >>> 43).setWidth 32

/-- The values of `q` that `put_dec` passes to `put_dec_helper4`. -/
def sum0 (n : U64) : U32 := 656 * limb3 n + 7296 * limb2 n + 5536 * limb1 n + limb0 n
def sum1 (n : U64) : U32 := div10000 (sum0 n) + (7671 * limb3 n + 9496 * limb2 n + 6 * limb1 n)
def sum2 (n : U64) : U32 := div10000 (sum1 n) + (4749 * limb3 n + 42 * limb2 n)
def sum3 (n : U64) : U32 := div10000 (sum2 n) + 281 * limb3 n

/-- The passes of `put_dec_full4` on `r`: the product fits, the product in place of the division is the quotient, what is
left is the last digit, and `r` is a digit at the end. -/
def DigitsExact : Nat → U32 → Prop
  | 0, r => r.toNat < 10
  | n + 1, r => r.toNat * 0xccd < 2 ^ 32 ∧ (div10 r).toNat = r.toNat / 10 ∧
      (r - div10 r * 10).toNat = r.toNat % 10 ∧ DigitsExact n (div10 r)

/-- The same for `put_dec_helper4` on `x`. -/
structure HelperExact (x : U32) : Prop where
  product : x.toNat * 0x346DC5D7 < 2 ^ 64
  quotient : (div10000 x).toNat = x.toNat / 10000
  rest : (x - div10000 x * 10000).toNat = x.toNat % 10000
  digits : DigitsExact 3 (x - div10000 x * 10000)

/-- The sums of `put_dec` fit 32 bits, and its quotients are exact. -/
structure PutDecExact (n : U64) : Prop where
  first : (sum0 n).toNat =
    656 * (limb3 n).toNat + 7296 * (limb2 n).toNat + 5536 * (limb1 n).toNat + (limb0 n).toNat
  firstHelper : HelperExact (sum0 n)
  second : (sum1 n).toNat =
    (div10000 (sum0 n)).toNat + (7671 * (limb3 n).toNat + 9496 * (limb2 n).toNat + 6 * (limb1 n).toNat)
  secondHelper : HelperExact (sum1 n)
  third : (sum2 n).toNat = (div10000 (sum1 n)).toNat + (4749 * (limb3 n).toNat + 42 * (limb2 n).toNat)
  thirdHelper : HelperExact (sum2 n)
  fourth : (sum3 n).toNat = (div10000 (sum2 n)).toNat + 281 * (limb3 n).toNat
  fourthHelper : HelperExact (sum3 n)
  last : DigitsExact 3 (div10000 (sum3 n))

theorem digitsExact_of_lt {n : Nat} (hn : n ≤ 3) {r : U32} (hr : r.toNat < 10 ^ (n + 1)) : DigitsExact n r := by
  induction n generalizing r with
  | zero =>
      rw [Nat.zero_add, Nat.pow_one] at hr
      exact hr
  | succ n ih =>
      have hpow : 10 ^ (n + 1) ≤ 10 ^ 3 := Nat.pow_le_pow_right (by decide) hn
      rw [Nat.pow_succ] at hr
      have hq : (div10 r).toNat = r.toNat / 10 := toNat_div10 (by omega)
      refine ⟨by omega, hq, ?_, ih (by omega) (by omega)⟩
      rw [BitVec.toNat_sub, BitVec.toNat_mul, show (10 : U32).toNat = 10 from rfl, hq]
      omega

theorem helperExact_of_le {x : U32} (hx : x.toNat ≤ 1125520955) : HelperExact x := by
  have hq : (div10000 x).toNat = x.toNat / 10000 := toNat_div10000 hx
  have hrest : (x - div10000 x * 10000).toNat = x.toNat % 10000 := by
    rw [BitVec.toNat_sub, BitVec.toNat_mul, show (10000 : U32).toNat = 10000 from rfl, hq]
    omega
  refine ⟨by omega, hq, hrest, digitsExact_of_lt (Nat.le_refl 3) ?_⟩
  rw [hrest]
  exact Nat.mod_lt _ (by decide)

/-- Each of the four parts has 16 bits. -/
theorem limb_lt (n : U64) :
    (limb0 n).toNat < 2 ^ 16 ∧ (limb1 n).toNat < 2 ^ 16 ∧ (limb2 n).toNat < 2 ^ 16 ∧ (limb3 n).toNat < 2 ^ 16 :=
  ⟨toNat_lowHalf_lt _, toNat_highHalf_lt _, toNat_lowHalf_lt _, toNat_highHalf_lt _⟩

/-- Every value that `put_dec` computes is exact. -/
theorem putDec_exact (n : U64) : PutDecExact n := by
  obtain ⟨h0, h1, h2, h3⟩ := limb_lt n
  have hfirst := toNat_firstSum h0 h1 h2 h3
  have hhelper0 : HelperExact (sum0 n) := helperExact_of_le (by rw [sum0, hfirst]; omega)
  have hq0 : (div10000 (sum0 n)).toNat < 2 ^ 18 := by
    rw [hhelper0.quotient, sum0, hfirst]
    omega
  have hsecond := toNat_secondSum h1 h2 h3 hq0
  have hhelper1 : HelperExact (sum1 n) := helperExact_of_le (by
    rw [sum1, hsecond, hhelper0.quotient, sum0, hfirst]
    omega)
  have hq1 : (div10000 (sum1 n)).toNat < 2 ^ 18 := by
    rw [hhelper1.quotient, sum1, hsecond]
    omega
  have hthird := toNat_thirdSum h2 h3 hq1
  have hhelper2 : HelperExact (sum2 n) := helperExact_of_le (by rw [sum2, hthird]; omega)
  have hq2 : (div10000 (sum2 n)).toNat < 2 ^ 18 := by
    rw [hhelper2.quotient, sum2, hthird]
    omega
  have hfourth := toNat_fourthSum h3 hq2
  have hhelper3 : HelperExact (sum3 n) := helperExact_of_le (by rw [sum3, hfourth]; omega)
  refine ⟨hfirst, hhelper0, hsecond, hhelper1, hthird, hhelper2, hfourth, hhelper3, digitsExact_of_lt (Nat.le_refl 3) ?_⟩
  rw [hhelper3.quotient, sum3, hfourth, hhelper2.quotient, sum2, hthird]
  omega

/-! ### The text before `end` -/

/-- The octets before `endPos` are those of `l`. -/
def Scratch.Ends (m : Scratch) (endPos : Int) (l : List U8) : Prop :=
  ∀ i : Nat, i < l.length → l[i]? = some (m.octets (endPos - l.length + i))

/-- What the accesses between `m` and `m'` do: they stay within the `k` places before `endPos`, and no other octet
changes. -/
structure Within (m m' : Scratch) (endPos : Int) (k : Nat) : Prop where
  frame : ∀ p, p < endPos - k ∨ endPos ≤ p → m'.octets p = m.octets p
  touched : ∃ places, m'.touched = places ++ m.touched ∧ ∀ p ∈ places, endPos - k ≤ p ∧ p < endPos

/-- `l` was written up to `endPos`. -/
structure Written (m m' : Scratch) (endPos : Int) (l : List U8) : Prop where
  ends : m'.Ends endPos l
  within : Within m m' endPos l.length

theorem Scratch.Ends.tail {m : Scratch} {endPos : Int} {c : U8} {l : List U8} (h : m.Ends endPos (c :: l)) :
    m.Ends endPos l := by
  intro i hi
  have hnext := h (i + 1) (by rw [List.length_cons]; omega)
  rw [List.getElem?_cons_succ, List.length_cons] at hnext
  rw [hnext, show endPos - ((l.length + 1 : Nat) : Int) + ((i + 1 : Nat) : Int) = endPos - l.length + i by omega]

theorem Scratch.Ends.head {m : Scratch} {endPos : Int} {c : U8} {l : List U8} (h : m.Ends endPos (c :: l)) :
    m.octets (endPos - (l.length + 1 : Nat)) = c := by
  have hfirst := h 0 (by rw [List.length_cons]; omega)
  rw [List.getElem?_cons_zero, List.length_cons, Int.natCast_zero, Int.add_zero] at hfirst
  exact (Option.some.inj hfirst).symm

theorem Written.nil (m : Scratch) (endPos : Int) : Written m m endPos [] := by
  refine ⟨fun i hi => absurd hi (Nat.not_lt_zero i), fun _ _ => rfl, [], rfl, ?_⟩
  exact fun _ hp => absurd hp List.not_mem_nil

theorem Written.poke {m m' : Scratch} {endPos : Int} {l : List U8} (h : Written m m' endPos l) (c : U8) :
    Written m (m'.poke (endPos - l.length - 1) c) endPos (c :: l) := by
  refine ⟨fun i hi => ?_, fun p hp => ?_, ?_⟩
  · cases i with
    | zero =>
        have hplace : endPos - ((l.length + 1 : Nat) : Int) + ((0 : Nat) : Int) = endPos - l.length - 1 := by omega
        rw [List.getElem?_cons_zero, List.length_cons, hplace, Scratch.poke_self]
    | succ i =>
        rw [List.length_cons] at hi
        have hplace : endPos - ((l.length + 1 : Nat) : Int) + ((i + 1 : Nat) : Int) = endPos - l.length + i := by omega
        rw [List.getElem?_cons_succ, List.length_cons, hplace, h.ends i (by omega),
          Scratch.poke_of_ne _ (by omega)]
  · rw [List.length_cons] at hp
    rw [Scratch.poke_of_ne _ (by omega)]
    exact h.within.frame p (by omega)
  · obtain ⟨places, hplaces, hbounds⟩ := h.within.touched
    refine ⟨(endPos - l.length - 1) :: places, congrArg _ hplaces, fun p hp => ?_⟩
    rw [List.length_cons]
    rcases List.mem_cons.mp hp with rfl | hp
    · omega
    · have := hbounds p hp
      omega

/-- `put_dec_full4` writes its digits in front of those that are there. -/
theorem Written.digits {m m' : Scratch} {endPos : Int} {l : List U8} (h : Written m m' endPos l) (n : Nat)
    (r : U32) {p : Int} (hp : p = endPos - l.length) :
    Written m (putDecDigitsAt n p r m') endPos (putDecDigits n r l) := by
  induction n generalizing m' l r p with
  | zero =>
      rw [hp]
      exact h.poke _
  | succ n ih =>
      rw [putDecDigitsAt, putDecDigits, hp]
      refine ih (h.poke _) _ ?_
      rw [List.length_cons]
      omega

theorem length_putDecDigits (n : Nat) (r : U32) (l : List U8) : (putDecDigits n r l).length = n + 1 + l.length := by
  induction n generalizing r l with
  | zero =>
      rw [putDecDigits, List.length_cons]
      omega
  | succ n ih =>
      rw [putDecDigits, ih, List.length_cons]
      omega

/-- A text that was written, with its length: what the calls of `put_dec_full4` hand on. -/
structure Progress (m m' : Scratch) (endPos p : Int) (l : List U8) : Prop where
  written : Written m m' endPos l
  place : p = endPos - l.length

theorem Progress.full4 {m m' : Scratch} {endPos p : Int} {l : List U8} (h : Progress m m' endPos p l) (r : U32) :
    Progress m (putDecFull4At p r m') endPos (p - 4) (putDecFull4 r l) := by
  refine ⟨h.written.digits 3 r h.place, ?_⟩
  rw [putDecFull4, length_putDecDigits, h.place]
  omega

theorem Progress.helper4 {m m' : Scratch} {endPos p : Int} {l : List U8} (h : Progress m m' endPos p l) (x : U32) :
    (putDecHelper4At p x m').1 = (putDecHelper4 x l).1 ∧
      Progress m (putDecHelper4At p x m').2 endPos (p - 4) (putDecHelper4 x l).2 :=
  ⟨rfl, h.full4 _⟩

theorem Scratch.Ends.of_suffix {m : Scratch} {endPos : Int} {l l' : List U8} (h : m.Ends endPos l) (hl : l' <:+ l) :
    m.Ends endPos l' := by
  obtain ⟨front, rfl⟩ := hl
  induction front with
  | nil => exact h
  | cons c front ih => exact ih h.tail

/-- The zeros in front are skipped, by reads only. -/
theorem stripZeros_eq {m : Scratch} {endPos : Int} {l : List U8} (h : m.Ends endPos l) :
    (stripZeros endPos (endPos - l.length) m).1 = endPos - (l.dropWhile (· = chr '0')).length ∧
      (stripZeros endPos (endPos - l.length) m).2.octets = m.octets ∧
      ∃ places, (stripZeros endPos (endPos - l.length) m).2.touched = places ++ m.touched ∧
        ∀ p ∈ places, endPos - l.length ≤ p ∧ p < endPos := by
  induction l generalizing m with
  | nil =>
      rw [List.length_nil, stripZeros, if_neg (by omega)]
      exact ⟨rfl, rfl, [], rfl, fun _ hp => absurd hp List.not_mem_nil⟩
  | cons c l ih =>
      have hhead := h.head
      rw [List.length_cons, stripZeros, if_pos (by omega), hhead]
      by_cases hc : c = chr '0'
      · have hplace : endPos - ((l.length + 1 : Nat) : Int) + 1 = endPos - l.length := by omega
        have htail : (m.peek (endPos - ((l.length + 1 : Nat) : Int))).Ends endPos l := h.tail
        obtain ⟨hresult, hoctets, places, hplaces, hbounds⟩ := ih htail
        rw [if_pos hc, hplace, List.dropWhile_cons_of_pos (by simpa using hc)]
        refine ⟨hresult, hoctets, places ++ [endPos - ((l.length + 1 : Nat) : Int)], ?_, ?_⟩
        · rw [hplaces, List.append_assoc]
          rfl
        · intro p hp
          rcases List.mem_append.mp hp with hp | hp
          · have := hbounds p hp
            omega
          · rw [List.mem_singleton.mp hp]
            omega
      · rw [if_neg hc, List.dropWhile_cons_of_neg (by simpa using hc), List.length_cons]
        refine ⟨rfl, rfl, [_], rfl, fun p hp => ?_⟩
        rw [List.mem_singleton.mp hp]
        omega

/-- A text of `k` octets without the zeros in front of it. -/
structure Stripped (m : Scratch) (r : Int × Scratch) (endPos : Int) (k : Nat) (text : List U8) : Prop where
  start : r.1 = endPos - text.length
  ends : r.2.Ends endPos text
  within : Within m r.2 endPos k

theorem Progress.strip {m m' : Scratch} {endPos p : Int} {l : List U8} (h : Progress m m' endPos p l) :
    Stripped m (stripZeros endPos p m') endPos l.length (l.dropWhile (· = chr '0')) := by
  obtain ⟨hresult, hoctets, places, hplaces, hbounds⟩ := stripZeros_eq h.written.ends
  obtain ⟨earlier, hearlier, hearlierBounds⟩ := h.written.within.touched
  rw [h.place]
  refine ⟨hresult, ?_, fun p hp => ?_, places ++ earlier, ?_, fun p hp => ?_⟩
  · have hends := h.written.ends.of_suffix (List.dropWhile_suffix (· = chr '0'))
    intro i hi
    rw [hoctets]
    exact hends i hi
  · rw [hoctets]
    exact h.written.within.frame p hp
  · rw [hplaces, hearlier, List.append_assoc]
  · exact (List.mem_append.mp hp).elim (hbounds p) (hearlierBounds p)

/-- `put_dec` leaves its octets before `end`, and accesses the 20 octets before it only. -/
theorem putDecAt_stripped (endPos : Int) (n : U64) (m : Scratch) :
    Stripped m (putDecAt endPos n m) endPos 20 (putDec n) := by
  have hstart : Progress m m endPos endPos [] := ⟨.nil m endPos, by rw [List.length_nil]; omega⟩
  obtain ⟨hq0, h0⟩ := hstart.helper4 (sum0 n)
  obtain ⟨hq1, h1⟩ := h0.helper4 (sum1 n)
  obtain ⟨hq2, h2⟩ := h1.helper4 (sum2 n)
  obtain ⟨hq3, h3⟩ := h2.helper4 (sum3 n)
  exact (h3.full4 (div10000 (sum3 n))).strip

theorem toDigits_eq_digits {n : Nat} (hn : n ≠ 0) :
    Nat.toDigits 10 n = ((Nat.digits 10 n).map Nat.digitChar).reverse := by
  induction n using Nat.strongRecOn with
  | ind n ih =>
      rw [Nat.digits_def' (by decide) (Nat.pos_of_ne_zero hn), List.map_cons, List.reverse_cons,
        Nat.toDigits_eq_if (by decide)]
      split
      next hlt =>
        rw [Nat.div_eq_of_lt hlt, Nat.mod_eq_of_lt hlt, Nat.digits_zero]
        rfl
      next hge => rw [ih (n / 10) (by omega) (by omega)]

theorem toNat_ne_zero {n : U64} (hn : n ≠ 0) : n.toNat ≠ 0 := fun h => hn (BitVec.eq_of_toNat_eq h)

theorem putDec_toDigits {n : U64} (hn : n ≠ 0) : putDec n = (Nat.toDigits 10 n.toNat).map chr := by
  rw [putDec_eq, toDigits_eq_digits (toNat_ne_zero hn), List.map_reverse, List.map_map]
  congr 1
  refine List.map_congr_left fun d hd => ?_
  have hdigit : ∀ d < 10, digit8 d = chr (Nat.digitChar d) := by decide
  exact hdigit d (Nat.digits_lt_base (by decide) hd)

theorem head?_toDigits {n : Nat} (hn : n ≠ 0) : (Nat.toDigits 10 n).head? ≠ some '0' := by
  intro hhead
  rw [toDigits_eq_digits hn, List.head?_reverse, List.getLast?_map, Option.map_eq_some_iff] at hhead
  obtain ⟨d, hd, hchar⟩ := hhead
  have hdigit : ∀ d < 10, Nat.digitChar d = '0' → d = 0 := by decide
  exact Printf.getLast?_digits_ne_zero hd
    (hdigit d (Nat.digits_lt_base (by decide) (List.mem_of_getLast? hd)) hchar)

/-- **Decimal digits.** For every number but 0 `put_dec` leaves the decimal digits of the number, the first of them not a
zero, in the last of the 20 places before `end`; it accesses no other place, and its arithmetic is exact. -/
theorem putDecAt_decimal (endPos : Int) (n : U64) (m : Scratch) (hn : n ≠ 0) :
    Stripped m (putDecAt endPos n m) endPos 20 ((Nat.toDigits 10 n.toNat).map chr) ∧
      (Nat.toDigits 10 n.toNat).length ≤ 20 ∧ (Nat.toDigits 10 n.toNat).head? ≠ some '0' ∧ PutDecExact n := by
  refine ⟨?_, ?_, head?_toDigits (toNat_ne_zero hn), putDec_exact n⟩
  · rw [← putDec_toDigits hn]
    exact putDecAt_stripped endPos n m
  · rw [Nat.length_toDigits_le_iff (by decide) (by decide)]
    exact n.isLt.trans (by decide)

/-- The greatest number has 20 digits. -/
theorem putDecAt_decimal_max :
    Stripped ⟨fun _ => 0, []⟩ (putDecAt 20 (-1) ⟨fun _ => 0, []⟩) 20 20
        ((Nat.toDigits 10 (-1 : U64).toNat).map chr) ∧
      (Nat.toDigits 10 (-1 : U64).toNat).length ≤ 20 ∧ (Nat.toDigits 10 (-1 : U64).toNat).head? ≠ some '0' ∧
      PutDecExact (-1) :=
  putDecAt_decimal 20 (-1) ⟨fun _ => 0, []⟩ (by decide)

end XosKernel.Vsnprintf
