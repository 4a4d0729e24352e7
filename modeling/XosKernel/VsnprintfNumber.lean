import XosKernel.VsnprintfDigits
import XosKernel.VsnprintfFormat

/-! The output of a number. The code folds the sign, the prefix, the precision and the zeros that fill a field into
two counters; `Shows` says what these are for a request, and `Shows.output` that the loops that use them up print
its layout. -/

namespace XosKernel.Vsnprintf

open Printf (Request)

/-! ### Signed words -/

theorem toInt_of_toNat_lt {i : CInt} (h : i.toNat < 2 ^ 31) : i.toInt = i.toNat :=
  BitVec.toInt_eq_toNat_of_lt (by omega)

theorem slt_zero_of_toNat_lt {i : CInt} (h : i.toNat < 2 ^ 31) : i.slt 0 = false := by
  rw [BitVec.slt_eq_decide, toInt_of_toNat_lt h, decide_eq_false_iff_not, show (0 : CInt).toInt = 0 from rfl]
  omega

theorem toInt_sub {i j : CInt} (hlow : -2 ^ 31 ≤ i.toInt - j.toInt) (hhigh : i.toInt - j.toInt < 2 ^ 31) :
    (i - j).toInt = i.toInt - j.toInt := by
  rw [BitVec.toInt_sub]
  exact Int.bmod_eq_of_le (by omega) (by omega)

theorem toNat_of_toInt_nonneg {i : CInt} (h : 0 ≤ i.toInt) : i.toNat = i.toInt.toNat := by
  have hlt := i.isLt
  rw [BitVec.toInt_eq_toNat_cond] at h ⊢
  split_ifs at h ⊢ <;> omega

/-! ### The sign -/

def charPut (c : Char) : Put := .octet (chr c)

/-- The flags of a request, as they are when a number is converted. -/
def Flags.of (req : Request) : Flags where
  zeropad := req.zero && !req.minus && req.precision.isNone
  sign := req.conv.signed
  plus := req.plus
  space := req.space
  left := req.minus
  small := req.conv = .x
  special := req.alternate && req.conv.base ≠ 10
  wide := false

/-- `num` is the value, signed or not as the conversion says. -/
def IsValue (conv : Printf.Conversion) (num : U64) (v : Int) : Prop :=
  v = if conv.signed then num.toInt else num.toNat

theorem toNat_neg {num : U64} (h : num.slt 0) : (-num).toNat = num.toInt.natAbs := by
  have hlt := num.isLt
  rw [BitVec.slt_iff_toInt_lt, show (0 : U64).toInt = 0 from rfl] at h
  rw [BitVec.toInt_eq_toNat_cond] at h ⊢
  rw [BitVec.toNat_neg]
  split_ifs at h ⊢ <;> omega

/-- What `get_sign` returns for a value. -/
theorem getSign_eq (req : Request) {num : U64} {v : Int} (hv : IsValue req.conv num v) :
    ∃ n sg, getSign num (Flags.of req) = (n, sg) ∧ n.toNat = v.natAbs ∧
      (if sg ≠ 0 then [Put.octet sg] else []) = (req.sign v).map charPut ∧
      (if sg ≠ 0 then 1 else 0) = (req.sign v).length := by
  unfold IsValue at hv
  have hsign : (Flags.of req).sign = req.conv.signed := rfl
  have hplus : (Flags.of req).plus = req.plus := rfl
  have hspace : (Flags.of req).space = req.space := rfl
  simp only [getSign, Request.sign, hsign, hplus, hspace]
  by_cases hsigned : req.conv.signed = true
  · rw [if_pos hsigned] at hv
    subst hv
    have hneg : num.slt 0 = true ↔ num.toInt < 0 := BitVec.slt_iff_toInt_lt
    rw [if_neg (not_not_intro hsigned), if_neg (not_not_intro hsigned)]
    by_cases hlt : num.toInt < 0
    · rw [if_pos (hneg.mpr hlt), if_pos hlt]
      exact ⟨-num, chr '-', rfl, toNat_neg (hneg.mpr hlt), rfl, rfl⟩
    · have habs : num.toNat = num.toInt.natAbs := by
        have hnum := num.isLt
        rw [BitVec.toInt_eq_toNat_cond] at hlt ⊢
        split_ifs at hlt ⊢ <;> omega
      rw [if_neg (fun h => hlt (hneg.mp h)), if_neg hlt]
      by_cases hp : req.plus = true
      · rw [if_pos hp, if_pos hp]
        exact ⟨num, chr '+', rfl, habs, rfl, rfl⟩
      · rw [if_neg hp, if_neg hp]
        by_cases hs : req.space = true
        · rw [if_pos hs, if_pos hs]
          exact ⟨num, chr ' ', rfl, habs, rfl, rfl⟩
        · rw [if_neg hs, if_neg hs]
          exact ⟨num, 0, rfl, habs, rfl, rfl⟩
  · rw [if_neg hsigned] at hv
    rw [if_pos hsigned, if_pos hsigned]
    exact ⟨num, 0, rfl, by omega, rfl, rfl⟩

/-! ### The precision -/

/-- `precision` is the precision of a request, negative when it has none. -/
def PrecisionIs (precision : CInt) : Option Nat → Prop
  | none => precision.slt 0 = true
  | some p => precision.slt 0 = false ∧ precision.toNat = p

/-- The default precision. -/
theorem toNat_default {precision : CInt} {p : Option Nat} (h : PrecisionIs precision p) :
    (if precision.slt 0 then (1 : CInt) else precision).toNat = p.getD 1 := by
  cases p with
  | none =>
      have hneg : precision.slt 0 = true := h
      rw [if_pos hneg]
      rfl
  | some p =>
      have hpos : ¬ precision.slt 0 = true := Bool.not_eq_true _ ▸ h.1
      rw [if_neg hpos]
      exact h.2

section

variable {precision : CInt} {p len : Nat}

theorem signExtend_eq (hp : precision.toNat = p) (hless : p < 2 ^ 31) : precision.signExtend 64 = BitVec.ofNat 64 p := by
  apply BitVec.eq_of_toNat_eq
  rw [toNat_signExtend (slt_zero_of_toNat_lt (hp ▸ hless)), hp, BitVec.toNat_ofNat, Nat.mod_eq_of_lt (by omega)]

/-- The precision when the number has more digits. -/
theorem toNat_atLeast (hp : precision.toNat = p) (hless : p < 2 ^ 31) (hlen : len < 2 ^ 31) :
    (if precision.signExtend 64 < BitVec.ofNat 64 len then (BitVec.ofNat 64 len).setWidth 32 else precision).toNat =
      max p len := by
  rw [signExtend_eq hp hless]
  have hsmall : (BitVec.ofNat 64 len).toNat = len := Nat.mod_eq_of_lt (by omega)
  have hcmp : BitVec.ofNat 64 p < BitVec.ofNat 64 len ↔ p < len := by
    rw [BitVec.lt_def, hsmall, BitVec.toNat_ofNat, Nat.mod_eq_of_lt (show p < 2 ^ 64 by omega)]
  simp only [hcmp]
  split
  next h =>
    rw [BitVec.toNat_setWidth, hsmall, Nat.mod_eq_of_lt (by omega)]
    omega
  next h => omega

/-- The precision with the 0 of an octal number. -/
theorem toNat_octal {c : Prop} [Decidable c] (hp : precision.toNat = max p len) (hless : max p len < 2 ^ 31) :
    (if c ∧ precision.signExtend 64 = BitVec.ofNat 64 len then precision + 1 else precision).toNat =
      max p len + if c ∧ p ≤ len then 1 else 0 := by
  have heq : precision.signExtend 64 = BitVec.ofNat 64 len ↔ p ≤ len := by
    rw [signExtend_eq hp (by omega), ← BitVec.toNat_inj, BitVec.toNat_ofNat, BitVec.toNat_ofNat,
      Nat.mod_eq_of_lt (by omega), Nat.mod_eq_of_lt (by omega)]
    omega
  simp only [heq]
  split
  next h =>
    rw [BitVec.toNat_add, hp, show (1 : CInt).toNat = 1 from rfl, Nat.mod_eq_of_lt (by omega)]
  next h => exact hp

end

theorem octal_iff (conv : Printf.Conversion) : Base.of conv = .octal ↔ conv = .o := by
  cases conv <;> decide

theorem hexadecimal_iff (conv : Printf.Conversion) : Base.of conv = .hexadecimal ↔ conv.hex = true := by
  cases conv <;> decide

theorem special_iff (req : Request) : (Flags.of req).special = true ↔ req.alternate = true ∧ req.conv.base ≠ 10 := by
  simp [Flags.of]

theorem length_digits_le (conv : Printf.Conversion) (num : U64) : (Printf.digits conv num.toNat).length ≤ 64 := by
  have hbase := Printf.base_bounds conv
  rw [Printf.digits, List.length_map, List.length_reverse, Nat.digits_length_le_iff (by omega)]
  calc
    num.toNat < 2 ^ 64 := num.isLt
    _ ≤ conv.base ^ 64 := Nat.pow_le_pow_left (by omega) 64

/-- The precision counts the digits with the zeros that the precision and the flag `#` add. -/
theorem toNat_numberPrecision (req : Request) {precision : CInt} (n : U64)
    (hprecision : PrecisionIs precision req.precision) (hless : (req.number n.toNat).length < 2 ^ 31) :
    (numberPrecision (Base.of req.conv) (Flags.of req) precision
      (BitVec.ofNat 64 (Printf.digits req.conv n.toNat).length)).toNat = (req.number n.toNat).length := by
  have hlen := length_digits_le req.conv n
  have hdefault := toNat_default hprecision
  have hoctal : ((Flags.of req).special = true ∧ Base.of req.conv = .octal) ↔ req.alternate = true ∧ req.conv = .o := by
    rw [special_iff, octal_iff]
    constructor
    · exact fun h => ⟨h.1.1, h.2⟩
    · exact fun h => ⟨⟨h.1, by rw [h.2]; decide⟩, h.2⟩
  rw [req.length_number] at hless ⊢
  have hatLeast := toNat_atLeast hdefault (by omega) (show (Printf.digits req.conv n.toNat).length < 2 ^ 31 by omega)
  unfold numberPrecision
  dsimp only
  simp only [← and_assoc, hoctal]
  exact toNat_octal hatLeast (by omega)

/-! ### The counters -/

/-- The variables at the label `output` for a number `v` of a request: the precision counts the digits with all zeros
in front, the field width what the sign and the prefix leave of the field. -/
structure Shows (req : Request) (v : Int) (f : Field) : Prop where
  left : f.flags.left = req.minus
  locase : f.flags.locase = if req.conv = .x then 0x20 else 0
  special : f.flags.special = true ↔ req.basePrefix Printf.digitsPrefix v.natAbs ≠ []
  sign : (if f.sign ≠ 0 then [Put.octet f.sign] else []) = (req.sign v).map charPut
  text : f.text = .octets ((Printf.digits req.conv v.natAbs).map chr)
  len : f.len = BitVec.ofNat 64 (Printf.digits req.conv v.natAbs).length
  fieldWidth : f.fieldWidth.toInt =
    req.width - (req.sign v).length - (req.basePrefix Printf.digitsPrefix v.natAbs).length
  precision : f.precision.toNat =
    if req.zero ∧ ¬ req.minus ∧ req.precision = none then max (req.number v.natAbs).length f.fieldWidth.toInt.toNat
    else (req.number v.natAbs).length

theorem keepSpecial_special (flags : Flags) (keep : Bool) :
    (flags.keepSpecial keep).special = true ↔ flags.special = true ∧ keep = true := by
  unfold Flags.keepSpecial
  split
  next h => simp [h.2]
  next h =>
    constructor
    · exact fun hs => ⟨hs, by simpa [hs] using h⟩
    · exact And.left

/-- Every other flag stays. -/
theorem keepSpecial_eq {α : Type} (g : Flags → α) (hg : ∀ flags : Flags, g { flags with special := false } = g flags)
    (flags : Flags) (keep : Bool) : g (flags.keepSpecial keep) = g flags := by
  unfold Flags.keepSpecial
  split
  · exact hg flags
  · rfl

theorem basePrefix_ne_nil (req : Request) (n : Nat) :
    req.basePrefix Printf.digitsPrefix n ≠ [] ↔
      req.alternate = true ∧ req.conv.hex = true ∧ 0 < (req.number n).length := by
  rw [Request.basePrefix, Printf.digitsPrefix, List.length_pos_iff]
  split
  next h => simpa using h
  next h => simpa using h

theorem length_basePrefix (req : Request) (n : Nat) :
    (req.basePrefix Printf.digitsPrefix n).length = if req.basePrefix Printf.digitsPrefix n ≠ [] then 2 else 0 := by
  unfold Request.basePrefix
  split
  · rfl
  · rfl

theorem convertNumber_shows (req : Request) {fieldWidth precision : CInt} {num : U64} {v : Int}
    (hwidth : fieldWidth.toNat = req.width) (hless : req.width < 2 ^ 31) (hprecision : PrecisionIs precision req.precision)
    (hv : IsValue req.conv num v) (hcontent : (req.content Printf.digitsPrefix v).length < 2 ^ 31) :
    Shows req v (convertNumber (Base.of req.conv) (Flags.of req) fieldWidth precision num) := by
  obtain ⟨n, sg, hsign, hn, hput, hsgLen⟩ := getSign_eq req hv
  have hlocase : (Flags.of req).locase = if req.conv = .x then 0x20 else 0 := by
    simp [Flags.locase, Flags.of]
  have hdigits : number n (Base.of req.conv) (Flags.of req).locase = (Printf.digits req.conv v.natAbs).map chr := by
    rw [hlocase, number_eq, hn]
  rw [Request.content, List.length_append, List.length_append] at hcontent
  have hnumber := toNat_numberPrecision req n hprecision (by rw [hn]; omega)
  rw [hn] at hnumber
  have hpositive : (0 : CInt).slt (numberPrecision (Base.of req.conv) (Flags.of req) precision
      (BitVec.ofNat 64 (Printf.digits req.conv v.natAbs).length)) = true ↔ 0 < (req.number v.natAbs).length := by
    have hlt := hnumber ▸ Nat.lt_of_le_of_lt (Nat.le_add_left _ _) hcontent
    rw [BitVec.slt_iff_toInt_lt, show (0 : CInt).toInt = 0 from rfl, toInt_of_toNat_lt hlt, hnumber]
    exact Int.natCast_pos
  have hkeep : (Flags.of req).special = true ∧ decide (Base.of req.conv = .hexadecimal ∧
      (0 : CInt).slt (numberPrecision (Base.of req.conv) (Flags.of req) precision
        (BitVec.ofNat 64 (Printf.digits req.conv v.natAbs).length)) = true) = true ↔
          req.basePrefix Printf.digitsPrefix v.natAbs ≠ [] := by
    rw [decide_eq_true_eq, hpositive, hexadecimal_iff, special_iff, basePrefix_ne_nil]
    constructor
    · exact fun h => ⟨h.1.1, h.2⟩
    · refine fun h => ⟨⟨h.1, fun hbase => ?_⟩, h.2⟩
      rcases req with ⟨_, _, _, _, _, _, _, conv⟩
      cases conv <;> simp [Printf.Conversion.base, Printf.Conversion.hex] at hbase h
  simp only [convertNumber, hsign, hdigits, List.length_map]
  generalize numberPrecision (Base.of req.conv) (Flags.of req) precision
    (BitVec.ofNat 64 (Printf.digits req.conv v.natAbs).length) = p at hnumber hkeep ⊢
  generalize decide (Base.of req.conv = .hexadecimal ∧ (0 : CInt).slt p = true) = keep at hkeep ⊢
  have hsg : (if sg ≠ 0 then fieldWidth - 1 else fieldWidth).toInt = req.width - (req.sign v).length := by
    have htoInt := toInt_of_toNat_lt (hwidth.symm ▸ hless)
    rw [hwidth] at htoInt
    rw [← hsgLen]
    split
    next => rw [toInt_sub] <;> rw [htoInt, show (1 : CInt).toInt = 1 from rfl] <;> omega
    next => omega
  have hsignLen : (req.sign v).length ≤ 1 := by
    rw [← hsgLen]
    split_ifs <;> omega
  generalize (if sg ≠ 0 then fieldWidth - 1 else fieldWidth) = fw1 at hsg ⊢
  have hfw : (if (Flags.of req).special = true ∧ keep = true then fw1 - 2 else fw1).toInt =
      req.width - (req.sign v).length - (req.basePrefix Printf.digitsPrefix v.natAbs).length := by
    rw [length_basePrefix]
    simp only [hkeep]
    split
    next => rw [toInt_sub] <;> rw [hsg, show (2 : CInt).toInt = 2 from rfl] <;> omega
    next => omega
  generalize (if (Flags.of req).special = true ∧ keep = true then fw1 - 2 else fw1) = fw at hfw ⊢
  have hzeropad : ((Flags.of req).keepSpecial keep).zeropad = true ↔
      req.zero = true ∧ ¬ req.minus = true ∧ req.precision = none := by
    rw [keepSpecial_eq Flags.zeropad (fun _ => rfl)]
    simp [Flags.of, and_assoc]
  have hpInt := toInt_of_toNat_lt (i := p) (by omega)
  have hslt : p.slt fw = true ↔ ((req.number v.natAbs).length : Int) < fw.toInt := by
    rw [BitVec.slt_iff_toInt_lt, hpInt, hnumber]
  refine ⟨?_, ?_, ?_, hput, rfl, rfl, hfw, ?_⟩
  · exact keepSpecial_eq Flags.left (fun _ => rfl) _ _
  · rw [← hlocase]
    exact keepSpecial_eq Flags.locase (fun _ => rfl) _ _
  · exact (keepSpecial_special _ _).trans hkeep
  · simp only [hzeropad, hslt]
    by_cases hzero : req.zero = true ∧ ¬ req.minus = true ∧ req.precision = none
    · rw [if_pos hzero]
      split
      next hlt => rw [toNat_of_toInt_nonneg (by omega)]; omega
      next hle =>
        have hless : ¬ ((req.number v.natAbs).length : Int) < fw.toInt := fun h => hle ⟨hzero, h⟩
        omega
    · rw [if_neg hzero, if_neg fun h => hzero h.1]
      exact hnumber

/-! ### The loops -/

theorem padding_eq {i : CInt} {k : Int} (h : i.toInt = k) : padding i = List.replicate k.toNat (.octet (chr ' ')) := by
  rw [padding, h]

/-- Nothing is padded behind a field that was padded in front. -/
theorem padding_afterPadding {i : CInt} (h : -2 ^ 31 < i.toInt) : padding (afterPadding i) = [] := by
  have hpos : (0 : CInt).slt i = true ↔ 0 < i.toInt := BitVec.slt_iff_toInt_lt
  unfold afterPadding padding
  split
  next => rfl
  next hle =>
    rw [hpos] at hle
    have hone : (1 : CInt).toInt = 1 := rfl
    rw [toInt_sub (by omega) (by omega), hone, Int.toNat_of_nonpos (by omega), List.replicate_zero]

/-- The text between the paddings. -/
theorem Shows.body {req : Request} {v : Int} {f : Field} (h : Shows req v f) :
    (if f.sign ≠ 0 then [Put.octet f.sign] else []) ++
        (if f.flags.special then [Put.octet (chr '0'), Put.octet (chr 'X' ||| f.flags.locase)] else []) =
      (req.sign v ++ req.basePrefix Printf.digitsPrefix v.natAbs).map charPut := by
  rw [h.sign, List.map_append, List.append_cancel_left_eq]
  simp only [h.special, h.locase]
  split
  next hne =>
    have hhex := ((basePrefix_ne_nil req v.natAbs).mp hne).2.1
    unfold Request.basePrefix at hne ⊢
    split at hne
    next hbasePrefix =>
      rw [if_pos hbasePrefix]
      generalize req.conv = conv at hhex
      cases conv with
      | x => rfl
      | X => rfl
      | d | i | o | u => cases hhex
    next => exact absurd rfl hne
  next hnil => rw [not_not.mp hnil, List.map_nil]

theorem Shows.putText_eq {req : Request} {v : Int} {f : Field} (h : Shows req v f)
    (hlen : f.len.toNat = (Printf.digits req.conv v.natAbs).length) :
    putText f.len f.text = .ok ((Printf.digits req.conv v.natAbs).map charPut) := by
  rw [h.text, putText, hlen, ← List.map_take, List.take_length, List.map_map]
  rfl

/-- **The counters print the layout.** -/
theorem Shows.output_eq {req : Request} {v : Int} {f : Field} (h : Shows req v f)
    (hwidth : req.width < 2 ^ 31) (hcontent : (req.content Printf.digitsPrefix v).length < 2 ^ 31) :
    output f = .ok ((req.layout Printf.digitsPrefix v).map charPut) := by
  have hbody := h.body
  have hfw := h.fieldWidth
  have hprecision := h.precision
  have hnumber := req.number_eq_zeros v.natAbs
  have hdigits : (Printf.digits req.conv v.natAbs).length ≤ (req.number v.natAbs).length := by
    rw [req.length_number]
    omega
  have hlength : (req.content Printf.digitsPrefix v).length =
      (req.sign v).length + (req.basePrefix Printf.digitsPrefix v.natAbs).length + (req.number v.natAbs).length := by
    rw [Request.content, List.length_append, List.length_append]
  have hlen : f.len.toNat = (Printf.digits req.conv v.natAbs).length := by
    rw [h.len, BitVec.toNat_ofNat, Nat.mod_eq_of_lt (by omega)]
  have hless : f.precision.toNat < 2 ^ 31 := by
    rw [hprecision]
    split_ifs <;> omega
  have hfill : (f.fieldWidth - f.precision).toInt = f.fieldWidth.toInt - f.precision.toNat := by
    rw [toInt_sub] <;> rw [toInt_of_toNat_lt hless, hprecision] <;> split_ifs <;> omega
  have hpad := padding_eq hfill
  have hafter : padding (afterPadding (f.fieldWidth - f.precision)) = [] := by
    apply padding_afterPadding
    rw [hfill, hprecision]
    split_ifs <;> omega
  have hdigitPuts : (req.number v.natAbs).map charPut =
      List.replicate ((req.number v.natAbs).length - (Printf.digits req.conv v.natAbs).length) (.octet (chr '0')) ++
        (Printf.digits req.conv v.natAbs).map charPut := by
    conv_lhs => rw [hnumber, List.map_append, List.map_replicate]
    rfl
  have hspaces (k : Nat) : (List.replicate k ' ').map charPut = List.replicate k (.octet (chr ' ')) :=
    List.map_replicate
  have hzeros (k : Nat) : (List.replicate k '0').map charPut = List.replicate k (.octet (chr '0')) :=
    List.map_replicate
  have houtput : output f = .ok ((((if req.minus then [] else padding (f.fieldWidth - f.precision)) ++
        (req.sign v ++ req.basePrefix Printf.digitsPrefix v.natAbs).map charPut) ++
      (List.replicate (f.precision.toNat - (Printf.digits req.conv v.natAbs).length) (.octet (chr '0')) ++
        (Printf.digits req.conv v.natAbs).map charPut)) ++
      padding (if req.minus then f.fieldWidth - f.precision else afterPadding (f.fieldWidth - f.precision))) := by
    simp only [output, h.left, h.putText_eq hlen, hlen, ← hbody, List.append_assoc]
    rfl
  rw [houtput, Request.layout, hlength]
  by_cases hminus : req.minus = true
  · have hcount : f.precision.toNat = (req.number v.natAbs).length := by
      rw [hprecision, if_neg fun hzero => hzero.2.1 hminus]
    have hspaceCount : (f.fieldWidth.toInt - (req.number v.natAbs).length).toNat = req.width -
        ((req.sign v).length + (req.basePrefix Printf.digitsPrefix v.natAbs).length + (req.number v.natAbs).length) := by
      omega
    rw [if_pos hminus, if_pos hminus, if_pos hminus, hpad, hcount, hspaceCount, List.nil_append, Request.content]
    simp only [List.map_append, hdigitPuts, hspaces, List.append_assoc]
  · rw [if_neg hminus, if_neg hminus, if_neg hminus, hafter, List.append_nil, hpad]
    by_cases hzero : req.zero = true ∧ req.precision = none
    · have hcount : f.precision.toNat = max (req.number v.natAbs).length f.fieldWidth.toInt.toNat := by
        rw [hprecision, if_pos ⟨hzero.1, hminus, hzero.2⟩]
      have hnone : (f.fieldWidth.toInt - f.precision.toNat).toNat = 0 := by omega
      have hzeroCount : f.precision.toNat - (Printf.digits req.conv v.natAbs).length = req.width -
          ((req.sign v).length + (req.basePrefix Printf.digitsPrefix v.natAbs).length + (req.number v.natAbs).length) +
            ((req.number v.natAbs).length - (Printf.digits req.conv v.natAbs).length) := by
        omega
      rw [if_pos hzero, hnone, List.replicate_zero, List.nil_append, hzeroCount, ← List.replicate_append_replicate]
      simp only [List.map_append, hdigitPuts, hzeros, List.append_assoc]
    · have hcount : f.precision.toNat = (req.number v.natAbs).length := by
        rw [hprecision, if_neg fun h => hzero ⟨h.1, h.2.2⟩]
      have hspaceCount : (f.fieldWidth.toInt - (req.number v.natAbs).length).toNat = req.width -
          ((req.sign v).length + (req.basePrefix Printf.digitsPrefix v.natAbs).length + (req.number v.natAbs).length) := by
        omega
      rw [if_neg hzero, hcount, hspaceCount, Request.content]
      simp only [List.map_append, hdigitPuts, hspaces, List.append_assoc]

end XosKernel.Vsnprintf
