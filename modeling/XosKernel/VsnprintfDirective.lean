import XosKernel.VsnprintfNumber
import XosKernel.VsnprintfBuffer

/-! Integer conversions. The text of a conversion specification is parsed into its request, and what is printed for it
is the layout of the request. A part of the text ends where the next one begins, for no character can begin both. -/

namespace XosKernel.Vsnprintf

open Printf (Specification Amount Request)

/-- The bytes of a text. -/
def encode (l : List Char) : List U8 := l.map chr

@[simp] theorem encode_nil : encode [] = [] := rfl

@[simp] theorem encode_cons (c : Char) (l : List Char) : encode (c :: l) = chr c :: encode l := rfl

@[simp] theorem encode_append (l l' : List Char) : encode (l ++ l') = encode l ++ encode l' := List.map_append

/-! ### What a part begins with -/

def Begins (starts fmt : List U8) : Prop := ∃ c rest, fmt = c :: rest ∧ c ∈ starts

def conversionStarts : List U8 := encode ['d', 'i', 'o', 'u', 'x', 'X']

def lengthStarts : List U8 := encode ['h', 'l'] ++ conversionStarts

def precisionStarts : List U8 := chr '.' :: lengthStarts

def widthStarts : List U8 := encode ['*', '1', '2', '3', '4', '5', '6', '7', '8', '9'] ++ precisionStarts

section

variable (spec : Specification) (rest : List U8)

theorem begins_conversion : Begins conversionStarts (encode [spec.conv.char] ++ rest) := by
  refine ⟨chr spec.conv.char, rest, rfl, ?_⟩
  generalize spec.conv = conv
  cases conv <;> decide

theorem begins_length : Begins lengthStarts (encode (spec.length.text ++ [spec.conv.char]) ++ rest) := by
  obtain ⟨c, l, hl, hc⟩ := begins_conversion spec rest
  rw [encode_append, List.append_assoc, hl]
  generalize spec.length = len
  cases len with
  | none => exact ⟨c, l, rfl, List.mem_append_right _ hc⟩
  | hh => exact ⟨chr 'h', _, rfl, by decide⟩
  | h => exact ⟨chr 'h', _, rfl, by decide⟩
  | l => exact ⟨chr 'l', _, rfl, by decide⟩
  | ll => exact ⟨chr 'l', _, rfl, by decide⟩

theorem begins_precision :
    Begins precisionStarts (encode (spec.precisionText ++ (spec.length.text ++ [spec.conv.char])) ++ rest) := by
  obtain ⟨c, l, hl, hc⟩ := begins_length spec rest
  rw [encode_append, List.append_assoc, hl, Specification.precisionText]
  cases spec.precision with
  | none => exact ⟨c, l, rfl, List.mem_cons_of_mem _ hc⟩
  | some p => exact ⟨chr '.', _, rfl, List.mem_cons_self⟩

theorem begins_width : Begins widthStarts
    (encode (spec.widthText ++ (spec.precisionText ++ (spec.length.text ++ [spec.conv.char]))) ++ rest) := by
  obtain ⟨c, l, hl, hc⟩ := begins_precision spec rest
  have hdigits := spec.widthDigits
  rw [encode_append, List.append_assoc, hl, Specification.widthText]
  cases hwidth : spec.width with
  | none => exact ⟨c, l, rfl, List.mem_append_right _ hc⟩
  | some w =>
      cases w with
      | star => exact ⟨chr '*', _, rfl, by decide⟩
      | digits ds =>
          obtain ⟨d, ds', rfl, hd⟩ := hdigits ds hwidth
          have hstarts : ∀ d : Fin 10, d ≠ 0 → chr (Nat.digitChar d) ∈ widthStarts := by decide
          exact ⟨chr (Nat.digitChar d), _, rfl, hstarts d hd⟩

end

/-! ### The parts -/

/-- A flag is set. -/
def Flags.add (flags : Flags) : Printf.Flag → Flags
  | .minus => { flags with left := true }
  | .plus => { flags with plus := true }
  | .space => { flags with space := true }
  | .alternate => { flags with special := true }
  | .zero => { flags with zeropad := true }

theorem getFlags_flag (flags : Flags) (x : Printf.Flag) (fmt : List U8) :
    getFlags flags (chr x.char :: fmt) = getFlags (flags.add x) fmt := by
  cases x <;> rfl

theorem getFlags_end (flags : Flags) {fmt : List U8} (h : Begins widthStarts fmt) :
    getFlags flags fmt = .ok (flags, fmt) := by
  obtain ⟨c, rest, rfl, hc⟩ := h
  have hnone : ∀ c ∈ widthStarts, c ≠ chr '-' ∧ c ≠ chr '+' ∧ c ≠ chr ' ' ∧ c ≠ chr '#' ∧ c ≠ chr '0' := by
    simp [widthStarts, precisionStarts, lengthStarts, conversionStarts, chr]
  obtain ⟨hminus, hplus, hspace, halternate, hzero⟩ := hnone c hc
  rw [getFlags, if_neg hminus, if_neg hplus, if_neg hspace, if_neg halternate, if_neg hzero]

theorem getFlags_text (fl : List Printf.Flag) (flags : Flags) {fmt : List U8} (h : Begins widthStarts fmt) :
    getFlags flags (encode (fl.map Printf.Flag.char) ++ fmt) = .ok (fl.foldl Flags.add flags, fmt) := by
  induction fl generalizing flags with
  | nil => exact getFlags_end flags h
  | cons x fl ih =>
      rw [List.map_cons, encode_cons, List.cons_append, getFlags_flag, ih]
      rfl

/-- The flags of a text. -/
def Flags.asked (fl : List Printf.Flag) : Flags where
  zeropad := .zero ∈ fl
  sign := false
  plus := .plus ∈ fl
  space := .space ∈ fl
  left := .minus ∈ fl
  small := false
  special := .alternate ∈ fl
  wide := false

theorem foldl_add (fl : List Printf.Flag) : fl.foldl Flags.add Flags.none = Flags.asked fl := by
  induction fl using List.reverseRecOn with
  | nil => rfl
  | append_singleton fl x ih =>
      rw [List.foldl_append, ih]
      cases x <;> simp [Flags.add, Flags.asked]

theorem skipAtoi_end (i : CInt) {fmt : List U8} (h : Begins precisionStarts fmt) : skipAtoi i fmt = .ok (i, fmt) := by
  obtain ⟨c, rest, rfl, hc⟩ := h
  have hnone : ∀ c ∈ precisionStarts, isdigit c = false := by
    simp [precisionStarts, lengthStarts, conversionStarts, chr, isdigit]
  rw [skipAtoi, hnone c hc]
  rfl

/-- Digits are added up, in 32 bits. -/
theorem skipAtoi_digits (ds : List (Fin 10)) (n : Int) {fmt : List U8} (h : Begins precisionStarts fmt) :
    skipAtoi (BitVec.ofInt 32 n) (encode (ds.map fun d : Fin 10 => Nat.digitChar d.val) ++ fmt) =
      .ok (BitVec.ofInt 32 (ds.foldl (fun (n : Int) (d : Fin 10) => 10 * n + d.val) n), fmt) := by
  induction ds generalizing n with
  | nil => exact skipAtoi_end _ h
  | cons d ds ih =>
      have hdigit : ∀ d : Fin 10, isdigit (chr (Nat.digitChar d)) = true ∧
          (chr (Nat.digitChar d)).setWidth 32 = 48 + BitVec.ofNat 32 d := by decide
      have hnext : BitVec.ofInt 32 n * 10 + (chr (Nat.digitChar d)).setWidth 32 - 48 =
          BitVec.ofInt 32 (10 * n + d.val) := by
        rw [(hdigit d).2, BitVec.ofInt_add, BitVec.ofInt_mul, BitVec.ofInt_natCast, BitVec.mul_comm, BitVec.add_comm 48,
          ← BitVec.add_assoc, BitVec.add_sub_cancel]
        rfl
      rw [List.map_cons, encode_cons, List.cons_append, skipAtoi, if_pos (hdigit d).1, hnext, ih, List.foldl_cons]

/-- The arguments after those of an amount. -/
def VaList.skip (ap : VaList) : Option Amount → VaList
  | some .star => ap.rest
  | _ => ap

theorem getInt_none {fmt : List U8} (h : Begins precisionStarts fmt) (ap : VaList) : getInt fmt ap = .ok (0, fmt, ap) := by
  obtain ⟨c, rest, rfl, hc⟩ := h
  have hnone : ∀ c ∈ precisionStarts, ¬ isdigit c = true ∧ c ≠ chr '*' := by
    simp [precisionStarts, lengthStarts, conversionStarts, chr, isdigit]
  simp only [getInt, if_neg (hnone c hc).1, if_neg (hnone c hc).2]

theorem getInt_amount (am : Amount) {fmt : List U8} (h : Begins precisionStarts fmt) (ap : VaList) :
    getInt (encode am.text ++ fmt) ap = .ok (BitVec.ofInt 32 (am.value ap.int.toInt), fmt, ap.skip (some am)) := by
  cases am with
  | star =>
      rw [Amount.value, BitVec.ofInt_toInt]
      rfl
  | digits ds =>
      cases ds with
      | nil => exact getInt_none h ap
      | cons d ds =>
          have hdigit : ∀ d : Fin 10, isdigit (chr (Nat.digitChar d)) = true := by decide
          have hskip := skipAtoi_digits (d :: ds) 0 h
          rw [List.map_cons, encode_cons, List.cons_append] at hskip
          simp only [Amount.text, List.map_cons, encode_cons, List.cons_append, getInt, if_pos (hdigit d),
            show (0 : CInt) = BitVec.ofInt 32 0 from rfl, hskip]
          rfl

/-- The value of the field width. -/
def widthValue (spec : Printf.Specification) (ap : VaList) : Int :=
  (spec.width.map (Amount.value ap.int.toInt)).getD 0

theorem getInt_width (spec : Printf.Specification) {fmt : List U8} (h : Begins precisionStarts fmt) (ap : VaList) :
    getInt (encode spec.widthText ++ fmt) ap = .ok (BitVec.ofInt 32 (widthValue spec ap), fmt, ap.skip spec.width) := by
  unfold Printf.Specification.widthText widthValue
  cases spec.width with
  | none => exact getInt_none h ap
  | some am => exact getInt_amount am h ap

theorem toInt_ofInt {n : Int} (hlow : -2 ^ 31 ≤ n) (hhigh : n < 2 ^ 31) : (BitVec.ofInt 32 n).toInt = n := by
  rw [BitVec.toInt_ofInt]
  exact Int.bmod_eq_of_le (by omega) (by omega)

theorem toNat_ofInt_natAbs {n : Int} (hless : n.natAbs < 2 ^ 31) : (BitVec.ofInt 32 n.natAbs).toNat = n.natAbs := by
  rw [BitVec.ofInt_natCast, BitVec.toNat_ofNat, Nat.mod_eq_of_lt (by omega)]

theorem widthFlags_eq (flags : Flags) (negative : Bool) :
    (let flags := if negative then { flags with left := true } else flags
      if flags.left then { flags with zeropad := false } else flags) =
      { flags with left := flags.left || negative, zeropad := flags.zeropad && !(flags.left || negative) } := by
  obtain ⟨zeropad, sign, plus, space, left, small, special, wide⟩ := flags
  cases negative <;> cases left <;> simp

/-- A negative width is a width and the flag `-`, which takes the flag `0` off. -/
theorem getFieldWidth_text (spec : Printf.Specification) (flags : Flags) {fmt : List U8} (h : Begins precisionStarts fmt)
    (ap : VaList) (hless : (widthValue spec ap).natAbs < 2 ^ 31) :
    ∃ fieldWidth, getFieldWidth flags (encode spec.widthText ++ fmt) ap =
        .ok (fieldWidth, { flags with left := flags.left || decide (widthValue spec ap < 0)
                                      zeropad := flags.zeropad && !(flags.left || decide (widthValue spec ap < 0)) },
          fmt, ap.skip spec.width) ∧
      fieldWidth.toNat = (widthValue spec ap).natAbs := by
  have hint := getInt_width spec h ap
  generalize widthValue spec ap = w at hint hless
  have htoInt : (BitVec.ofInt 32 w).toInt = w := toInt_ofInt (by omega) (by omega)
  have hslt : (BitVec.ofInt 32 w).slt 0 = decide (w < 0) := by
    rw [BitVec.slt_eq_decide, htoInt]
    rfl
  refine ⟨if decide (w < 0) then -BitVec.ofInt 32 w else BitVec.ofInt 32 w, ?_, ?_⟩
  · rw [← widthFlags_eq]
    simp only [getFieldWidth, hint, bind, Except.bind, hslt, pure, Except.pure]
  · rw [← BitVec.ofInt_neg, ← toNat_ofInt_natAbs hless]
    split
    next hneg =>
      rw [decide_eq_true_eq] at hneg
      rw [show -w = (w.natAbs : Int) by omega]
    next hpos =>
      rw [decide_eq_true_eq] at hpos
      rw [show (w.natAbs : Int) = w by omega]

/-- The precision that is asked for. -/
def precisionValue (spec : Printf.Specification) (ap : VaList) : Option Nat :=
  (spec.precision.map (Amount.value ap.int.toInt)).bind fun p => if p < 0 then none else some p.natAbs

theorem le_value (am : Amount) (ap : VaList) : -2 ^ 31 ≤ am.value ap.int.toInt := by
  cases am with
  | star => exact BitVec.le_toInt ap.int
  | digits ds =>
      have hnonneg (n : Int) (hn : 0 ≤ n) : 0 ≤ ds.foldl (fun (n : Int) (d : Fin 10) => 10 * n + d.val) n := by
        induction ds generalizing n with
        | nil => exact hn
        | cons d ds ih => exact ih (10 * n + d.val) (by omega)
      exact le_trans (by decide) (hnonneg 0 le_rfl)

/-- A precision that is not negative takes the flag `0` off; a negative one is none. -/
theorem getPrecision_text (spec : Printf.Specification) (flags : Flags) {fmt : List U8} (h : Begins lengthStarts fmt)
    (ap : VaList) (hless : ∀ p ∈ precisionValue spec ap, p < 2 ^ 31) :
    ∃ precision, getPrecision flags (encode spec.precisionText ++ fmt) ap =
        .ok (precision, { flags with zeropad := flags.zeropad && (precisionValue spec ap).isNone }, fmt,
          ap.skip spec.precision) ∧
      PrecisionIs precision (precisionValue spec ap) := by
  unfold Printf.Specification.precisionText
  unfold precisionValue at hless ⊢
  generalize spec.precision = asked at hless ⊢
  cases asked with
  | none =>
      obtain ⟨c, rest, rfl, hc⟩ := h
      have hdot : ∀ c ∈ lengthStarts, c ≠ chr '.' := by simp [lengthStarts, conversionStarts, chr]
      refine ⟨-1, ?_, show (-1 : CInt).slt 0 = true by decide⟩
      simp only [Option.map_none, Option.getD_none, encode_nil, List.nil_append, getPrecision, if_neg (hdot c hc),
        Option.bind_none, Option.isNone_none, Bool.and_true]
      rfl
  | some am =>
      have hbegins : Begins precisionStarts fmt := by
        obtain ⟨c, rest, hfmt, hc⟩ := h
        exact ⟨c, rest, hfmt, List.mem_cons_of_mem _ hc⟩
      have hint := getInt_amount am hbegins ap
      have hlow := le_value am ap
      simp only [Option.map_some, Option.bind_some, Option.getD_some, encode_cons, List.cons_append] at hless ⊢
      generalize am.value ap.int.toInt = p at hint hlow hless
      have hdot : getPrecision flags (chr '.' :: (encode am.text ++ fmt)) ap =
          .ok (BitVec.ofInt 32 p, if (BitVec.ofInt 32 p).slt 0 then flags else { flags with zeropad := false }, fmt,
            ap.skip (some am)) := by
        simp only [getPrecision, if_true, hint, bind, Except.bind, pure, Except.pure]
      have hrange : p < 2 ^ 31 := by
        by_cases hneg : p < 0
        · omega
        · rw [if_neg hneg] at hless
          have := hless p.natAbs rfl
          omega
      have hslt : (BitVec.ofInt 32 p).slt 0 = decide (p < 0) := by
        rw [BitVec.slt_eq_decide, toInt_ofInt hlow hrange]
        rfl
      refine ⟨BitVec.ofInt 32 p, ?_, ?_⟩
      · rw [hdot, hslt]
        by_cases hneg : p < 0
        · simp [hneg]
        · simp [hneg]
      · by_cases hneg : p < 0
        · rw [if_pos hneg]
          exact hslt.trans (decide_eq_true hneg)
        · rw [if_neg hneg]
          refine ⟨hslt.trans (decide_eq_false hneg), ?_⟩
          rw [← toNat_ofInt_natAbs (n := p) (by omega), show (p.natAbs : Int) = p by omega]

def Qualifier.of : Printf.Length → Qualifier
  | .none => .none
  | .hh => .hh
  | .h => .h
  | .l => .l
  | .ll => .ll

theorem getQualifier_text (len : Printf.Length) {fmt : List U8} (h : Begins conversionStarts fmt) :
    getQualifier (encode len.text ++ fmt) = .ok (Qualifier.of len, fmt) := by
  obtain ⟨c, rest, rfl, hc⟩ := h
  have hnone : ∀ c ∈ conversionStarts, c ≠ chr 'h' ∧ c ≠ chr 'l' := by simp [conversionStarts, chr]
  obtain ⟨hh, hl⟩ := hnone c hc
  cases len with
  | none =>
      simp only [Printf.Length.text, encode_nil, List.nil_append, getQualifier, hh, hl, or_self, if_false, Qualifier.of]
  | hh => rfl
  | h =>
      have hfirst : getQualifier (chr 'h' :: c :: rest) =
          if c = chr 'h' then .ok (.hh, rest) else .ok (.h, c :: rest) := rfl
      exact hfirst.trans (if_neg hh)
  | l =>
      have hfirst : getQualifier (chr 'l' :: c :: rest) =
          if c = chr 'l' then .ok (.ll, rest) else .ok (.l, c :: rest) := rfl
      exact hfirst.trans (if_neg hl)
  | ll => rfl

/-! ### A whole specification -/

/-- The request of a specification in a call. -/
def requestOf (spec : Printf.Specification) (ap : VaList) : Request :=
  spec.request ap.int.toInt (ap.skip spec.width).int.toInt

/-- The arguments from the number on. -/
def VaList.number (ap : VaList) (spec : Printf.Specification) : VaList := (ap.skip spec.width).skip spec.precision

/-- The flags of a request, as they are parsed. -/
def Flags.parsed (req : Request) : Flags where
  zeropad := req.zero && !req.minus && req.precision.isNone
  sign := false
  plus := req.plus
  space := req.space
  left := req.minus
  small := false
  special := req.alternate
  wide := false

theorem getSpec_text (spec : Printf.Specification) (ap : VaList) (rest : List U8)
    (hwidth : (requestOf spec ap).width < 2 ^ 31) (hprecision : ∀ p ∈ (requestOf spec ap).precision, p < 2 ^ 31) :
    ∃ fieldWidth precision, getSpec (encode spec.text ++ rest) ap =
        .ok (⟨Flags.parsed (requestOf spec ap), fieldWidth, precision, Qualifier.of spec.length⟩,
          encode [spec.conv.char] ++ rest, ap.number spec) ∧
      fieldWidth.toNat = (requestOf spec ap).width ∧ PrecisionIs precision (requestOf spec ap).precision := by
  have hflags := getFlags_text spec.flags Flags.none (begins_width spec rest)
  obtain ⟨fieldWidth, hfieldWidth, hwidthEq⟩ :=
    getFieldWidth_text spec (Flags.asked spec.flags) (begins_precision spec rest) ap hwidth
  obtain ⟨precision, hprec, hprecisionIs⟩ := getPrecision_text spec
    { Flags.asked spec.flags with
      left := (Flags.asked spec.flags).left || decide (widthValue spec ap < 0)
      zeropad := (Flags.asked spec.flags).zeropad && !((Flags.asked spec.flags).left || decide (widthValue spec ap < 0)) }
    (begins_length spec rest) (ap.skip spec.width) hprecision
  have hqualifier := getQualifier_text spec.length (begins_conversion spec rest)
  refine ⟨fieldWidth, precision, ?_, hwidthEq, hprecisionIs⟩
  rw [foldl_add] at hflags
  simp only [Printf.Specification.text, encode_append, List.append_assoc] at hflags hfieldWidth hprec hqualifier ⊢
  simp only [getSpec, hflags, hfieldWidth, hprec, hqualifier, bind, Except.bind, pure, Except.pure]
  rfl

/-- The `switch` over the conversion characters of integers. -/
theorem convert_conversion (env : Strings) (req : Request) (fieldWidth precision : CInt) (qualifier : Qualifier)
    (arg : U64) :
    convert env ⟨Flags.parsed req, fieldWidth, precision, qualifier⟩ (chr req.conv.char) arg =
      some (convertNumber (Base.of req.conv) (Flags.of req) fieldWidth precision
        (getNumber req.conv.signed qualifier arg)) := by
  obtain ⟨minus, plus, space, alternate, zero, width, p, conv⟩ := req
  cases conv <;> simp [convert, Flags.parsed, Flags.of, Base.of, Printf.Conversion.char, Printf.Conversion.signed,
    Printf.Conversion.base, chr]

/-- `get_number` narrows the argument to the type that the specification names. -/
theorem getNumber_value (spec : Printf.Specification) (arg : U64) :
    IsValue spec.conv (getNumber spec.conv.signed (Qualifier.of spec.length) arg) (spec.value arg) := by
  unfold IsValue Printf.Specification.value
  generalize spec.length = len
  cases hsigned : spec.conv.signed with
  | true =>
      rw [if_pos rfl, if_pos rfl]
      cases len with
      | none => exact (BitVec.toInt_signExtend_of_le (by decide)).symm
      | hh => exact (BitVec.toInt_signExtend_of_le (by decide)).symm
      | h => exact (BitVec.toInt_signExtend_of_le (by decide)).symm
      | l => exact congrArg BitVec.toInt (BitVec.setWidth_eq arg)
      | ll => exact congrArg BitVec.toInt (BitVec.setWidth_eq arg)
  | false =>
      rw [if_neg (by decide), if_neg (by decide)]
      cases len with
      | none => exact congrArg Int.ofNat (BitVec.toNat_setWidth_of_le (by decide)).symm
      | hh => exact congrArg Int.ofNat (BitVec.toNat_setWidth_of_le (by decide)).symm
      | h => exact congrArg Int.ofNat (BitVec.toNat_setWidth_of_le (by decide)).symm
      | l => exact congrArg (fun num : U64 => (num.toNat : Int)) (BitVec.setWidth_eq arg)
      | ll => exact congrArg (fun num : U64 => (num.toNat : Int)) (BitVec.setWidth_eq arg)

/-- The value that a specification prints in a call. -/
def valueOf (spec : Printf.Specification) (ap : VaList) : Int := spec.value (ap.number spec 0)

/-- What is printed for a specification in a call. -/
def layoutOf (spec : Printf.Specification) (ap : VaList) : List Char :=
  (requestOf spec ap).layout Printf.digitsPrefix (valueOf spec ap)

theorem precision_lt {req : Request} {v : Int} (hcontent : (req.content Printf.digitsPrefix v).length < 2 ^ 31) :
    ∀ p ∈ req.precision, p < 2 ^ 31 := by
  intro p hp
  have hnumber := req.length_number v.natAbs
  rw [Option.mem_def.mp hp, Option.getD_some] at hnumber
  rw [Request.content, List.length_append] at hcontent
  omega

theorem directive_text (env : Strings) (spec : Printf.Specification) (ap : VaList) (rest : List U8)
    (hwidth : (requestOf spec ap).width < 2 ^ 31)
    (hcontent : ((requestOf spec ap).content Printf.digitsPrefix (valueOf spec ap)).length < 2 ^ 31) :
    directive env (encode spec.text ++ rest) ap =
      .ok (.puts ((layoutOf spec ap).map charPut) rest (ap.number spec).rest) := by
  obtain ⟨fieldWidth, precision, hspec, hfieldWidth, hprecision⟩ :=
    getSpec_text spec ap rest hwidth (precision_lt hcontent)
  have hconvert := convert_conversion env (requestOf spec ap) fieldWidth precision (Qualifier.of spec.length)
    (ap.number spec 0)
  have houtput := (convertNumber_shows (requestOf spec ap) hfieldWidth hwidth hprecision
    (getNumber_value spec (ap.number spec 0)) hcontent).output_eq hwidth hcontent
  simp only [directive, hspec, bind, Except.bind, encode_cons, encode_nil, List.cons_append, List.nil_append,
    show chr spec.conv.char = chr (requestOf spec ap).conv.char from rfl, hconvert]
  rw [show spec.conv.signed = (requestOf spec ap).conv.signed from rfl] at houtput
  rw [houtput]
  rfl

/-- No specification starts with a second `%`. -/
theorem text_ne_percent (spec : Printf.Specification) (rest : List U8) :
    ∃ d fmt, encode spec.text ++ rest = d :: fmt ∧ d ≠ chr '%' := by
  rw [Printf.Specification.text, encode_append, List.append_assoc]
  cases spec.flags with
  | nil =>
      obtain ⟨d, fmt, hfmt, hd⟩ := begins_width spec rest
      have hpercent : ∀ d ∈ widthStarts, d ≠ chr '%' := by
        simp [widthStarts, precisionStarts, lengthStarts, conversionStarts, chr]
      exact ⟨d, fmt, hfmt, hpercent d hd⟩
  | cons x fl =>
      refine ⟨chr x.char, _, rfl, ?_⟩
      cases x <;> decide

theorem formatPass_text (env : Strings) (spec : Printf.Specification) (ap : VaList) (rest : List U8)
    (hwidth : (requestOf spec ap).width < 2 ^ 31)
    (hcontent : ((requestOf spec ap).content Printf.digitsPrefix (valueOf spec ap)).length < 2 ^ 31) {σ : Type}
    (put : Put → σ → σ) (out : σ) :
    formatPass env put ⟨chr '%' :: (encode spec.text ++ rest), ap, out⟩ =
      .next ⟨rest, (ap.number spec).rest, putAll put ((layoutOf spec ap).map charPut) out⟩ := by
  have hdirective := directive_text env spec ap rest hwidth hcontent
  obtain ⟨d, fmt, hfmt, hd⟩ := text_ne_percent spec rest
  rw [hfmt] at hdirective ⊢
  have hpercent : chr '%' ≠ 0 := by decide
  simp only [formatPass, if_neg hpercent, ne_eq, not_true_eq_false, if_false, if_neg hd, hdirective]

/-! ### Whole formats -/

theorem mem_amount_ne_zero (am : Amount) : ∀ c ∈ am.text, chr c ≠ 0 := by
  intro c hc
  cases am with
  | star =>
      rw [List.mem_singleton.mp hc]
      decide
  | digits ds =>
      obtain ⟨d, -, rfl⟩ := List.mem_map.mp hc
      have hdigit : ∀ d : Fin 10, chr (Nat.digitChar d.val) ≠ 0 := by decide
      exact hdigit d

/-- A specification has no NUL. -/
theorem mem_text_ne_zero (spec : Printf.Specification) : ∀ c ∈ spec.text, chr c ≠ 0 := by
  intro c hc
  simp only [Printf.Specification.text, List.mem_append] at hc
  rcases hc with hflag | hwidth | hprecision | hlength | hconv
  · obtain ⟨x, -, rfl⟩ := List.mem_map.mp hflag
    cases x <;> decide
  · unfold Printf.Specification.widthText at hwidth
    cases hw : spec.width with
    | none =>
        rw [hw] at hwidth
        cases hwidth
    | some am =>
        rw [hw] at hwidth
        exact mem_amount_ne_zero am c hwidth
  · unfold Printf.Specification.precisionText at hprecision
    cases hp : spec.precision with
    | none =>
        rw [hp] at hprecision
        cases hprecision
    | some am =>
        rw [hp] at hprecision
        rcases List.mem_cons.mp hprecision with rfl | hmem
        · decide
        · exact mem_amount_ne_zero am c hmem
  · have hletter : c = 'h' ∨ c = 'l' := by
      generalize spec.length = len at hlength
      cases len <;> simp_all [Printf.Length.text]
    rcases hletter with rfl | rfl
    · decide
    · decide
  · rw [List.mem_singleton.mp hconv]
    generalize spec.conv = conv
    cases conv <;> decide

theorem formatOf_noNul (spec : Printf.Specification) (rest : CString) :
    ∀ c ∈ chr '%' :: (encode spec.text ++ rest.bytes), c ≠ 0 := by
  intro c hc
  rcases List.mem_cons.mp hc with rfl | hmem
  · decide
  · rcases List.mem_append.mp hmem with htext | hrest
    · obtain ⟨x, hx, rfl⟩ := List.mem_map.mp htext
      exact mem_text_ne_zero spec x hx
    · exact rest.noNul c hrest

/-- A format that starts with a specification. -/
def formatOf (spec : Printf.Specification) (rest : CString) : CString :=
  ⟨chr '%' :: (encode spec.text ++ rest.bytes), formatOf_noNul spec rest⟩

theorem octets_charPut (l : List Char) : (l.map charPut).flatMap Put.octets = encode l := by
  induction l with
  | nil => rfl
  | cons c l ih => rw [List.map_cons, List.flatMap_cons, ih]; rfl

/-- **Integer conversions.** In every pass of the loop over the format, and in the output of a format that starts with
it, an integer conversion prints the layout of its value, as wide as its field or its content; it is the standard's
layout except for the number 0 with a prefix, which is printed when the number has digits. -/
theorem vsnprintf_layout (env : Strings) (spec : Printf.Specification) (ap : VaList)
    (hwidth : (requestOf spec ap).width < 2 ^ 31)
    (hcontent : ((requestOf spec ap).content Printf.digitsPrefix (valueOf spec ap)).length < 2 ^ 31) :
    (∀ (rest : List U8) {σ : Type} (put : Put → σ → σ) (out : σ),
        formatPass env put ⟨chr '%' :: (encode spec.text ++ rest), ap, out⟩ =
          .next ⟨rest, (ap.number spec).rest, putAll put ((layoutOf spec ap).map charPut) out⟩) ∧
      (∀ rest : CString, fullOutput env (formatOf spec rest) ap =
        encode (layoutOf spec ap) ++ fullOutput env rest (ap.number spec).rest) ∧
      (layoutOf spec ap).length = max (requestOf spec ap).width
        ((requestOf spec ap).content Printf.digitsPrefix (valueOf spec ap)).length ∧
      (¬ ((requestOf spec ap).alternate ∧ spec.conv.hex ∧ valueOf spec ap = 0 ∧ (requestOf spec ap).number 0 ≠ []) →
        layoutOf spec ap = (requestOf spec ap).layout Printf.standardPrefix (valueOf spec ap)) := by
  have hpass (rest : List U8) {σ : Type} (put : Put → σ → σ) (out : σ) :=
    formatPass_text env spec ap rest hwidth hcontent put out
  refine ⟨hpass, fun rest => ?_, Request.length_layout _ _ _, Request.layout_standard _⟩
  have hputs : puts env (formatOf spec rest) ap =
      (layoutOf spec ap).map charPut ++ puts env rest (ap.number spec).rest := by
    apply puts_of_pass
    · intro σ put out
      rw [formatOf, List.cons_append, List.append_assoc]
      exact hpass _ put out
    · simp only [formatOf, List.length_cons, List.length_append]
      omega
  rw [fullOutput, hputs, List.flatMap_append, octets_charPut]
  rfl

theorem eight_widthDigits (l : List (Fin 10)) (h : some (Amount.digits [8]) = some (.digits l)) :
    ∃ d l', l = d :: l' ∧ d ≠ 0 := by
  cases h
  exact ⟨8, [], rfl, by decide⟩

/-- `%#08hx`. -/
def shortHex : Printf.Specification where
  flags := [.alternate, .zero]
  width := some (.digits [8])
  precision := none
  length := .h
  conv := .x
  widthDigits := eight_widthDigits

/-- `0x1beef` is narrowed to `0xbeef`, and zeros fill the field behind the prefix. -/
theorem vsnprintf_layout_hex :
    fullOutput emptyStrings (formatOf shortHex ⟨[], nil_noNul⟩) (fun _ => 0x1beef) =
      encode ['0', 'x', '0', '0', 'b', 'e', 'e', 'f'] := by
  have hlayout : layoutOf shortHex (fun _ => 0x1beef) = ['0', 'x', '0', '0', 'b', 'e', 'e', 'f'] := by decide +kernel
  have hrest : fullOutput emptyStrings ⟨[], nil_noNul⟩ (VaList.number (fun _ => 0x1beef) shortHex).rest = [] := by
    decide +kernel
  have houtput := (vsnprintf_layout emptyStrings shortHex (fun _ => 0x1beef) (by decide +kernel) (by decide +kernel)).2.1
    ⟨[], nil_noNul⟩
  rw [houtput, hlayout, hrest, List.append_nil]

end XosKernel.Vsnprintf
