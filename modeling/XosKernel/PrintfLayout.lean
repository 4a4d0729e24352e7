import Mathlib.Data.Nat.Digits.Lemmas

/-! The layout of an integer conversion of C's `printf`: what a conversion specification asks for and what is printed
for a value. `layout` follows the C standard except for one parameter, the test for the prefix of a hexadecimal
number. -/

namespace XosKernel.Printf

inductive Flag where
  | minus
  | plus
  | space
  | alternate
  | zero
  deriving DecidableEq

def Flag.char : Flag → Char
  | minus => '-'
  | plus => '+'
  | space => ' '
  | alternate => '#'
  | zero => '0'

/-- The length modifiers. -/
inductive Length where
  | none
  | hh
  | h
  | l
  | ll
  deriving DecidableEq

def Length.text : Length → List Char
  | none => []
  | hh => ['h', 'h']
  | h => ['h']
  | l => ['l']
  | ll => ['l', 'l']

/-- The width of the argument's type. -/
def Length.bits : Length → Nat
  | none => 32
  | hh => 8
  | h => 16
  | l => 64
  | ll => 64

inductive Conversion where
  | d
  | i
  | o
  | u
  | x
  | X
  deriving DecidableEq

namespace Conversion

def char : Conversion → Char
  | d => 'd'
  | i => 'i'
  | o => 'o'
  | u => 'u'
  | x => 'x'
  | X => 'X'

def signed (conv : Conversion) : Bool := conv = d || conv = i

def hex (conv : Conversion) : Bool := conv = x || conv = X

def base : Conversion → Nat
  | d => 10
  | i => 10
  | o => 8
  | u => 10
  | x => 16
  | X => 16

end Conversion

/-- A field width or a precision: digits of the format, or an argument. -/
inductive Amount where
  | digits (l : List (Fin 10))
  | star
  deriving DecidableEq

def Amount.text : Amount → List Char
  | digits l => l.map fun d : Fin 10 => Nat.digitChar d.val
  | star => ['*']

/-- The amount when the next argument is `arg`. -/
def Amount.value (arg : Int) : Amount → Int
  | digits l => l.foldl (fun (n : Int) (d : Fin 10) => 10 * n + d.val) 0
  | star => arg

/-- A conversion specification of an integer. The digits of a width do not start with 0, which is a flag. -/
structure Specification where
  flags : List Flag
  width : Option Amount
  precision : Option Amount
  length : Length
  conv : Conversion
  widthDigits : ∀ l, width = some (.digits l) → ∃ d l', l = d :: l' ∧ d ≠ 0

namespace Specification

def widthText (spec : Specification) : List Char := (spec.width.map Amount.text).getD []

def precisionText (spec : Specification) : List Char := (spec.precision.map fun p => '.' :: p.text).getD []

/-- The specification after its `%`. -/
def text (spec : Specification) : List Char :=
  spec.flags.map Flag.char ++ (spec.widthText ++ (spec.precisionText ++ (spec.length.text ++ [spec.conv.char])))

end Specification

/-- What is asked for: a negative width is a width and the flag `-`, a negative precision is none. -/
structure Request where
  minus : Bool
  plus : Bool
  space : Bool
  alternate : Bool
  zero : Bool
  width : Nat
  precision : Option Nat
  conv : Conversion

/-- The request of a specification, for the arguments that its stars stand for. -/
def Specification.request (spec : Specification) (width precision : Int) : Request :=
  let width := (spec.width.map (Amount.value width)).getD 0
  { minus := .minus ∈ spec.flags || width < 0
    plus := .plus ∈ spec.flags
    space := .space ∈ spec.flags
    alternate := .alternate ∈ spec.flags
    zero := .zero ∈ spec.flags
    width := width.natAbs
    precision := (spec.precision.map (Amount.value precision)).bind fun p => if p < 0 then none else some p.natAbs
    conv := spec.conv }

/-- The value of an argument, narrowed to the type that the specification names. -/
def Specification.value (spec : Specification) (arg : BitVec 64) : Int :=
  if spec.conv.signed then (arg.setWidth spec.length.bits).toInt else (arg.setWidth spec.length.bits).toNat

/-! ### The layout -/

/-- A digit, in the case of the conversion. -/
def digit (conv : Conversion) (d : Nat) : Char := if conv = .X then (Nat.digitChar d).toUpper else Nat.digitChar d

/-- The digits of a number, none for 0. -/
def digits (conv : Conversion) (n : Nat) : List Char := ((Nat.digits conv.base n).reverse).map (digit conv)

/-- A number has no zeros in front. -/
theorem getLast?_digits_ne_zero {b n d : Nat} (h : d ∈ (Nat.digits b n).getLast?) : d ≠ 0 := by
  by_cases hn : n = 0
  · simp [hn] at h
  · have hne : Nat.digits b n ≠ [] := Nat.digits_ne_nil_iff_ne_zero.mpr hn
    rw [List.getLast?_eq_some_getLast hne, Option.mem_some_iff] at h
    exact h ▸ Nat.getLast_digit_ne_zero b hn

theorem base_bounds (conv : Conversion) : 8 ≤ conv.base ∧ conv.base ≤ 16 := by
  cases conv <;> decide

/-- A digit that is not 0 does not read 0. -/
theorem digit_ne_zero {conv : Conversion} {d : Nat} (hd : d < 16) (hne : d ≠ 0) : digit conv d ≠ '0' := by
  have hchar : ∀ d < 16, d ≠ 0 → Nat.digitChar d ≠ '0' ∧ (Nat.digitChar d).toUpper ≠ '0' := by decide
  unfold digit
  split
  · exact (hchar d hd hne).2
  · exact (hchar d hd hne).1

theorem head?_digits (conv : Conversion) (n : Nat) : (digits conv n).head? ≠ some '0' := by
  intro h
  rw [digits, List.head?_map, List.head?_reverse, Option.map_eq_some_iff] at h
  obtain ⟨d, hd, hzero⟩ := h
  have hbase := base_bounds conv
  have hlt : d < conv.base := Nat.digits_lt_base (by omega) (List.mem_of_getLast? hd)
  exact digit_ne_zero (by omega) (getLast?_digits_ne_zero hd) hzero

/-- The first digit is no zero when the precision adds none. -/
theorem head?_zeros_iff (conv : Conversion) (n p : Nat) :
    (List.replicate (p - (digits conv n).length) '0' ++ digits conv n).head? ≠ some '0' ↔
      p ≤ (digits conv n).length := by
  rcases Nat.eq_zero_or_pos (p - (digits conv n).length) with h | h
  · rw [h, List.replicate_zero, List.nil_append]
    exact ⟨fun _ => by omega, fun _ => head?_digits conv n⟩
  · obtain ⟨k, hk⟩ := Nat.exists_eq_add_of_lt h
    rw [hk, Nat.zero_add, List.replicate_succ, List.cons_append, List.head?_cons]
    simp only [ne_eq, not_true_eq_false, false_iff]
    omega

namespace Request

variable (req : Request)

/-- The digits with those that the precision and the flag `#` of an octal number add. -/
def number (n : Nat) : List Char :=
  let ds := digits req.conv n
  let ds := List.replicate (req.precision.getD 1 - ds.length) '0' ++ ds
  if req.alternate ∧ req.conv = .o ∧ ds.head? ≠ some '0' then '0' :: ds else ds

def sign (v : Int) : List Char :=
  if ¬ req.conv.signed then []
  else if v < 0 then ['-']
  else if req.plus then ['+']
  else if req.space then [' ']
  else []

/-- The prefix of a hexadecimal number, when `prefixed` holds of it and its digits. -/
def basePrefix (prefixed : Nat → List Char → Bool) (n : Nat) : List Char :=
  if req.alternate ∧ req.conv.hex ∧ prefixed n (req.number n) then ['0', req.conv.char] else []

/-- The sign or the prefix, and the digits. -/
def content (prefixed : Nat → List Char → Bool) (v : Int) : List Char :=
  (req.sign v ++ req.basePrefix prefixed v.natAbs) ++ req.number v.natAbs

/-- The content in its field: spaces behind it or in front of it, or zeros in front of the digits. -/
def layout (prefixed : Nat → List Char → Bool) (v : Int) : List Char :=
  let fill := req.width - (req.content prefixed v).length
  if req.minus then req.content prefixed v ++ List.replicate fill ' '
  else if req.zero ∧ req.precision = none then
    (req.sign v ++ req.basePrefix prefixed v.natAbs) ++ (List.replicate fill '0' ++ req.number v.natAbs)
  else List.replicate fill ' ' ++ req.content prefixed v

/-- What the precision and the flag `#` add are zeros. -/
theorem number_eq (n : Nat) :
    req.number n = List.replicate (req.precision.getD 1 - (digits req.conv n).length +
      if req.alternate ∧ req.conv = .o ∧ req.precision.getD 1 ≤ (digits req.conv n).length then 1 else 0) '0' ++
        digits req.conv n := by
  have hhead := head?_zeros_iff req.conv n (req.precision.getD 1)
  simp only [number, hhead]
  split
  next h =>
    rw [Nat.sub_eq_zero_of_le h.2.2]
    rfl
  next h => rfl

theorem length_number (n : Nat) :
    (req.number n).length = max (req.precision.getD 1) (digits req.conv n).length +
      if req.alternate ∧ req.conv = .o ∧ req.precision.getD 1 ≤ (digits req.conv n).length then 1 else 0 := by
  rw [number_eq, List.length_append, List.length_replicate]
  omega

/-- The digits in front are zeros. -/
theorem number_eq_zeros (n : Nat) :
    req.number n = List.replicate ((req.number n).length - (digits req.conv n).length) '0' ++ digits req.conv n := by
  have hlength := req.number_eq n
  generalize (req.precision.getD 1 - (digits req.conv n).length + _) = k at hlength
  rw [hlength, List.length_append, List.length_replicate, Nat.add_sub_cancel]

/-- The field is as wide as it was asked for, or as its content. -/
theorem length_layout (prefixed : Nat → List Char → Bool) (v : Int) :
    (req.layout prefixed v).length = max req.width (req.content prefixed v).length := by
  have hcontent : (req.content prefixed v).length =
      (req.sign v).length + (req.basePrefix prefixed v.natAbs).length + (req.number v.natAbs).length := by
    rw [content, List.length_append, List.length_append]
  unfold layout
  dsimp only
  split_ifs
  · rw [List.length_append, List.length_replicate]
    omega
  · rw [List.length_append, List.length_append, List.length_append, List.length_replicate]
    omega
  · rw [List.length_append, List.length_replicate]
    omega

end Request

/-- In standard C, a nonzero number is prefixed. -/
def standardPrefix (n : Nat) (_ : List Char) : Bool := n ≠ 0

/-- A number that has digits is prefixed. -/
def digitsPrefix (_ : Nat) (ds : List Char) : Bool := ds ≠ []

theorem digits_ne_nil {conv : Conversion} {n : Nat} (hn : n ≠ 0) : digits conv n ≠ [] := by
  rw [digits, ne_eq, List.map_eq_nil_iff, List.reverse_eq_nil_iff]
  exact Nat.digits_ne_nil_iff_ne_zero.mpr hn

theorem Request.number_ne_nil (req : Request) {n : Nat} (hn : n ≠ 0) : req.number n ≠ [] := by
  rw [number_eq_zeros]
  exact List.append_ne_nil_of_right_ne_nil _ (digits_ne_nil hn)

/-- The two tests part on the number 0 alone, when it has digits. -/
theorem Request.layout_standard (req : Request) {v : Int}
    (h : ¬ (req.alternate ∧ req.conv.hex ∧ v = 0 ∧ req.number 0 ≠ [])) :
    req.layout digitsPrefix v = req.layout standardPrefix v := by
  have hbasePrefix : req.basePrefix digitsPrefix v.natAbs = req.basePrefix standardPrefix v.natAbs := by
    unfold basePrefix digitsPrefix standardPrefix
    by_cases hv : v = 0
    · subst hv
      simp only [Int.natAbs_zero, ne_eq, not_true_eq_false, decide_false, Bool.false_eq_true, and_false, if_false]
      rw [if_neg]
      rintro ⟨halternate, hhex, hne⟩
      exact h ⟨halternate, hhex, rfl, of_decide_eq_true hne⟩
    · have hne := Int.natAbs_ne_zero.mpr hv
      simp [hne, req.number_ne_nil hne]
  unfold layout content
  rw [hbasePrefix]

end XosKernel.Printf
