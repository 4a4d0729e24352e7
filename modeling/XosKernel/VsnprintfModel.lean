import XosKernel.LoopRules
import XosKernel.ByteMemory

/-! `vsnprintf` of the EFI stub. A format is the list of its bytes from the pointer `fmt` on, its NUL included, so that
reading past the NUL is reading the empty list. Arguments are 64-bit slots. A conversion is a list of `PUTC`s,
which are carried out one by one on the buffer. `int` is 32 bits and `long` is 64 bits wide, and both wrap. -/

namespace XosKernel.Vsnprintf

open Memory

abbrev U8 := BitVec 8

abbrev U16 := BitVec 16

abbrev U32 := BitVec 32

abbrev U64 := BitVec 64

/-- `int`. -/
abbrev CInt := BitVec 32

def intMax : CInt := 0x7fffffff

def chr (c : Char) : U8 := BitVec.ofNat 8 c.toNat

/-- What keeps a call from returning: it reads the format past its NUL, or it never ends. -/
inductive Stuck where
  | pastNul
  | endless
  deriving DecidableEq

/-- The slots of a `va_list` from the next argument on. Those after the last argument are arbitrary. -/
abbrev VaList := Nat → U64

def VaList.rest (ap : VaList) : VaList := fun n => ap (n + 1)

def VaList.int (ap : VaList) : CInt := (ap 0).setWidth 32

/-! ### Strings -/

/-- A string with a NUL behind it. -/
structure CString where
  bytes : List U8
  noNul : ∀ b ∈ bytes, b ≠ 0

/-- A string of UTF-16 units with a zero behind it. -/
structure WString where
  units : List U16
  noNul : ∀ u ∈ units, u ≠ 0

/-- The strings that the pointer arguments point to. -/
structure Strings where
  str : U64 → CString
  wstr : U64 → WString

/-- `strnlen`, which computes `strlen` in 32 bits. -/
def strnlen (s : List U8) (max : U32) : U32 :=
  let len := BitVec.ofNat 32 s.length
  if len ≥ max then max else len

/-- `clen` of `utf16s_utf8nlen` for the unit `c0`. -/
def unitLen (c0 : U16) : U64 := 1 + (if c0 ≥ 0x80 then 1 else 0) + (if c0 ≥ 0x800 then 1 else 0)

/-- `utf16s_utf8nlen`, with `len` octets counted so far. Behind the units is a zero. -/
def utf16sUtf8nlen (maxlen : U64) (len : U64) : List U16 → U64
  | [] => len
  | [c0] =>
      if ¬ len < maxlen ∨ c0 = 0 then len
      else if len + unitLen c0 > maxlen then len
      else if c0 &&& 0xfc00 = 0xd800 ∧ len + unitLen c0 = maxlen then len
      else len + unitLen c0
  | c0 :: c1 :: s =>
      if ¬ len < maxlen ∨ c0 = 0 then len
      else if len + unitLen c0 > maxlen then len
      else if c0 &&& 0xfc00 = 0xd800 then
        if len + unitLen c0 = maxlen then len
        else if c1 &&& 0xfc00 = 0xdc00 then utf16sUtf8nlen maxlen (len + (unitLen c0 + 1)) s
        else utf16sUtf8nlen maxlen (len + unitLen c0) (c1 :: s)
      else utf16sUtf8nlen maxlen (len + unitLen c0) (c1 :: s)

/-- The character of a surrogate pair. -/
def surrogatePair (c0 c1 : U16) : U32 :=
  (0x10000#32 - 0xd800#32 <<< 10 - 0xdc00#32) + c0.setWidth 32 <<< 10 + c1.setWidth 32

/-- `utf16_to_utf32`, with the units that follow the character. -/
def utf16ToUtf32 : List U16 → U32 × List U16
  | [] => (0, [])
  | c0 :: s =>
      if c0 &&& 0xf800 ≠ 0xd800 then (c0.setWidth 32, s)
      else if c0 &&& 0x0400 ≠ 0 then (0xfffd, s)
      else
        match s with
        | [] => (0xfffd, [])
        | c1 :: s' =>
            if c1 &&& 0xfc00 ≠ 0xdc00 then (0xfffd, s)
            else (surrogatePair c0 c1, s')

/-! ### Writing -/

/-- `PUTC` of an octet, or a character of several octets. -/
inductive Put where
  | octet (c : U8)
  | wide (c32 : U32)
  deriving DecidableEq

/-- The buffer and `pos`. -/
structure Buf where
  buf : Mem 64
  pos : U64

def Buf.putc (size : U64) (c : U8) (b : Buf) : Buf :=
  { buf := if b.pos < size then store8 b.buf b.pos c else b.buf, pos := b.pos + 1 }

/-- The number of trailing octets. -/
def trailing (c32 : U32) : Nat := 1 + (if c32 ≥ 0x800 then 1 else 0) + (if c32 ≥ 0x10000 then 1 else 0)

/-- `for (s8 += clen; clen; --clen, c32 >>= 6) *s8-- = 0x80 | (c32 & 0x3f)`, from `s8 + clen` on, with the rest of
`c32`. -/
def putTrailing (s8 : U64) : Nat → U32 → Mem 64 → Mem 64 × U32
  | 0, c32, m => (m, c32)
  | clen + 1, c32, m =>
      putTrailing s8 clen (c32 >>> 6)
        (store8 m (s8 + BitVec.ofNat 64 (clen + 1)) (0x80 ||| (c32 &&& 0x3f).setWidth 8))

/-- The high bits of the leading octet. -/
def leading (clen : Nat) : U8 := ((0xf00 : U32) >>> 1 >>> clen).setWidth 8

/-- A character of several octets. -/
def Buf.putWide (size : U64) (c32 : U32) (b : Buf) : Buf :=
  let clen := trailing c32
  let s8 := b.pos
  let b := b.putc size 0
  let b := { b with pos := b.pos + BitVec.ofNat 64 clen }
  if b.pos ≥ size then b
  else
    let t := putTrailing s8 clen c32 (store8 b.buf s8 (leading clen))
    { b with buf := store8 t.1 s8 (t.1 s8 ||| t.2.setWidth 8) }

def Put.exec (size : U64) : Put → Buf → Buf
  | octet c => Buf.putc size c
  | wide c32 => Buf.putWide size c32

/-! ### Numbers -/

/-- `put_dec_full4`: `n` more digits and the last one, which are put before those at `end`. -/
def putDecDigits : Nat → U32 → List U8 → List U8
  | 0, r, s => (48 + r.setWidth 8) :: s
  | n + 1, r, s =>
      let q := (r * 0xccd) >>> 15
      putDecDigits n q ((48 + (r - q * 10).setWidth 8) :: s)

def putDecFull4 (r : U32) (s : List U8) : List U8 := putDecDigits 3 r s

def putDecHelper4 (x : U32) (s : List U8) : U32 × List U8 :=
  let q := ((x.setWidth 64 * 0x346DC5D7 : U64) >>> 43).setWidth 32
  (q, putDecFull4 (x - q * 10000) s)

def putDec (n : U64) : List U8 :=
  let d1 : U32 := n.setWidth 32 >>> 16
  let h : U32 := (n >>> 32).setWidth 32
  let d2 := h &&& 0xffff
  let d3 := h >>> 16
  let q := 656 * d3 + 7296 * d2 + 5536 * d1 + (n.setWidth 32 &&& 0xffff)
  let r := putDecHelper4 q []
  let r := putDecHelper4 (r.1 + (7671 * d3 + 9496 * d2 + 6 * d1)) r.2
  let r := putDecHelper4 (r.1 + (4749 * d3 + 42 * d2)) r.2
  let r := putDecHelper4 (r.1 + 281 * d3) r.2
  (putDecFull4 r.1 r.2).dropWhile (· = chr '0')

/-- The loops of `number`: `for (; num != 0; num >>= shift) *--end = …`. A number has at most 64 digits. -/
def putDigits (shift : Nat) (digit : U64 → U8) : Nat → U64 → List U8 → List U8
  | 0, _, s => s
  | n + 1, num, s => if num ≠ 0 then putDigits shift digit n (num >>> shift) (digit num :: s) else s

inductive Base where
  | octal
  | decimal
  | hexadecimal
  deriving DecidableEq

/-- `digits[d]`. -/
def hexDigit (d : U64) : U8 := if d < 10 then 48 + d.setWidth 8 else 55 + d.setWidth 8

/-- `number`: the digits of a number, none for 0. -/
def number (num : U64) (base : Base) (locase : U8) : List U8 :=
  match base with
  | .decimal => if num ≠ 0 then putDec num else []
  | .octal => putDigits 3 (fun num => 48 + (num &&& 7).setWidth 8) 64 num []
  | .hexadecimal => putDigits 4 (fun num => hexDigit (num &&& 0xf) ||| locase) 64 num []

/-! ### Conversion specifications -/

structure Flags where
  zeropad : Bool
  sign : Bool
  plus : Bool
  space : Bool
  left : Bool
  small : Bool
  special : Bool
  wide : Bool
  deriving DecidableEq

def Flags.none : Flags := ⟨false, false, false, false, false, false, false, false⟩

/-- `flags & SMALL`. -/
def Flags.locase (flags : Flags) : U8 := if flags.small then 0x20 else 0

/-- `flags & LEFT`. -/
def Flags.onlyLeft (flags : Flags) : Flags := { Flags.none with left := flags.left }

/-- `flags &= ~SPECIAL`, unless the prefix is kept. -/
def Flags.keepSpecial (flags : Flags) (keep : Bool) : Flags :=
  if flags.special ∧ ¬ keep then { flags with special := false } else flags

inductive Qualifier where
  | none
  | h
  | hh
  | l
  | ll
  deriving DecidableEq

def isdigit (c : U8) : Bool := chr '0' ≤ c && c ≤ chr '9'

/-- `skip_atoi`, with the value `i` so far. -/
def skipAtoi (i : CInt) : List U8 → Except Stuck (CInt × List U8)
  | [] => .error .pastNul
  | c :: fmt => if isdigit c then skipAtoi (i * 10 + c.setWidth 32 - 48) fmt else .ok (i, c :: fmt)

def getFlags (flags : Flags) : List U8 → Except Stuck (Flags × List U8)
  | [] => .error .pastNul
  | c :: fmt =>
      if c = chr '-' then getFlags { flags with left := true } fmt
      else if c = chr '+' then getFlags { flags with plus := true } fmt
      else if c = chr ' ' then getFlags { flags with space := true } fmt
      else if c = chr '#' then getFlags { flags with special := true } fmt
      else if c = chr '0' then getFlags { flags with zeropad := true } fmt
      else .ok (flags, c :: fmt)

def getInt (fmt : List U8) (ap : VaList) : Except Stuck (CInt × List U8 × VaList) :=
  match fmt with
  | [] => .error .pastNul
  | c :: rest =>
      if isdigit c then do
        let (i, fmt) ← skipAtoi 0 fmt
        return (i, fmt, ap)
      else if c = chr '*' then .ok (ap.int, rest, ap.rest)
      else .ok (0, fmt, ap)

/-- The conversion qualifier: one or two of `h` or of `l`. -/
def getQualifier (fmt : List U8) : Except Stuck (Qualifier × List U8) :=
  match fmt with
  | [] => .error .pastNul
  | c :: rest =>
      if c = chr 'h' ∨ c = chr 'l' then
        match rest with
        | [] => .error .pastNul
        | d :: rest' =>
            if d = c then .ok (if c = chr 'h' then .hh else .ll, rest')
            else .ok (if c = chr 'h' then .h else .l, rest)
      else .ok (.none, fmt)

/-- What stands between `%` and the conversion character. -/
structure Spec where
  flags : Flags
  fieldWidth : CInt
  precision : CInt
  qualifier : Qualifier

/-- The field width and the flags: a negative width is the flag `-` and a width. -/
def getFieldWidth (flags : Flags) (fmt : List U8) (ap : VaList) :
    Except Stuck (CInt × Flags × List U8 × VaList) := do
  let (fieldWidth, fmt, ap) ← getInt fmt ap
  let negative := fieldWidth.slt 0
  let fieldWidth := if negative then -fieldWidth else fieldWidth
  let flags := if negative then { flags with left := true } else flags
  let flags := if flags.left then { flags with zeropad := false } else flags
  return (fieldWidth, flags, fmt, ap)

def getPrecision (flags : Flags) (fmt : List U8) (ap : VaList) : Except Stuck (CInt × Flags × List U8 × VaList) :=
  match fmt with
  | [] => .error .pastNul
  | c :: rest =>
      if c = chr '.' then do
        let (precision, fmt, ap) ← getInt rest ap
        let flags := if precision.slt 0 then flags else { flags with zeropad := false }
        return (precision, flags, fmt, ap)
      else .ok (-1, flags, fmt, ap)

/-- The part of a conversion specification before its character. -/
def getSpec (fmt : List U8) (ap : VaList) : Except Stuck (Spec × List U8 × VaList) := do
  let (flags, fmt) ← getFlags Flags.none fmt
  let (fieldWidth, flags, fmt, ap) ← getFieldWidth flags fmt ap
  let (precision, flags, fmt, ap) ← getPrecision flags fmt ap
  let (qualifier, fmt) ← getQualifier fmt
  return (⟨flags, fieldWidth, precision, qualifier⟩, fmt, ap)

/-! ### Conversions -/

/-- What `s` points to. -/
inductive Text where
  | octets (s : List U8)
  | units (ws : List U16)

/-- The variables at the label `output`. A `sign` of 0 is none. -/
structure Field where
  flags : Flags
  fieldWidth : CInt
  precision : CInt
  sign : U8
  len : U64
  text : Text

/-- From the label `wstring` to `output`. -/
def wstring (flags : Flags) (fieldWidth precision : CInt) (ws : List U16) : Field :=
  let len := utf16sUtf8nlen (precision.signExtend 64) 0 ws
  { flags := { flags with wide := true }, fieldWidth, precision := len.setWidth 32, sign := 0, len, text := .units ws }

/-- `case 'c'`. -/
def convertChar (spec : Spec) (arg : U64) : Field :=
  let flags := spec.flags.onlyLeft
  if spec.qualifier = .l then
    let c : U16 := arg.setWidth 16
    wstring flags spec.fieldWidth intMax (if c = 0 then [] else [c])
  else
    { flags, fieldWidth := spec.fieldWidth, precision := 1, sign := 0, len := 1, text := .octets [arg.setWidth 8] }

/-- `case 's'` for a string of octets. -/
def octetString (flags : Flags) (fieldWidth precision : CInt) (s : List U8) : Field :=
  let len := strnlen s precision
  { flags, fieldWidth, precision := len, sign := 0, len := len.setWidth 64, text := .octets s }

/-- `case 's'`. -/
def convertString (env : Strings) (spec : Spec) (arg : U64) : Field :=
  let flags := spec.flags.onlyLeft
  let precision := if spec.precision.slt 0 then intMax else spec.precision
  if arg = 0 then
    octetString flags spec.fieldWidth precision
      (if precision.slt 6 then [] else [chr '(', chr 'n', chr 'u', chr 'l', chr 'l', chr ')'])
  else if spec.qualifier = .l then wstring flags spec.fieldWidth precision (env.wstr arg).units
  else octetString flags spec.fieldWidth precision (env.str arg).bytes

/-- `get_number`, on the slot of the argument. -/
def getNumber (sign : Bool) (qualifier : Qualifier) (arg : U64) : U64 :=
  match qualifier with
  | .ll => arg
  | .l => arg
  | .h => if sign then (arg.setWidth 16).signExtend 64 else (arg.setWidth 16).setWidth 64
  | .hh => if sign then (arg.setWidth 8).signExtend 64 else (arg.setWidth 8).setWidth 64
  | .none => if sign then (arg.setWidth 32).signExtend 64 else (arg.setWidth 32).setWidth 64

/-- `get_sign`. -/
def getSign (num : U64) (flags : Flags) : U64 × U8 :=
  if ¬ flags.sign then (num, 0)
  else if num.slt 0 then (-num, chr '-')
  else if flags.plus then (num, chr '+')
  else if flags.space then (num, chr ' ')
  else (num, 0)

/-- The precision of a number with `len` digits: 1 by default, at least `len`, and one more for the leading 0 of an
octal number that has none. -/
def numberPrecision (base : Base) (flags : Flags) (precision : CInt) (len : U64) : CInt :=
  let precision := if precision.slt 0 then 1 else precision
  let precision := if precision.signExtend 64 < len then len.setWidth 32 else precision
  if flags.special ∧ base = .octal ∧ precision.signExtend 64 = len then precision + 1 else precision

/-- From the `switch` to the label `output`, for a number. -/
def convertNumber (base : Base) (flags : Flags) (fieldWidth precision : CInt) (num : U64) : Field :=
  let (num, sign) := getSign num flags
  let fieldWidth := if sign ≠ 0 then fieldWidth - 1 else fieldWidth
  let s := number num base flags.locase
  let len : U64 := BitVec.ofNat 64 s.length
  let precision := numberPrecision base flags precision len
  let keep : Bool := base = .hexadecimal ∧ (0 : CInt).slt precision
  let fieldWidth := if flags.special ∧ keep then fieldWidth - 2 else fieldWidth
  let flags := flags.keepSpecial keep
  let precision := if flags.zeropad ∧ precision.slt fieldWidth then fieldWidth else precision
  { flags, fieldWidth, precision, sign, len, text := .octets s }

/-- The `switch` over the conversion character: nothing for a character that is none. Every conversion takes one
argument. -/
def convert (env : Strings) (spec : Spec) (c : U8) (arg : U64) : Option Field :=
  let flags := spec.flags
  let numeric (base : Base) (flags : Flags) : Field :=
    convertNumber base flags spec.fieldWidth spec.precision (getNumber flags.sign spec.qualifier arg)
  if c = chr 'c' then some (convertChar spec arg)
  else if c = chr 's' then some (convertString env spec arg)
  else if c = chr 'o' then some (numeric .octal flags)
  else if c = chr 'p' then
    some (convertNumber .hexadecimal { flags with small := true } spec.fieldWidth
      (if spec.precision.slt 0 then 16 else spec.precision) arg)
  else if c = chr 'x' then some (numeric .hexadecimal { flags with small := true })
  else if c = chr 'X' then some (numeric .hexadecimal flags)
  else if c = chr 'd' ∨ c = chr 'i' then some (numeric .decimal { flags with sign := true, special := false })
  else if c = chr 'u' then some (numeric .decimal { flags with special := false })
  else none

/-! ### The output of a conversion -/

/-- `while (field_width-- > 0) PUTC(' ')`. -/
def padding (fieldWidth : CInt) : List Put := List.replicate fieldWidth.toInt.toNat (.octet (chr ' '))

/-- `field_width` after this loop. -/
def afterPadding (fieldWidth : CInt) : CInt := if (0 : CInt).slt fieldWidth then -1 else fieldWidth - 1

/-- One pass of the loop over the units of a wide string. -/
def widePass (s : List U16 × U64 × List Put) : Loop.Pass (List U16 × U64 × List Put) (List Put) :=
  let (ws, len, puts) := s
  if len = 0 then .done puts
  else
    let (c32, ws) := utf16ToUtf32 ws
    if c32 < 0x80 then .next (ws, len - 1, puts ++ [.octet (c32.setWidth 8)])
    else .next (ws, len - 1 - BitVec.ofNat 64 (trailing c32), puts ++ [.wide c32])

/-- The text of a field. The octets of a text are at least `len`. -/
def putText (len : U64) : Text → Except Stuck (List Put)
  | .octets s => .ok ((s.take len.toNat).map .octet)
  | .units ws =>
      match Loop.run widePass (2 ^ 64) (ws, len, []) with
      | none => .error .endless
      | some puts => .ok puts

/-- From the label `output` on. The precision is not negative here, so `while (precision-- > len)` makes
`precision - len` passes. -/
def output (f : Field) : Except Stuck (List Put) := do
  let fieldWidth := f.fieldWidth - f.precision
  let lead := if f.flags.left then [] else padding fieldWidth
  let fieldWidth := if f.flags.left then fieldWidth else afterPadding fieldWidth
  let sign := if f.sign ≠ 0 then [Put.octet f.sign] else []
  let special :=
    if f.flags.special then [Put.octet (chr '0'), Put.octet (chr 'X' ||| f.flags.locase)] else []
  let zeros := List.replicate (f.precision.toNat - f.len.toNat) (Put.octet (chr '0'))
  let text ← putText f.len f.text
  return lead ++ sign ++ special ++ zeros ++ text ++ padding fieldWidth

/-- How a conversion specification ends: at the label `fail`, or with its output. -/
inductive Directive where
  | fail
  | puts (l : List Put) (fmt : List U8) (ap : VaList)

/-- The body of the loop after a `%` that is no `%%`. -/
def directive (env : Strings) (fmt : List U8) (ap : VaList) : Except Stuck Directive := do
  let (spec, fmt, ap) ← getSpec fmt ap
  match fmt with
  | [] => .error .pastNul
  | c :: fmt =>
      match convert env spec c (ap 0) with
      | none => return .fail
      | some field => do
          let l ← output field
          return .puts l fmt ap.rest

/-! ### The loop over the format -/

/-- One `PUTC` after the other. -/
def putAll {σ : Type} (put : Put → σ → σ) (l : List Put) (out : σ) : σ := l.foldl (fun out p => put p out) out

/-- The variables of the loop over the format: `fmt`, `args` and what was written. -/
structure Scan (σ : Type) where
  fmt : List U8
  ap : VaList
  out : σ

def formatPass {σ : Type} (env : Strings) (put : Put → σ → σ) (s : Scan σ) :
    Loop.Pass (Scan σ) (Except Stuck σ) :=
  match s.fmt with
  | [] => .done (.error .pastNul)
  | c :: fmt =>
      if c = 0 then .done (.ok s.out)
      else if c ≠ chr '%' then .next { s with fmt := fmt, out := put (.octet c) s.out }
      else
        match fmt with
        | [] => .done (.error .pastNul)
        | d :: rest =>
            if d = chr '%' then .next { s with fmt := rest, out := put (.octet d) s.out }
            else
              match directive env fmt s.ap with
              | .error e => .done (.error e)
              | .ok .fail => .done (.ok s.out)
              | .ok (.puts l fmt ap) => .next { fmt, ap, out := putAll put l s.out }

/-- The loop over the format, with something to do for each `PUTC`. Each pass goes forward in the format. -/
def formatLoop {σ : Type} (env : Strings) (put : Put → σ → σ) (fmt : List U8) (ap : VaList) (out : σ) :
    Except Stuck σ :=
  match Loop.run (formatPass env put) (fmt.length + 1) { fmt, ap, out } with
  | none => .error .endless
  | some r => r

/-- `vsnprintf`: the value that it returns, and the buffer. -/
def vsnprintf (env : Strings) (buf : Mem 64) (size : U64) (fmt : List U8) (ap : VaList) :
    Except Stuck (CInt × Mem 64) := do
  let b ← formatLoop env (Put.exec size) fmt ap { buf, pos := 0 }
  let last := if b.pos < size - 1 then b.pos else size - 1
  return (b.pos.setWidth 32, if size ≠ 0 then store8 b.buf last 0 else b.buf)

end XosKernel.Vsnprintf
