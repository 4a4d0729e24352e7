import XosKernel.LoopRules
import XosKernel.PrintfLayout

/-! The symbol table of `kernel/kallsyms.c`: the search for an address, the compressed names and the text that is printed for
an address. `unsigned long` has `w` bits. Indices into the tables are natural numbers, which no step of the code takes
past the number of symbols; a read outside a table has no result. -/

namespace XosKernel.Kallsyms

abbrev U8 := BitVec 8

abbrev U16 := BitVec 16

abbrev U32 := BitVec 32

/-- `KSYM_NAME_LEN`. -/
abbrev ksymNameLen : Nat := 128

/-- The ends of the sections, `arch_is_kernel_text` and `all_var`. -/
structure Sections (w : Nat) where
  kernelTextStart : BitVec w
  kernelTextEnd : BitVec w
  sinittext : BitVec w
  einittext : BitVec w
  etext : BitVec w
  archIsKernelText : BitVec w → Bool
  allVar : Bool

/-- The tables `kallsyms_addresses`, `kallsyms_names`, `kallsyms_token_table`, `kallsyms_token_index` and
`kallsyms_markers`. The number of the addresses is `kallsyms_num_syms`. -/
structure Table (w : Nat) where
  addresses : List (BitVec w)
  names : List U8
  tokenTable : List U8
  tokenIndex : List U16
  markers : List (BitVec w)

variable {w : Nat}

namespace Sections

variable (s : Sections w)

def isKernelInittext (addr : BitVec w) : Bool := addr ≥ s.sinittext && addr ≤ s.einittext

def isKernelText (addr : BitVec w) : Bool :=
  (addr ≥ s.kernelTextStart && addr ≤ s.kernelTextEnd) || s.archIsKernelText addr

def isKernel (addr : BitVec w) : Bool := addr ≥ s.kernelTextStart && addr ≤ s.kernelTextEnd

def isKsymAddr (addr : BitVec w) : Bool :=
  if s.allVar then s.isKernel addr else s.isKernelText addr || s.isKernelInittext addr

end Sections

/-! ### The search -/

section

variable (addresses : List (BitVec w))

/-- A pass of the binary search for `addr`, over `low` and `high`. -/
def searchPass (addr : BitVec w) (s : Nat × Nat) : Loop.Pass (Nat × Nat) (Option Nat) :=
  let (low, high) := s
  if high - low > 1 then
    let mid := low + (high - low) / 2
    match addresses[mid]? with
    | none => .done none
    | some a => if a ≤ addr then .next (mid, high) else .next (low, mid)
  else .done (some low)

/-- The loop to the first of the symbols with one address. -/
def firstAlias : Nat → Option Nat
  | 0 => some 0
  | low + 1 =>
      match addresses[low]?, addresses[low + 1]? with
      | some a, some b => if a = b then firstAlias low else some (low + 1)
      | _, _ => none

/-- The loop to the next address after those at `symbol_start`; 0 when there is none. -/
def nextAddress (symbolStart : BitVec w) (low : Nat) : BitVec w :=
  ((addresses.drop (low + 1)).find? fun a => a > symbolStart).getD 0

end

/-- `symbol_end`: the next address, or the end of the section when there is none. -/
def symbolEnd (s : Sections w) (k : Table w) (addr symbolStart : BitVec w) (low : Nat) : BitVec w :=
  let symbolEnd := nextAddress k.addresses symbolStart low
  if symbolEnd = 0 then
    if s.isKernelInittext addr then s.einittext
    else if s.allVar then s.kernelTextEnd
    else s.etext
  else symbolEnd

/-- What `get_symbol_pos` returns and stores. -/
structure SymbolPos (w : Nat) where
  pos : Nat
  symbolsize : BitVec w
  offset : BitVec w

/-- `get_symbol_pos`. -/
def getSymbolPos (s : Sections w) (k : Table w) (addr : BitVec w) : Option (SymbolPos w) := do
  let numSyms := k.addresses.length
  let low ← (Loop.run (searchPass k.addresses addr) (numSyms + 1) (0, numSyms)).join
  let low ← firstAlias k.addresses low
  let symbolStart ← k.addresses[low]?
  return { pos := low, symbolsize := symbolEnd s k addr symbolStart low - symbolStart, offset := addr - symbolStart }

/-! ### The names -/

/-- The variables of `kallsyms_expand_symbol`, with `result` as an index into the buffer. -/
structure Expand where
  buf : Nat → U8
  result : Nat
  maxlen : Nat
  skippedFirst : Bool

/-- The loop over the octets of a token; `true` is the `goto tail`. -/
def copyToken (s : Expand) : List U8 → Option (Bool × Expand)
  | [] => none
  | c :: tptr =>
      if c = 0 then some (false, s)
      else if s.skippedFirst then
        if s.maxlen ≤ 1 then some (true, s)
        else
          copyToken { s with
            buf := Function.update s.buf s.result c, result := s.result + 1, maxlen := s.maxlen - 1 } tptr
      else copyToken { s with skippedFirst := true } tptr

section

variable (k : Table w)

/-- The loop over the `len` octets of a compressed name. -/
def copyTokens (s : Expand) : Nat → List U8 → Option Expand
  | 0, _ => some s
  | _ + 1, [] => none
  | len + 1, b :: data => do
      let i ← k.tokenIndex[b.toNat]?
      let (tail, s) ← copyToken s (k.tokenTable.drop i.toNat)
      if tail then return s else copyTokens s len data

/-- `kallsyms_expand_symbol`: the offset of the next symbol and the buffer. -/
def expandSymbol (off : U32) (result : Nat → U8) (maxlen : Nat) : Option (U32 × (Nat → U8)) :=
  match k.names.drop off.toNat with
  | [] => none
  | len :: data => do
      let off := off + len.setWidth 32 + 1
      let s ← copyTokens k { buf := result, result := 0, maxlen, skippedFirst := false } len.toNat data
      return (off, if s.maxlen ≠ 0 then Function.update s.buf s.result 0 else s.buf)

/-- The loop of `get_symbol_offset` over the symbols to skip, with `name` as an index into the names. -/
def skipSymbols : Nat → Nat → Option Nat
  | 0, name => some name
  | n + 1, name => (k.names[name]?).bind fun len => skipSymbols n (name + len.toNat + 1)

/-- `get_symbol_offset`. -/
def getSymbolOffset (pos : Nat) : Option U32 := do
  let marker ← k.markers[pos / 256]?
  let name ← skipSymbols k (pos % 256) marker.toNat
  return BitVec.ofNat 32 name

/-- `strcmp(namebuf, name) == 0`, for a string `name` without its NUL, from the `i`-th octet on. -/
def sameString (namebuf : Nat → U8) (i : Nat) : List U8 → Bool
  | [] => namebuf i == 0
  | c :: name => namebuf i == c && sameString namebuf (i + 1) name

/-- The loop of `kallsyms_lookup_name` over the addresses that are left. -/
def lookupNameFrom (name : List U8) (off : U32) (namebuf : Nat → U8) : List (BitVec w) → Option (BitVec w)
  | [] => some 0
  | address :: addresses => do
      let (off, namebuf) ← expandSymbol k off namebuf ksymNameLen
      if sameString namebuf 0 name then return address else lookupNameFrom name off namebuf addresses

/-- `kallsyms_lookup_name`, whose buffer holds anything at first. -/
def kallsymsLookupName (name : List U8) (namebuf : Nat → U8) : Option (BitVec w) :=
  lookupNameFrom k name 0 namebuf k.addresses

/-- `kallsyms_lookup`: the buffer, and what `get_symbol_pos` stores when there is a name. -/
def kallsymsLookup (s : Sections w) (addr : BitVec w) (namebuf : Nat → U8) :
    Option ((Nat → U8) × Option (SymbolPos w)) :=
  let namebuf := Function.update namebuf (ksymNameLen - 1) 0
  let namebuf := Function.update namebuf 0 0
  if s.isKsymAddr addr then do
    let pos ← getSymbolPos s k addr
    let off ← getSymbolOffset k pos.pos
    let (_, namebuf) ← expandSymbol k off namebuf ksymNameLen
    return (namebuf, some pos)
  else some (namebuf, none)

end

end XosKernel.Kallsyms
