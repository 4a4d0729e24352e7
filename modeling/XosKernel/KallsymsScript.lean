import XosKernel.SprintSymbol
import XosKernel.PairCode
import Mathlib.Data.List.Sort

/-! `scripts/kallsyms.c`, which makes the tables of `kernel/kallsyms.c` out of the symbols that `nm` lists. A symbol is the
letter of its type and its name. The pairs of neighbours that occur most often get the octets that no symbol has. An
access outside of a block of memory has no result. -/

namespace XosKernel.Kallsyms.Script

abbrev U64 := BitVec 64

/-! ### Reading the map -/

/-- `struct sym_entry`, with the block at `sym`. -/
structure SymEntry where
  addr : U64
  len : Nat
  startPos : Nat
  sym : List U8

/-- `struct addr_range`. -/
structure AddrRange where
  startSym : List U8
  endSym : List U8
  start : U64
  stop : U64

/-- The options of the command line. -/
structure Options where
  allSymbols : Bool
  absolutePercpu : Bool
  symbolPrefixChar : U8
  kernelStartAddr : U64

/-- What `fscanf` reads for a symbol. -/
structure MapLine where
  addr : U64
  stype : U8
  str : List U8

/-- The variables that reading the map sets. -/
structure Reader where
  kernelTextStart : U64
  textRanges : List AddrRange
  percpuRange : List AddrRange
  table : List SymEntry

def text (s : String) : List U8 := octetsOf s.toList

def startReader : Reader where
  kernelTextStart := 0
  textRanges := [⟨text "_stext", text "_etext", 0, 0⟩, ⟨text "_sinittext", text "_einittext", 0, 0⟩,
    ⟨text "_stext_l1", text "_etext_l1", 0, 0⟩, ⟨text "_stext_l2", text "_etext_l2", 0, 0⟩]
  percpuRange := [⟨text "__per_cpu_start", text "__per_cpu_end", -1, 0⟩]
  table := []

def toupper (c : U8) : U8 := if 0x61 ≤ c ∧ c ≤ 0x7a then c - 0x20 else c

/-- `is_arm_mapping_symbol`. -/
def isArmMappingSymbol (str : List U8) : Bool :=
  str.getD 0 0 == 0x24 && (str.getD 1 0 == 0 || (text "axtd").contains (str.getD 1 0)) &&
    (str.getD 2 0 == 0 || str.getD 2 0 == 0x2e)

/-- `check_symbol_range`, with the ranges afterwards when it returns 0. -/
def checkSymbolRange (sym : List U8) (addr : U64) : List AddrRange → Option (List AddrRange)
  | [] => none
  | ar :: ranges =>
      if sym = ar.startSym then some ({ ar with start := addr } :: ranges)
      else if sym = ar.endSym then some ({ ar with stop := addr } :: ranges)
      else (checkSymbolRange sym addr ranges).map (ar :: ·)

section

variable (o : Options)

/-- The name without the prefix that the options tell. -/
def skipPrefix (str : List U8) : List U8 :=
  if o.symbolPrefixChar ≠ 0 ∧ str.head? = some o.symbolPrefixChar then str.tail else str

/-- `read_symbol` behind `fscanf`, and the entry that `read_map` adds when it returns 0. -/
def readSymbol (s : Reader) (l : MapLine) : Reader :=
  if l.str.length > ksymNameLen then s
  else
    let sym := skipPrefix o l.str
    let add (s : Reader) : Reader :=
      { s with
        table := s.table ++ [⟨l.addr, l.str.length + 1, s.table.length, l.stype :: l.str ++ [0]⟩]
        percpuRange := (checkSymbolRange sym l.addr s.percpuRange).getD s.percpuRange }
    if sym = text "kernel_text_start" then add { s with kernelTextStart := l.addr }
    else
      match checkSymbolRange sym l.addr s.textRanges with
      | some ranges => add { s with textRanges := ranges }
      | none =>
          if toupper l.stype = 0x41 then
            if sym ≠ text "__kernel_syscall_via_break" ∧ sym ≠ text "__kernel_syscall_via_epc" ∧
              sym ≠ text "__kernel_sigtramp" ∧ sym ≠ text "__gp" then s
            else add s
          else if toupper l.stype = 0x55 ∨ isArmMappingSymbol sym then s
          else if l.str.head? = some 0x24 then s
          else if l.stype = 0x4e then s
          else add s

def readMap (lines : List MapLine) : Reader := lines.foldl (readSymbol o) startReader

/-- `symbol_in_range`. -/
def symbolInRange (s : SymEntry) (ranges : List AddrRange) : Bool :=
  ranges.any fun ar => s.addr ≥ ar.start && s.addr ≤ ar.stop

def cString (block : List U8) : List U8 := block.takeWhile (· ≠ 0)

def specialSymbols : List (List U8) :=
  [text "kallsyms_addresses", text "kallsyms_num_syms", text "kallsyms_names", text "kallsyms_markers",
    text "kallsyms_token_table", text "kallsyms_token_index", text "_SDA_BASE_", text "_SDA2_BASE_"]

def specialSuffixes : List (List U8) := [text "_veneer"]

/-- `symbol_valid`. -/
def symbolValid (r : Reader) (s : SymEntry) : Bool :=
  let symName := skipPrefix o (cString (s.sym.drop 1))
  let atEnd (i : Nat) : Bool :=
    r.textRanges[i]?.any fun ar => s.addr == ar.stop && symName != ar.endSym
  if s.addr < o.kernelStartAddr then false
  else if !o.allSymbols && (!symbolInRange s r.textRanges || atEnd 0 || atEnd 1) then false
  else !specialSymbols.contains symName && !specialSuffixes.any (·.isSuffixOf symName)

/-- `make_percpus_absolute`. -/
def makePercpusAbsolute (r : Reader) : List SymEntry :=
  r.table.map fun s => if symbolInRange s r.percpuRange then { s with sym := s.sym.set 0 0x41 } else s

end

/-! ### Sorting -/

/-- `may_be_linker_script_provide_symbol`. -/
def mayBeLinkerScriptProvideSymbol (se : SymEntry) : Bool :=
  let symbol := se.sym.drop 1
  let len := se.len - 1
  len ≥ 8 && symbol.take 2 == text "__" &&
    ((symbol.drop 2).take 6 == text "start_" || (symbol.drop 2).take 5 == text "stop_" ||
      (symbol.drop 2).take 4 == text "end_" || (symbol.drop (len - 6)).take 6 == text "_start" ||
      (symbol.drop (len - 4)).take 4 == text "_end")

def prefixUnderscoresCount (str : List U8) : Nat := (str.takeWhile (· = 0x5f)).length

def isWeak (s : SymEntry) : Bool := s.sym.head? = some 0x77 || s.sym.head? = some 0x57

/-- `compare_symbols`. -/
def compareSymbols (sa sb : SymEntry) : Int :=
  if sa.addr > sb.addr then 1
  else if sa.addr < sb.addr then -1
  else if isWeak sa ≠ isWeak sb then (isWeak sa).toNat - (isWeak sb).toNat
  else if mayBeLinkerScriptProvideSymbol sa ≠ mayBeLinkerScriptProvideSymbol sb then
    (mayBeLinkerScriptProvideSymbol sa).toNat - (mayBeLinkerScriptProvideSymbol sb).toNat
  else if prefixUnderscoresCount (sa.sym.drop 1) ≠ prefixUnderscoresCount (sb.sym.drop 1) then
    prefixUnderscoresCount (sa.sym.drop 1) - prefixUnderscoresCount (sb.sym.drop 1)
  else sa.startPos - sb.startPos

/-- `sort_symbols`. -/
def sortSymbols (table : List SymEntry) : List SymEntry := table.mergeSort fun a b => compareSymbols a b ≤ 0

/-! ### Tokens -/

/-- The index of a pair in `token_profit`. -/
def tokenIndex (t : U8 × U8) : Nat := t.1.toNat + t.2.toNat <<< 8

def learnSymbol (profit : Nat → Int) (symbol : List U8) (len : Nat) : Nat → Int :=
  (PairCode.pairs (symbol.take len)).foldl (fun p t => Function.update p (tokenIndex t) (p (tokenIndex t) + 1)) profit

def forgetSymbol (profit : Nat → Int) (symbol : List U8) (len : Nat) : Nat → Int :=
  (PairCode.pairs (symbol.take len)).foldl (fun p t => Function.update p (tokenIndex t) (p (tokenIndex t) - 1)) profit

/-- `find_token` on the `len` octets from `str` on: where the token is. -/
def findToken (block : List U8) (str len : Nat) (token : U8 × U8) : Option (Option Nat) :=
  if block.length < str + len then none
  else some ((PairCode.find token ((block.drop str).take len)).map (str + ·))

def memmove (block : List U8) (dest src size : Nat) : Option (List U8) :=
  if block.length < dest + size ∨ block.length < src + size then none
  else some (block.take dest ++ (block.drop src).take size ++ block.drop (dest + size))

/-- The variables of `compress_symbols` in its inner loop. -/
structure Compress where
  sym : List U8
  p1 : Nat
  p2 : Nat
  len : Nat
  size : Nat

/-- A pass of the inner loop of `compress_symbols`, and the block and `len` at its end. -/
def compressPass (str : U8 × U8) (idx : U8) (s : Compress) : Loop.Pass Compress (Option (List U8 × Nat)) :=
  let sym := s.sym.set s.p2 idx
  let p2 := s.p2 + 1
  let size := s.size - (p2 - s.p1)
  match memmove sym p2 (p2 + 1) size with
  | none => .done none
  | some sym =>
      let p1 := p2
      let len := s.len - 1
      if size < 2 then .done (some (sym, len))
      else
        match findToken sym p1 size str with
        | none => .done none
        | some none => .done (some (sym, len))
        | some (some p2) => .next { sym, p1, p2, len, size }

/-- The body of the loop of `compress_symbols` over the symbols. -/
def compressSymbol (str : U8 × U8) (idx : U8) (e : SymEntry) (profit : Nat → Int) : Option (SymEntry × (Nat → Int)) :=
  match findToken e.sym 0 e.len str with
  | none => none
  | some none => some (e, profit)
  | some (some p2) => do
      let profit := forgetSymbol profit e.sym e.len
      let (sym, len) ←
        (Loop.run (compressPass str idx) (e.len + 1) { sym := e.sym, p1 := 0, p2, len := e.len, size := e.len }).join
      return ({ e with sym, len }, learnSymbol profit sym len)

def compressSymbols (str : U8 × U8) (idx : U8) : List SymEntry → (Nat → Int) → Option (List SymEntry × (Nat → Int))
  | [], profit => some ([], profit)
  | e :: table, profit => do
      let (e, profit) ← compressSymbol str idx e profit
      let (table, profit) ← compressSymbols str idx table profit
      return (e :: table, profit)

/-- `find_best_token`. -/
def findBestToken (profit : Nat → Int) : Nat :=
  ((List.range 0x10000).foldl (fun (b : Nat × Int) i => if profit i > b.2 then (i, profit i) else b) (0, -10000)).1

/-- The symbols, `token_profit`, `best_table` and `best_table_len`. -/
structure Tables where
  table : List SymEntry
  profit : Nat → Int
  best : Nat → U8 × U8
  bestLen : Nat → Nat

/-- The loop of `optimize_result` over the slots below `i`. -/
def optimizeFrom : Nat → Tables → Option Tables
  | 0, s => some s
  | i + 1, s =>
      if s.bestLen i ≠ 0 then optimizeFrom i s
      else
        let best := findBestToken s.profit
        if s.profit best = 0 then some s
        else do
          let t : U8 × U8 := (BitVec.ofNat 8 (best &&& 0xff), BitVec.ofNat 8 ((best >>> 8) &&& 0xff))
          let (table, profit) ← compressSymbols t (BitVec.ofNat 8 i) s.table s.profit
          optimizeFrom i
            { table, profit, best := Function.update s.best i t, bestLen := Function.update s.bestLen i 2 }

/-- The loop of `build_initial_tok_table`. -/
def buildInitialTokTable (valid : SymEntry → Bool) (table : List SymEntry) : List SymEntry × (Nat → Int) :=
  let table := table.filter valid
  (table, table.foldl (fun p e => learnSymbol p e.sym e.len) fun _ => 0)

/-- `insert_real_symbols_in_table`. -/
def insertRealSymbolsInTable (table : List SymEntry) (profit : Nat → Int) : Tables :=
  table.foldl
    (fun s e =>
      (e.sym.take e.len).foldl
        (fun s c =>
          { s with
            best := Function.update s.best c.toNat (c, (s.best c.toNat).2)
            bestLen := Function.update s.bestLen c.toNat 1 }) s)
    { table, profit, best := fun _ => (0, 0), bestLen := fun _ => 0 }

/-- `optimize_token_table`. -/
def optimizeTokenTable (valid : SymEntry → Bool) (table : List SymEntry) : Option Tables :=
  let (table, profit) := buildInitialTokTable valid table
  if table = [] then none else optimizeFrom 256 (insertRealSymbolsInTable table profit)

/-! ### Writing the tables -/

/-- `expand_symbol`, for tokens that are made of tokens at most `depth` deep. -/
def expandText (s : Tables) : Nat → List U8 → Option (List U8)
  | 0, _ => none
  | depth + 1, data =>
      (data.mapM fun c =>
        if (s.best c.toNat).1 = c ∧ s.bestLen c.toNat = 1 then some [c]
        else expandText s depth ([(s.best c.toNat).1, (s.best c.toNat).2].take (s.bestLen c.toNat))).map List.flatten

/-- What the assembler makes of `.asciz "%s"`. It reads other octets where the text has a quote or a backslash. -/
def asciz (l : List U8) : Option (List U8) := if l.any fun c => c = 0x22 ∨ c = 0x5c then none else some (l ++ [0])

/-- The token that `write_src` puts for slot `i`, in a buffer of `KSYM_NAME_LEN` octets. -/
def tokenText (s : Tables) (i : Nat) : Option (List U8) := do
  let buf ← expandText s 257 ([(s.best i).1, (s.best i).2].take (s.bestLen i))
  if buf.length < ksymNameLen then asciz (cString (buf ++ [0])) else none

/-- `symbol_absolute`. -/
def symbolAbsolute (s : SymEntry) : Bool := toupper (s.sym.getD 0 0) = 0x41

/-- The value of the `PTR` for a symbol, with `textStart` for the linker's `kernel_text_start`. -/
def symbolPtr {w : Nat} (textStart : BitVec w) (kernelTextStart : U64) (s : SymEntry) : BitVec w :=
  if symbolAbsolute s then s.addr.setWidth w
  else if kernelTextStart ≤ s.addr then textStart + (s.addr - kernelTextStart).setWidth w
  else textStart - (kernelTextStart - s.addr).setWidth w

/-- The loop over the names: the octets, and the markers for every 256th of the symbols from the `i`-th one on. -/
def writeNames {w : Nat} (i : Nat) (off : U32) : List SymEntry → List U8 × List (BitVec w)
  | [] => ([], [])
  | e :: table =>
      let (names, markers) := writeNames (i + 1) (off + BitVec.ofNat 32 e.len + 1) table
      (BitVec.ofNat 8 e.len :: (e.sym.take e.len ++ names),
        if i &&& 0xff = 0 then off.signExtend w :: markers else markers)

/-- The loop over the tokens: the octets and the index. -/
def writeTokens (s : Tables) (off : Nat) : List Nat → Option (List U8 × List U16)
  | [] => some ([], [])
  | i :: slots => do
      let token ← tokenText s i
      let (octets, index) ← writeTokens s (off + token.length) slots
      return (token ++ octets, BitVec.ofNat 16 off :: index)

/-- `write_src`, with what the assembler makes of it. -/
def writeSrc {w : Nat} (textStart : BitVec w) (kernelTextStart : U64) (s : Tables) : Option (Kallsyms.Table w) := do
  let (names, markers) := writeNames 0 0 s.table
  let (tokenTable, tokenIndex) ← writeTokens s 0 (List.range 256)
  return { addresses := s.table.map (symbolPtr textStart kernelTextStart), names, tokenTable, tokenIndex, markers }

/-- `main`, for the lines of the map. -/
def kallsyms {w : Nat} (o : Options) (textStart : BitVec w) (lines : List MapLine) : Option (Kallsyms.Table w) := do
  let r := readMap o lines
  let table := if o.absolutePercpu then makePercpusAbsolute r else r.table
  let s ← optimizeTokenTable (symbolValid o r) (sortSymbols table)
  writeSrc textStart r.kernelTextStart s

end XosKernel.Kallsyms.Script
