import XosKernel.KallsymsNames

/-! The text that `sprint_symbol` and `sprint_backtrace` print for an address. Both look the address up that is
`symbol_offset` away. When a symbol is found, the offset that is printed is taken back by as much; the number that is
printed otherwise is not. -/

namespace XosKernel.Kallsyms

variable {w : Nat}

/-! ### The functions -/

def octetsOf (l : List Char) : List U8 := l.map fun c => BitVec.ofNat 8 c.toNat

/-- What `%lx` and, with the flag `#`, `%#lx` ask for. -/
def hexRequest (alternate : Bool) : Printf.Request where
  minus := false
  plus := false
  space := false
  alternate := alternate
  zero := false
  width := 0
  precision := none
  conv := .x

/-- What `sprintf` prints for it. -/
def hexText (alternate : Bool) (v : BitVec w) : List U8 :=
  octetsOf ((hexRequest alternate).layout Printf.standardPrefix v.toNat)

/-- A text that `sprintf` leaves at `start`, with its NUL. -/
def writeText (buf : Nat → U8) (start : Nat) (text : List U8) : Nat → U8 := fun i =>
  if i < start then buf i
  else if i = start + text.length then 0
  else text[i - start]?.getD (buf i)

/-- `strlen`, for a string that ends within `fuel` octets from the `i`-th one on. -/
def strlen (buf : Nat → U8) : Nat → Nat → Option Nat
  | 0, _ => none
  | fuel + 1, i => if buf i = 0 then some i else strlen buf fuel (i + 1)

section

variable (k : Table w) (s : Sections w)

/-- `__sprint_symbol`: the length that it returns and the buffer. The name is found in the buffer itself and `modname` is
`NULL` then. -/
def sprintSymbolAt (buffer : Nat → U8) (address : BitVec w) (symbolOffset : Int) (addOffset : Bool) :
    Option (Nat × (Nat → U8)) := do
  let address := address + BitVec.ofInt w symbolOffset
  let (buffer, found) ← kallsymsLookup k s address buffer
  match found with
  | none =>
      let text := octetsOf ['0', 'x'] ++ hexText false address
      return (text.length, writeText buffer 0 text)
  | some r => do
      let len ← strlen buffer ksymNameLen 0
      let offset := r.offset - BitVec.ofInt w symbolOffset
      if addOffset then
        let text := octetsOf ['+'] ++ hexText true offset ++ octetsOf ['/'] ++ hexText true r.symbolsize
        return (len + text.length, writeText buffer len text)
      else return (len, buffer)

def sprintSymbol (buffer : Nat → U8) (address : BitVec w) : Option (Nat × (Nat → U8)) :=
  sprintSymbolAt k s buffer address 0 true

def sprintBacktrace (buffer : Nat → U8) (address : BitVec w) : Option (Nat × (Nat → U8)) :=
  sprintSymbolAt k s buffer address (-1) true

end

/-! ### What a text says -/

/-- The texts that stand for an address: its number, or a symbol with the distance from it and any size. -/
inductive Denotes (k : Table w) (symbols : List (List U8)) (token : U8 → List U8) (address : BitVec w) :
    List U8 → Prop
  | number : Denotes k symbols token address (octetsOf ['0', 'x'] ++ hexText false address)
  | symbol {i : Nat} {data : List U8} {start offset size : BitVec w} (hdata : symbols[i]? = some data)
      (hstart : k.addresses[i]? = some start) (haddress : start + offset = address) :
      Denotes k symbols token address (symbolName token data ++
        (octetsOf ['+'] ++ hexText true offset ++ octetsOf ['/'] ++ hexText true size))

/-- A call that leaves a text for the address in its buffer, and returns its length. -/
def Prints (k : Table w) (symbols : List (List U8)) (token : U8 → List U8) (address : BitVec w)
    (result : Option (Nat × (Nat → U8))) : Prop :=
  ∃ buf text, result = some (text.length, buf) ∧ HoldsString buf text ∧ Denotes k symbols token address text

theorem holdsString_writeText {buf : Nat → U8} {name : List U8} (hname : ∀ i < name.length, name[i]? = some (buf i))
    (text : List U8) : HoldsString (writeText buf name.length text) (name ++ text) := by
  constructor
  · intro i hi
    rw [List.length_append] at hi
    unfold writeText
    by_cases hlt : i < name.length
    · rw [if_pos hlt, List.getElem?_append_left hlt]
      exact hname i hlt
    · rw [if_neg hlt, if_neg (by omega), List.getElem?_append_right (by omega),
        List.getElem?_eq_getElem (by omega), Option.getD_some]
  · rw [List.length_append, writeText, if_neg (by omega), if_pos rfl]

/-- A buffer holds one string of each length. -/
theorem HoldsString.unique {buf : Nat → U8} {l l' : List U8} (h : HoldsString buf l) (h' : HoldsString buf l')
    (hlength : l.length = l'.length) : l = l' := by
  apply List.ext_getElem?
  intro i
  rcases Nat.lt_or_ge i l.length with hi | hi
  · rw [h.octets i hi, h'.octets i (hlength ▸ hi)]
  · rw [List.getElem?_eq_none hi, List.getElem?_eq_none (hlength ▸ hi)]

theorem strlen_holds {buf : Nat → U8} {l : List U8} (hbuf : HoldsString buf l) (hl : ∀ c ∈ l, c ≠ 0) {fuel : Nat}
    (hfuel : l.length < fuel) : strlen buf fuel 0 = some l.length := by
  suffices h : ∀ (n i : Nat), i + n = l.length → ∀ fuel, n < fuel → strlen buf fuel i = some l.length by
    exact h l.length 0 (Nat.zero_add _) fuel hfuel
  intro n
  induction n with
  | zero =>
      intro i hi fuel hfuel
      obtain ⟨fuel, rfl⟩ := Nat.exists_eq_succ_of_ne_zero (Nat.ne_zero_of_lt hfuel)
      obtain rfl : i = l.length := hi
      rw [strlen, if_pos hbuf.nul]
  | succ n ih =>
      intro i hi fuel hfuel
      obtain ⟨fuel, rfl⟩ := Nat.exists_eq_succ_of_ne_zero (Nat.ne_zero_of_lt hfuel)
      have hoctet := hbuf.octets i (by omega)
      have hne : buf i ≠ 0 := hl _ (List.mem_of_getElem? hoctet)
      rw [strlen, if_neg hne]
      exact ih (i + 1) (by omega) fuel (by omega)

/-! ### Numbers -/

/-- The number that a digit stands for. -/
def digitValue (c : U8) : Nat := if c < 0x3a then c.toNat - 0x30 else c.toNat - 0x57

/-- The number that hexadecimal digits stand for, the highest one first. -/
def hexValue (l : List U8) : Nat := Nat.ofDigits 16 (l.map digitValue).reverse

theorem layout_hex (n : Nat) : (hexRequest false).layout Printf.standardPrefix n =
    List.replicate (1 - (Printf.digits .x n).length) '0' ++ Printf.digits .x n := by
  have hnumber := (hexRequest false).number_eq n
  have hcontent : (hexRequest false).content Printf.standardPrefix n = (hexRequest false).number n := rfl
  have hlayout : (hexRequest false).layout Printf.standardPrefix n =
      List.replicate (0 - ((hexRequest false).content Printf.standardPrefix n).length) ' ' ++
        (hexRequest false).content Printf.standardPrefix n := rfl
  rw [hlayout, hcontent, Nat.zero_sub, List.replicate_zero, List.nil_append, hnumber]
  rfl

theorem hexText_false (v : BitVec w) : hexText false v =
    octetsOf (List.replicate (1 - (Printf.digits .x v.toNat).length) '0') ++
      ((Nat.digits 16 v.toNat).map fun d => BitVec.ofNat 8 (Nat.digitChar d).toNat).reverse := by
  rw [hexText, layout_hex, octetsOf, List.map_append]
  congr 1
  rw [Printf.digits, List.map_map, ← List.map_reverse]
  rfl

/-- The digits of a number tell the number. -/
theorem hexValue_hexText (v : BitVec w) : hexValue (hexText false v) = v.toNat := by
  have hdigit : ∀ d < 16, digitValue (BitVec.ofNat 8 (Nat.digitChar d).toNat) = d := by decide
  have hdigits : ((Nat.digits 16 v.toNat).map fun d => digitValue (BitVec.ofNat 8 (Nat.digitChar d).toNat)) =
      Nat.digits 16 v.toNat := by
    conv_rhs => rw [← List.map_id (Nat.digits 16 v.toNat)]
    exact List.map_congr_left fun d hd => hdigit d (Nat.digits_lt_base (by decide) hd)
  have hvalue : (hexText false v).map digitValue =
      List.replicate (1 - (Printf.digits .x v.toNat).length) 0 ++ (Nat.digits 16 v.toNat).reverse := by
    rw [hexText_false, List.map_append, List.map_reverse, List.map_map]
    congr 1
    · rw [octetsOf, List.map_replicate, List.map_replicate]
      rfl
    · exact congrArg List.reverse hdigits
  rw [hexValue, hvalue, List.reverse_append, List.reverse_reverse, List.reverse_replicate,
    Nat.ofDigits_append_replicate_zero, Nat.ofDigits_digits]

/-- No digit reads `+`. -/
theorem plus_not_mem_hexText (v : BitVec w) : (0x2b : U8) ∉ hexText false v := by
  have hdigit : ∀ d < 16, (0x2b : U8) ≠ BitVec.ofNat 8 (Nat.digitChar d).toNat := by decide
  rw [hexText_false, List.mem_append, List.mem_reverse, List.mem_map]
  rintro (hmem | ⟨d, hd, heq⟩)
  · rw [octetsOf, List.map_replicate] at hmem
    exact absurd (List.eq_of_mem_replicate hmem) (by decide)
  · exact hdigit d (Nat.digits_lt_base (by decide) hd) heq.symm

/-- The text of one number does not stand for another address. -/
theorem denotes_number_iff {k : Table w} {symbols : List (List U8)} {token : U8 → List U8} {address v : BitVec w} :
    Denotes k symbols token address (octetsOf ['0', 'x'] ++ hexText false v) ↔ v = address := by
  constructor
  · generalize htext : octetsOf ['0', 'x'] ++ hexText false v = text
    intro h
    cases h with
    | number =>
        have hhex := List.append_cancel_left htext
        apply BitVec.eq_of_toNat_eq
        rw [← hexValue_hexText v, hhex, hexValue_hexText]
    | symbol hdata hstart haddress =>
        have hplus : (0x2b : U8) ∈ octetsOf ['0', 'x'] ++ hexText false v := by
          rw [htext]
          simp [octetsOf]
        rcases List.mem_append.mp hplus with hmem | hmem
        · exact absurd hmem (by decide)
        · exact absurd hmem (plus_not_mem_hexText v)
  · rintro rfl
    exact .number

/-! ### What is printed -/

theorem addressBefore (address : BitVec w) : address + BitVec.ofInt w (-1) = address - 1 := by
  rw [BitVec.ofInt_neg, BitVec.add_neg_eq_sub]
  rfl

section

variable {k : Table w} {symbols : List (List U8)} {token : U8 → List U8} {s : Sections w}

/-- An address that no section covers is printed as a number, the one that was looked up. -/
theorem sprintSymbolAt_uncovered {address : BitVec w} {symbolOffset : Int}
    (hcovered : s.isKsymAddr (address + BitVec.ofInt w symbolOffset) = false) (buffer : Nat → U8) (addOffset : Bool) :
    ∃ buf text, sprintSymbolAt k s buffer address symbolOffset addOffset = some (text.length, buf) ∧
      HoldsString buf text ∧
      text = octetsOf ['0', 'x'] ++ hexText false (address + BitVec.ofInt w symbolOffset) := by
  refine ⟨writeText (Function.update (Function.update buffer (ksymNameLen - 1) 0) 0 0) 0
    (octetsOf ['0', 'x'] ++ hexText false (address + BitVec.ofInt w symbolOffset)), _, ?_, ?_, rfl⟩
  · simp only [sprintSymbolAt, kallsymsLookup, hcovered, Option.bind_eq_bind]
    rfl
  · exact @holdsString_writeText _ [] (fun i hi => absurd hi (Nat.not_lt_zero i)) _

/-- An address that a section covers is printed with its symbol. -/
theorem sprintSymbolAt_covered (h : Laid k symbols token) (hne : k.addresses ≠ []) {address : BitVec w} {symbolOffset : Int}
    (hcovered : s.isKsymAddr (address + BitVec.ofInt w symbolOffset) = true) (buffer : Nat → U8) :
    Prints k symbols token address (sprintSymbolAt k s buffer address symbolOffset true) := by
  obtain ⟨pos, low, start, hrun, -, hpos, -, -⟩ :=
    getSymbolPos_ends s hne (address + BitVec.ofInt w symbolOffset)
  have hlt : pos < symbols.length := h.count ▸ (List.getElem?_eq_some_iff.mp hpos).1
  have hdata : symbols[pos]? = some symbols[pos] := List.getElem?_eq_getElem hlt
  obtain ⟨buf, hlookup, hholds, -⟩ := h.lookup hcovered hrun hdata buffer
  have hlen := strlen_holds hholds (h.name_noNul _) (symbolName_lt token symbols[pos])
  have haddress : start + (address + BitVec.ofInt w symbolOffset - start - BitVec.ofInt w symbolOffset) = address := by
    grind
  have hdenotes := @Denotes.symbol w k symbols token address pos _ start _
    (symbolEnd s k (address + BitVec.ofInt w symbolOffset) start pos - start) hdata hpos haddress
  refine ⟨_, _, ?_, holdsString_writeText hholds.octets _, hdenotes⟩
  simp only [sprintSymbolAt, hlookup, hlen, Option.bind_eq_bind, Option.bind_some, if_true, List.length_append]
  rfl

/-- What is printed for the address itself is never wrong. -/
theorem sprintSymbol_prints (h : Laid k symbols token) (hne : k.addresses ≠ []) (buffer : Nat → U8)
    (address : BitVec w) :
    Prints k symbols token address (sprintSymbol k s buffer address) := by
  have hzero : address + BitVec.ofInt w 0 = address := BitVec.add_zero address
  cases hcovered : s.isKsymAddr address with
  | true => exact sprintSymbolAt_covered h hne (hzero.symm ▸ hcovered) buffer
  | false =>
      obtain ⟨buf, text, hrun, hholds, rfl⟩ :=
        @sprintSymbolAt_uncovered w k s address 0 (hzero.symm ▸ hcovered) buffer true
      exact ⟨buf, _, hrun, hholds, denotes_number_iff.mpr hzero⟩

/-- A backtrace names the number before an address that no section covers. -/
theorem sprintBacktrace_uncovered (hw : 0 < w) {address : BitVec w} (hcovered : s.isKsymAddr (address - 1) = false)
    (buffer : Nat → U8) : ¬ Prints k symbols token address (sprintBacktrace k s buffer address) := by
  have hbefore := addressBefore address
  obtain ⟨buf, text, hrun, hholds, htext⟩ :=
    @sprintSymbolAt_uncovered w k s address (-1) (hbefore.symm ▸ hcovered) buffer true
  rintro ⟨buf', text', hrun', hholds', hdenotes⟩
  have hsame : (text.length, buf) = (text'.length, buf') := Option.some.inj (hrun.symm.trans hrun')
  obtain ⟨hlength, rfl⟩ := Prod.mk.inj hsame
  obtain rfl : text = text' := hholds.unique hholds' hlength
  rw [htext, denotes_number_iff, hbefore, BitVec.sub_eq_iff_eq_add] at hdenotes
  have hone : (1 : BitVec w) = 0 := (BitVec.add_right_inj address).mp (hdenotes.symm.trans (BitVec.add_zero _).symm)
  have hvalue := (BitVec.toNat_one hw).symm.trans (congrArg BitVec.toNat hone)
  exact absurd hvalue Nat.one_ne_zero

/-- **The printed address**: `sprint_symbol` and `sprint_backtrace` both print the address that they are given, exactly
when a section covers the address before it. -/
theorem sprint_denotes_iff (hw : 0 < w) (h : Laid k symbols token) (hne : k.addresses ≠ []) (s : Sections w)
    (buffer buffer' : Nat → U8) (address : BitVec w) :
    (Prints k symbols token address (sprintSymbol k s buffer address) ∧
      Prints k symbols token address (sprintBacktrace k s buffer' address)) ↔ s.isKsymAddr (address - 1) = true := by
  have hbefore := addressBefore address
  constructor
  · rintro ⟨-, hbacktrace⟩
    by_contra hcovered
    exact sprintBacktrace_uncovered hw (Bool.eq_false_iff.mpr hcovered) buffer' hbacktrace
  · intro hcovered
    exact ⟨sprintSymbol_prints h hne buffer address, sprintSymbolAt_covered h hne (hbefore.symm ▸ hcovered) buffer'⟩

end

/-- A return address on a stack that no section covers is printed as the number before it. -/
theorem sprintBacktrace_stray :
    Laid twoSymbolTable twoSymbols octetToken ∧
      (∃ buf, sprintBacktrace twoSymbolTable lowSections (fun _ => 0xff) 0x5000 = some (6, buf) ∧
        HoldsString buf (octetsOf ['0', 'x', '4', 'f', 'f', 'f'])) ∧
      ¬ Prints twoSymbolTable twoSymbols octetToken 0x5000
        (sprintBacktrace twoSymbolTable lowSections (fun _ => 0xff) 0x5000) := by
  refine ⟨twoSymbolTable_laid, ?_, sprintBacktrace_uncovered (by decide) (by decide) _⟩
  obtain ⟨buf, text, hrun, hholds, htext⟩ :=
    @sprintSymbolAt_uncovered 64 twoSymbolTable lowSections 0x5000 (-1) (by decide) (fun _ => 0xff) true
  have hdigits : text = octetsOf ['0', 'x', '4', 'f', 'f', 'f'] := htext.trans (by decide +kernel)
  subst hdigits
  exact ⟨buf, hrun, hholds⟩

/-- Two functions of one name, as static functions of two files are. -/
def sameNames : List (List U8) := [[0x74, 0x66], [0x74, 0x66]]

theorem sprint_denotes_iff_same_names :
    Prints (plainTable [0x1000, 0x2000] sameNames) sameNames octetToken 0x2010
        (sprintSymbol (plainTable [0x1000, 0x2000] sameNames) lowSections (fun _ => 0xff) 0x2010) ∧
      Prints (plainTable [0x1000, 0x2000] sameNames) sameNames octetToken 0x2010
        (sprintBacktrace (plainTable [0x1000, 0x2000] sameNames) lowSections (fun _ => 0xff) 0x2010) :=
  (sprint_denotes_iff (by decide) (plainTable_laid rfl (by decide) (by decide)) (by decide) lowSections _ _ _).mpr
    (by decide)

end XosKernel.Kallsyms
