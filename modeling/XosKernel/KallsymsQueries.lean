import XosKernel.SprintSymbol

/-! The other questions about an address: `lookup_symbol_name`, `lookup_symbol_attrs`, `kallsyms_lookup_size_offset` and
`sprint_symbol_no_offset`. Every one finds the symbol that `kallsyms_lookup` finds, whatever its buffers held before,
and the name that it leaves leads back to the address. -/

namespace XosKernel.Kallsyms

variable {w : Nat}

/-! ### The functions -/

/-- `ERANGE`. -/
def erange : Int := 34

section

variable (k : Table w) (s : Sections w)

/-- `kallsyms_lookup_size_offset`: the value that it returns and what it stores. The value is `!!` of the position. -/
def kallsymsLookupSizeOffset (addr : BitVec w) : Option (Int × Option (SymbolPos w)) :=
  if s.isKsymAddr addr then do
    let pos ← getSymbolPos s k addr
    return (if pos.pos ≠ 0 then 1 else 0, some pos)
  else some (-1, none)

/-- `lookup_symbol_name`: the value that it returns and the buffer. -/
def lookupSymbolName (addr : BitVec w) (symname : Nat → U8) : Option (Int × (Nat → U8)) :=
  let symname := Function.update symname 0 0
  let symname := Function.update symname (ksymNameLen - 1) 0
  if s.isKsymAddr addr then do
    let pos ← getSymbolPos s k addr
    let off ← getSymbolOffset k pos.pos
    let (_, symname) ← expandSymbol k off symname ksymNameLen
    return (0, symname)
  else some (-erange, symname)

/-- What `lookup_symbol_attrs` returns and leaves in its arguments. -/
structure SymbolAttrs (w : Nat) where
  ret : Int
  attrs : Option (SymbolPos w)
  modname : Nat → U8
  name : Nat → U8

/-- `lookup_symbol_attrs`. -/
def lookupSymbolAttrs (addr : BitVec w) (modname name : Nat → U8) : Option (SymbolAttrs w) :=
  let name := Function.update name 0 0
  let name := Function.update name (ksymNameLen - 1) 0
  if s.isKsymAddr addr then do
    let pos ← getSymbolPos s k addr
    let off ← getSymbolOffset k pos.pos
    let (_, name) ← expandSymbol k off name ksymNameLen
    return { ret := 0, attrs := some pos, modname := Function.update modname 0 0, name }
  else some { ret := -erange, attrs := none, modname, name }

/-- `sprint_symbol_no_offset`. -/
def sprintSymbolNoOffset (buffer : Nat → U8) (address : BitVec w) : Option (Nat × (Nat → U8)) :=
  sprintSymbolAt k s buffer address 0 false

end

/-! ### What they answer -/

/-- A buffer for a name: a string, and nothing written behind the buffer. -/
structure NameIn (old buf : Nat → U8) (name : List U8) : Prop where
  holds : HoldsString buf name
  frame : ∀ i, ksymNameLen ≤ i → buf i = old i

/-- The answers about an address that no section covers. -/
structure AnswersNone (k : Table w) (s : Sections w) (addr : BitVec w) : Prop where
  lookup : ∀ namebuf, ∃ buf, kallsymsLookup k s addr namebuf = some (buf, none) ∧ NameIn namebuf buf []
  sizeOffset : kallsymsLookupSizeOffset k s addr = some (-1, none)
  nameOnly : ∀ symname, ∃ buf, lookupSymbolName k s addr symname = some (-erange, buf) ∧ NameIn symname buf []
  attrs : ∀ modname name, ∃ buf, lookupSymbolAttrs k s addr modname name = some ⟨-erange, none, modname, buf⟩ ∧
    NameIn name buf []
  printed : ∀ buffer, ∃ buf, sprintSymbolNoOffset k s buffer addr =
    some ((octetsOf ['0', 'x'] ++ hexText false addr).length, buf) ∧
      HoldsString buf (octetsOf ['0', 'x'] ++ hexText false addr)

/-- The answers about an address of the symbol `r.pos` with a name. -/
structure AnswersSymbol (k : Table w) (s : Sections w) (addr : BitVec w) (r : SymbolPos w) (name : List U8) : Prop where
  lookup : ∀ namebuf, ∃ buf, kallsymsLookup k s addr namebuf = some (buf, some r) ∧ NameIn namebuf buf name
  sizeOffset : kallsymsLookupSizeOffset k s addr = some (if r.pos = 0 then 0 else 1, some r)
  nameOnly : ∀ symname, ∃ buf, lookupSymbolName k s addr symname = some (0, buf) ∧ NameIn symname buf name
  attrs : ∀ modname old, ∃ buf, lookupSymbolAttrs k s addr modname old =
    some ⟨0, some r, Function.update modname 0 0, buf⟩ ∧ NameIn old buf name
  printed : ∀ buffer, ∃ buf, sprintSymbolNoOffset k s buffer addr = some (name.length, buf) ∧ NameIn buffer buf name
  back : ∀ namebuf, kallsymsLookupName k name namebuf = some (addr - r.offset)

section

variable {k : Table w} {symbols : List (List U8)} {token : U8 → List U8} {s : Sections w} {addr : BitVec w}

/-- The stores before the search leave an empty string. -/
theorem nameIn_cleared (buf : Nat → U8) :
    NameIn buf (Function.update (Function.update buf 0 0) (ksymNameLen - 1) 0) [] := by
  refine ⟨⟨fun i hi => absurd hi (Nat.not_lt_zero i), ?_⟩, fun i hi => ?_⟩
  · exact (Function.update_of_ne (by decide) _ _).trans (Function.update_self 0 0 buf)
  · have hi' : 128 ≤ i := hi
    rw [Function.update_of_ne (by omega), Function.update_of_ne (by omega)]

theorem clear_comm (buf : Nat → U8) :
    Function.update (Function.update buf (ksymNameLen - 1) 0) 0 0 =
      Function.update (Function.update buf 0 0) (ksymNameLen - 1) 0 :=
  Function.update_comm (by decide) _ _ _

theorem answersNone (hcovered : s.isKsymAddr addr = false) (k : Table w) : AnswersNone k s addr := by
  refine ⟨fun namebuf => ⟨_, ?_, nameIn_cleared namebuf⟩, ?_, fun symname => ⟨_, ?_, nameIn_cleared symname⟩,
    fun modname name => ⟨_, ?_, nameIn_cleared name⟩, fun buffer => ?_⟩
  · simp only [kallsymsLookup, hcovered, clear_comm]
    rfl
  · simp only [kallsymsLookupSizeOffset, hcovered]
    rfl
  · simp only [lookupSymbolName, hcovered]
    rfl
  · simp only [lookupSymbolAttrs, hcovered]
    rfl
  · have hzero : addr + BitVec.ofInt w 0 = addr := BitVec.add_zero addr
    obtain ⟨buf, text, hrun, hholds, rfl⟩ :=
      @sprintSymbolAt_uncovered w k s addr 0 (hzero.symm ▸ hcovered) buffer false
    rw [hzero] at hrun hholds
    exact ⟨buf, hrun, hholds⟩

/-- Finding the name of a symbol by its position, into a buffer that was cleared. -/
theorem Laid.nameAt (h : Laid k symbols token) {pos : Nat} {data : List U8} (hdata : symbols[pos]? = some data)
    (buf : Nat → U8) : ∃ off next buf', getSymbolOffset k pos = some off ∧
      expandSymbol k off (Function.update (Function.update buf 0 0) (ksymNameLen - 1) 0) ksymNameLen =
        some (next, buf') ∧ NameIn buf buf' (symbolName token data) := by
  have hlt : pos < symbols.length := (List.getElem?_eq_some_iff.mp hdata).1
  obtain ⟨buf', hexpand, hholds, hframe⟩ :=
    h.expand hdata (Function.update (Function.update buf 0 0) (ksymNameLen - 1) 0)
  exact ⟨_, _, buf', h.symbolOffset hlt, hexpand, hholds, fun i hi =>
    (hframe i hi).trans ((nameIn_cleared buf).frame i hi)⟩

/-- The answers about an address of a symbol. -/
theorem answersSymbol (h : WellFormed k symbols token) (hcovered : s.isKsymAddr addr = true) {r : SymbolPos w}
    (hpos : getSymbolPos s k addr = some r) {data : List U8} (hdata : symbols[r.pos]? = some data)
    (hstart : k.addresses[r.pos]? = some (addr - r.offset)) :
    AnswersSymbol k s addr r (symbolName token data) := by
  refine ⟨fun namebuf => ?_, ?_, fun symname => ?_, fun modname old => ?_, fun buffer => ?_, h.lookupName hdata hstart⟩
  · obtain ⟨buf, hlookup, hholds, hframe⟩ := h.lookup hcovered hpos hdata namebuf
    exact ⟨buf, hlookup, hholds, hframe⟩
  · simp only [kallsymsLookupSizeOffset, hcovered, hpos, if_true, Option.bind_eq_bind, Option.bind_some, ne_eq, ite_not]
    rfl
  · obtain ⟨off, next, buf, hoffset, hexpand, hname⟩ := h.nameAt hdata symname
    refine ⟨buf, ?_, hname⟩
    simp only [lookupSymbolName, hcovered, hpos, if_true, Option.bind_eq_bind, Option.bind_some, hoffset, hexpand]
    rfl
  · obtain ⟨off, next, buf, hoffset, hexpand, hname⟩ := h.nameAt hdata old
    refine ⟨buf, ?_, hname⟩
    simp only [lookupSymbolAttrs, hcovered, hpos, if_true, Option.bind_eq_bind, Option.bind_some, hoffset, hexpand]
    rfl
  · have hzero : addr + BitVec.ofInt w 0 = addr := BitVec.add_zero addr
    obtain ⟨buf, hlookup, hholds, hframe⟩ := h.lookup hcovered hpos hdata buffer
    have hlen := strlen_holds hholds (h.name_noNul _) (symbolName_lt token data)
    refine ⟨buf, ?_, hholds, hframe⟩
    simp only [sprintSymbolNoOffset, sprintSymbolAt, hzero, hlookup, hlen, Option.bind_eq_bind, Option.bind_some]
    rfl

/-- **Questions about an address**: on tables that belong together all questions have one answer. For an address that the
sections cover it is the first symbol of the greatest address that is not above it (or the first symbols of all), and
its name leads back to that address; for the others it is that there is none. -/
theorem queries_agree (h : WellFormed k symbols token) (s : Sections w) (addr : BitVec w) :
    (s.isKsymAddr addr = false → AnswersNone k s addr) ∧
    (s.isKsymAddr addr = true → ∃ r data, symbols[r.pos]? = some data ∧
      k.addresses[r.pos]? = some (addr - r.offset) ∧
      ((∀ a ∈ k.addresses.head?, a ≤ addr) → Found k.addresses addr r (addr - r.offset)) ∧
      AnswersSymbol k s addr r (symbolName token data)) := by
  refine ⟨fun hcovered => answersNone hcovered k, fun hcovered => ?_⟩
  obtain ⟨pos, low, start, hrun, hbetween, hpos, hlow, hfirst⟩ := getSymbolPos_ends s h.nonempty addr
  have hlt : pos < symbols.length := h.count ▸ (List.getElem?_eq_some_iff.mp hpos).1
  have hdata : symbols[pos]? = some symbols[pos] := List.getElem?_eq_getElem hlt
  have hback : addr - (addr - start) = start := by grind
  refine ⟨_, symbols[pos], hdata, by rw [hback]; exact hpos, fun hhead => ?_,
    answersSymbol h hcovered hrun hdata (by rw [hback]; exact hpos)⟩
  rw [hback]
  exact found_of_ends s h.sorted hhead hbetween hpos hlow hfirst

end

theorem queries_agree_two : ∃ r data, twoSymbols[r.pos]? = some data ∧
    AnswersSymbol twoSymbolTable lowSections 0x2010 r (symbolName octetToken data) := by
  obtain ⟨r, data, hdata, -, -, hanswers⟩ :=
    (queries_agree twoSymbolTable_wellFormed lowSections 0x2010).2 (by decide)
  exact ⟨r, data, hdata, hanswers⟩

end XosKernel.Kallsyms
