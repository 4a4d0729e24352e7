import XosKernel.KallsymsSearch

/-! The compressed names. A name is found by its index, from the marker before it, or by the sequence of all names from the
start. Both ways come to the same octets, whatever the lengths of the names are, so the name that is found for an
address finds its symbol again. -/

namespace XosKernel.Kallsyms

variable {w : Nat}

/-- A compressed name in the stream: its length and its octets. -/
def entry (data : List U8) : List U8 := BitVec.ofNat 8 data.length :: data

/-- The stream of the compressed names. -/
def stream (symbols : List (List U8)) : List U8 := symbols.flatMap entry

/-- Where the `i`-th name starts. -/
def streamOffset (symbols : List (List U8)) (i : Nat) : Nat := (stream (symbols.take i)).length

/-- The first octets of an expanded name, without the type in front of it. -/
def expanded (token : U8 → List U8) (data : List U8) (maxlen : Nat) : List U8 :=
  ((data.flatMap token).drop 1).take (maxlen - 1)

/-- The name of a symbol, truncated to the buffers for names. -/
def symbolName (token : U8 → List U8) (data : List U8) : List U8 := expanded token data ksymNameLen

theorem symbolName_lt (token : U8 → List U8) (data : List U8) : (symbolName token data).length < ksymNameLen :=
  Nat.lt_of_le_of_lt (List.length_take_le (ksymNameLen - 1) _) (by decide)

/-- A string in a buffer, with its NUL. -/
structure HoldsString (buf : Nat → U8) (l : List U8) : Prop where
  octets : ∀ i < l.length, l[i]? = some (buf i)
  nul : buf l.length = 0

/-- Tables that belong together: for the compressed names `symbols` and the tokens `token`. Several symbols may have one
name. -/
structure Laid (k : Table w) (symbols : List (List U8)) (token : U8 → List U8) : Prop where
  count : symbols.length = k.addresses.length
  lengths : ∀ data ∈ symbols, data.length < 256
  names : k.names = stream symbols
  offsets : (stream symbols).length < 2 ^ 32
  markers : ∀ i, 256 * i < symbols.length →
    ∃ m, k.markers[i]? = some m ∧ m.toNat = streamOffset symbols (256 * i)
  tokens : ∀ b, ∃ i behind, k.tokenIndex[b.toNat]? = some i ∧ k.tokenTable.drop i.toNat = token b ++ 0 :: behind
  noNul : ∀ b, ∀ c ∈ token b, c ≠ 0

/-- Tables of symbols in the order of their addresses, each with a name of its own. -/
structure WellFormed (k : Table w) (symbols : List (List U8)) (token : U8 → List U8) : Prop
    extends Laid k symbols token where
  nonempty : k.addresses ≠ []
  sorted : k.addresses.Pairwise (· ≤ ·)
  distinct : (symbols.map (symbolName token)).Nodup

/-! ### Expanding a name -/

/-- What was copied of `text` so far, into a buffer that held `buf`. -/
structure Copied (buf : Nat → U8) (maxlen : Nat) (text : List U8) (s : Expand) : Prop where
  skipped : s.skippedFirst = !text.isEmpty
  result : s.result = min (maxlen - 1) (text.length - 1)
  room : s.maxlen = maxlen - s.result
  octets : ∀ i < s.result, (text.drop 1)[i]? = some (s.buf i)
  frame : ∀ i, s.result ≤ i → s.buf i = buf i

section

variable {buf : Nat → U8} {maxlen : Nat} {text : List U8} {s : Expand}

/-- A buffer that is full takes nothing more. -/
theorem Copied.full (h : Copied buf maxlen text s) (hskipped : s.skippedFirst = true) (hfull : s.maxlen ≤ 1)
    (more : List U8) : Copied buf maxlen (text ++ more) s := by
  have hresult := h.result
  have hroom := h.room
  have hne : text ≠ [] := by
    rintro rfl
    rw [h.skipped] at hskipped
    cases hskipped
  have hpos := List.length_pos_iff.mpr hne
  refine ⟨?_, ?_, h.room, fun i hi => ?_, h.frame⟩
  · rw [h.skipped]
    cases text with
    | nil => exact absurd rfl hne
    | cons c text => rfl
  · rw [List.length_append]
    omega
  · have hlt : i < (text.drop 1).length := by
      rw [List.length_drop]
      omega
    rw [List.drop_append_of_le_length hpos, List.getElem?_append_left hlt]
    exact h.octets i hi

theorem Copied.first (h : Copied buf maxlen text s) (hfirst : s.skippedFirst = false) (c : U8) :
    Copied buf maxlen (text ++ [c]) { s with skippedFirst := true } := by
  have hnil : text = [] := by
    rw [h.skipped] at hfirst
    cases text with
    | nil => rfl
    | cons d text => cases hfirst
  subst hnil
  exact ⟨rfl, h.result, h.room, h.octets, h.frame⟩

theorem Copied.next (h : Copied buf maxlen text s) (hskipped : s.skippedFirst = true) (hroom : ¬ s.maxlen ≤ 1)
    (c : U8) :
    Copied buf maxlen (text ++ [c]) { s with
      buf := Function.update s.buf s.result c, result := s.result + 1, maxlen := s.maxlen - 1 } := by
  have hresult := h.result
  have hmaxlen := h.room
  have hne : text ≠ [] := by
    rintro rfl
    rw [h.skipped] at hskipped
    cases hskipped
  have hpos := List.length_pos_iff.mpr hne
  have hlength : s.result = (text.drop 1).length := by
    rw [List.length_drop]
    omega
  refine ⟨?_, ?_, ?_, fun i hi => ?_, fun i hi => ?_⟩
  · rw [hskipped]
    cases text with
    | nil => exact absurd rfl hne
    | cons d text => rfl
  · rw [List.length_append, List.length_singleton]
    dsimp only
    omega
  · dsimp only
    omega
  · dsimp only at hi ⊢
    rw [List.drop_append_of_le_length hpos]
    rcases Nat.lt_succ_iff_lt_or_eq.mp hi with hlt | rfl
    · rw [List.getElem?_append_left (hlength ▸ hlt), Function.update_of_ne (Nat.ne_of_lt hlt)]
      exact h.octets i hlt
    · rw [hlength, List.getElem?_concat_length, Function.update_self]
  · dsimp only at hi ⊢
    rw [Function.update_of_ne (by omega)]
    exact h.frame i (by omega)

/-- A token is copied as far as there is room. -/
theorem copyToken_copied {t : List U8} (ht : ∀ c ∈ t, c ≠ 0) (behind : List U8) (h : Copied buf maxlen text s) :
    ∃ tail s', copyToken s (t ++ 0 :: behind) = some (tail, s') ∧ Copied buf maxlen (text ++ t) s' ∧
      (tail = true → s'.skippedFirst = true ∧ s'.maxlen ≤ 1) := by
  induction t generalizing text s with
  | nil => exact ⟨false, s, rfl, by rwa [List.append_nil], fun hfalse => by cases hfalse⟩
  | cons c t ih =>
      obtain ⟨hc, hrest⟩ := List.forall_mem_cons.mp ht
      have hsplit : text ++ c :: t = text ++ [c] ++ t := by rw [List.append_assoc, List.singleton_append]
      by_cases hskipped : s.skippedFirst = true
      · by_cases hroom : s.maxlen ≤ 1
        · refine ⟨true, s, ?_, h.full hskipped hroom _, fun _ => ⟨hskipped, hroom⟩⟩
          rw [List.cons_append, copyToken, if_neg hc, if_pos hskipped, if_pos hroom]
        · rw [hsplit, List.cons_append, copyToken, if_neg hc, if_pos hskipped, if_neg hroom]
          exact ih hrest (h.next hskipped hroom c)
      · rw [hsplit, List.cons_append, copyToken, if_neg hc, if_neg hskipped]
        exact ih hrest (h.first (Bool.eq_false_iff.mpr hskipped) c)

end

/-- The token tables hold the tokens. -/
def HoldsTokens (k : Table w) (token : U8 → List U8) : Prop :=
  ∀ b, (∃ i behind, k.tokenIndex[b.toNat]? = some i ∧ k.tokenTable.drop i.toNat = token b ++ 0 :: behind) ∧
    ∀ c ∈ token b, c ≠ 0

section

variable {k : Table w} {token : U8 → List U8} (htokens : HoldsTokens k token)

include htokens

theorem copyTokens_copied {buf : Nat → U8} {maxlen : Nat} (data behind : List U8) {text : List U8} {s : Expand}
    (h : Copied buf maxlen text s) :
    ∃ s', copyTokens k s data.length (data ++ behind) = some s' ∧
      Copied buf maxlen (text ++ data.flatMap token) s' := by
  induction data generalizing text s with
  | nil => exact ⟨s, rfl, by rwa [List.flatMap_nil, List.append_nil]⟩
  | cons b data ih =>
      obtain ⟨⟨i, after, hindex, htable⟩, hnul⟩ := htokens b
      obtain ⟨tail, s', hcopy, hcopied, htail⟩ := copyToken_copied hnul after h
      have hstep : copyTokens k s (b :: data).length (b :: data ++ behind) =
          if tail then some s' else copyTokens k s' data.length (data ++ behind) := by
        rw [List.length_cons, List.cons_append, copyTokens, hindex]
        simp only [Option.bind_eq_bind, Option.bind_some, htable, hcopy]
        rfl
      rw [hstep, List.flatMap_cons, ← List.append_assoc]
      cases tail with
      | true =>
          obtain ⟨hskipped, hfull⟩ := htail rfl
          exact ⟨s', rfl, hcopied.full hskipped hfull _⟩
      | false => exact ih hcopied

/-- `kallsyms_expand_symbol` leaves the first octets of the name and a NUL, and comes to the next name. -/
theorem expandSymbol_holds {off : U32} {data behind : List U8} (hdata : data.length < 256)
    (hnames : k.names.drop off.toNat = entry data ++ behind) (buf : Nat → U8) {maxlen : Nat} (hmaxlen : 1 ≤ maxlen) :
    ∃ buf', expandSymbol k off buf maxlen = some (off + (BitVec.ofNat 8 data.length).setWidth 32 + 1, buf') ∧
      HoldsString buf' (expanded token data maxlen) ∧ ∀ i, maxlen ≤ i → buf' i = buf i := by
  have hlength : (BitVec.ofNat 8 data.length).toNat = data.length := by
    rw [BitVec.toNat_ofNat, Nat.mod_eq_of_lt hdata]
  have hstart : Copied buf maxlen [] { buf, result := 0, maxlen, skippedFirst := false } :=
    ⟨rfl, (Nat.min_zero _).symm, rfl, fun i hi => absurd hi (Nat.not_lt_zero i), fun _ _ => rfl⟩
  obtain ⟨s, hcopy, hcopied⟩ := copyTokens_copied htokens data behind hstart
  rw [List.nil_append] at hcopied
  have hresult := hcopied.result
  have hroom : s.maxlen ≠ 0 := by
    rw [hcopied.room]
    omega
  refine ⟨Function.update s.buf s.result 0, ?_, ⟨fun i hi => ?_, ?_⟩, fun i hi => ?_⟩
  · rw [expandSymbol, hnames, entry, List.cons_append]
    simp only [hlength, hcopy, Option.bind_eq_bind, Option.bind_some, if_pos hroom]
    rfl
  · rw [expanded, List.length_take, List.length_drop] at hi
    rw [expanded, List.getElem?_take_of_lt (by omega), Function.update_of_ne (by omega)]
    exact hcopied.octets i (by omega)
  · rw [expanded, List.length_take, List.length_drop, ← hresult, Function.update_self]
  · rw [Function.update_of_ne (by omega)]
    exact hcopied.frame i (by omega)

end

/-! ### The stream -/

section

variable {symbols : List (List U8)} {i : Nat} {data : List U8}

theorem streamOffset_succ (hi : symbols[i]? = some data) :
    streamOffset symbols (i + 1) = streamOffset symbols i + data.length + 1 := by
  rw [streamOffset, List.take_add_one, hi, stream, Option.toList_some, List.flatMap_append, List.length_append,
    List.flatMap_singleton]
  rfl

theorem streamOffset_le (symbols : List (List U8)) (i : Nat) : streamOffset symbols i ≤ (stream symbols).length := by
  conv_rhs => rw [← List.take_append_drop i symbols]
  rw [stream, List.flatMap_append, List.length_append]
  exact Nat.le_add_right _ _

theorem stream_drop (hi : symbols[i]? = some data) :
    (stream symbols).drop (streamOffset symbols i) = entry data ++ stream (symbols.drop (i + 1)) := by
  obtain ⟨hlt, rfl⟩ := List.getElem?_eq_some_iff.mp hi
  have hsplit : stream symbols = stream (symbols.take i) ++ (entry symbols[i] ++ stream (symbols.drop (i + 1))) := by
    conv_lhs => rw [← List.take_append_drop i symbols, List.drop_eq_getElem_cons hlt]
    rw [stream, List.flatMap_append, List.flatMap_cons]
    rfl
  rw [hsplit, streamOffset, List.drop_left]

end

section

variable {k : Table w} {symbols : List (List U8)} {token : U8 → List U8}

theorem Laid.holdsTokens (h : Laid k symbols token) : HoldsTokens k token :=
  fun b => ⟨h.tokens b, h.noNul b⟩

theorem Laid.offset_lt (h : Laid k symbols token) (i : Nat) : streamOffset symbols i < 2 ^ 32 :=
  (streamOffset_le symbols i).trans_lt h.offsets

theorem Laid.toNat_offset (h : Laid k symbols token) (i : Nat) :
    (BitVec.ofNat 32 (streamOffset symbols i)).toNat = streamOffset symbols i := by
  rw [BitVec.toNat_ofNat, Nat.mod_eq_of_lt (h.offset_lt i)]

/-- Expanding the `i`-th name. -/
theorem Laid.expand (h : Laid k symbols token) {i : Nat} {data : List U8} (hi : symbols[i]? = some data)
    (buf : Nat → U8) :
    ∃ buf', expandSymbol k (BitVec.ofNat 32 (streamOffset symbols i)) buf ksymNameLen =
        some (BitVec.ofNat 32 (streamOffset symbols (i + 1)), buf') ∧
      HoldsString buf' (symbolName token data) ∧ ∀ j, ksymNameLen ≤ j → buf' j = buf j := by
  have hdata := h.lengths data (List.mem_of_getElem? hi)
  have hnames : k.names.drop (BitVec.ofNat 32 (streamOffset symbols i)).toNat =
      entry data ++ stream (symbols.drop (i + 1)) := by
    rw [h.toNat_offset, h.names, stream_drop hi]
  obtain ⟨buf', hexpand, hholds, hframe⟩ :=
    expandSymbol_holds h.holdsTokens hdata hnames buf (show 1 ≤ ksymNameLen by decide)
  refine ⟨buf', ?_, hholds, hframe⟩
  rw [hexpand]
  congr 2
  apply BitVec.eq_of_toNat_eq
  have hnext := h.offset_lt (i + 1)
  rw [streamOffset_succ hi] at hnext
  rw [h.toNat_offset, streamOffset_succ hi, BitVec.toNat_add, BitVec.toNat_add, BitVec.toNat_setWidth, h.toNat_offset,
    BitVec.toNat_ofNat, Nat.mod_eq_of_lt (a := data.length) hdata, show (1 : U32).toNat = 1 from rfl]
  omega

/-- Skipping names. -/
theorem Laid.skip (h : Laid k symbols token) (n i : Nat) (hi : i + n ≤ symbols.length) :
    skipSymbols k n (streamOffset symbols i) = some (streamOffset symbols (i + n)) := by
  induction n generalizing i with
  | zero => rfl
  | succ n ih =>
      have hlt : i < symbols.length := by omega
      have hdata := h.lengths _ (List.getElem_mem hlt)
      have hread : k.names[streamOffset symbols i]? = some (BitVec.ofNat 8 symbols[i].length) := by
        have hdrop := stream_drop (List.getElem?_eq_getElem hlt)
        rw [← Nat.add_zero (streamOffset symbols i), ← List.getElem?_drop, h.names, hdrop]
        rfl
      have hnext := streamOffset_succ (List.getElem?_eq_getElem hlt)
      rw [skipSymbols, hread, Option.bind_some, BitVec.toNat_ofNat, Nat.mod_eq_of_lt hdata, ← hnext,
        ih (i + 1) (by omega), Nat.add_right_comm]
      rfl

/-- `get_symbol_offset` comes to the name of its symbol. -/
theorem Laid.symbolOffset (h : Laid k symbols token) {pos : Nat} (hpos : pos < symbols.length) :
    getSymbolOffset k pos = some (BitVec.ofNat 32 (streamOffset symbols pos)) := by
  have hle : 256 * (pos / 256) < symbols.length := by omega
  obtain ⟨m, hmarker, hoffset⟩ := h.markers (pos / 256) hle
  have hskip := h.skip (pos % 256) (256 * (pos / 256)) (by omega)
  rw [Nat.div_add_mod] at hskip
  simp only [getSymbolOffset, hmarker, hoffset, hskip, Option.bind_eq_bind, Option.bind_some]
  rfl

/-! ### Looking a name up -/

theorem sameString_iff {buf : Nat → U8} {l : List U8} (hbuf : HoldsString buf l) (hl : ∀ c ∈ l, c ≠ 0)
    {name : List U8} (hname : ∀ c ∈ name, c ≠ 0) : sameString buf 0 name = true ↔ name = l := by
  suffices hfrom : ∀ (name : List U8) (i : Nat), (∀ c ∈ name, c ≠ 0) → i ≤ l.length →
      (sameString buf i name = true ↔ name = l.drop i) by
    rw [hfrom name 0 hname (Nat.zero_le _), List.drop_zero]
  intro name
  induction name with
  | nil =>
      intro i _ hi
      rw [sameString, beq_iff_eq, @eq_comm _ [], List.drop_eq_nil_iff]
      constructor
      · intro hzero
        by_contra hlt
        have hoctet := hbuf.octets i (by omega)
        rw [hzero] at hoctet
        exact hl 0 (List.mem_of_getElem? hoctet) rfl
      · intro hge
        rw [Nat.le_antisymm hi hge]
        exact hbuf.nul
  | cons c name ih =>
      intro i hname hi
      obtain ⟨hc, hrest⟩ := List.forall_mem_cons.mp hname
      rw [sameString, Bool.and_eq_true, beq_iff_eq]
      rcases Nat.eq_or_lt_of_le hi with rfl | hlt
      · rw [hbuf.nul, List.drop_length]
        exact ⟨fun hsame => absurd hsame.1.symm hc, fun hsame => by cases hsame⟩
      · have hoctet := hbuf.octets i hlt
        rw [List.getElem?_eq_getElem hlt, Option.some.injEq] at hoctet
        rw [ih (i + 1) hrest hlt, List.drop_eq_getElem_cons hlt, List.cons.injEq, hoctet, eq_comm (a := buf i)]

theorem Laid.name_noNul (h : Laid k symbols token) (data : List U8) :
    ∀ c ∈ symbolName token data, c ≠ 0 := by
  intro c hc
  have hmem := List.mem_of_mem_drop (List.mem_of_mem_take hc)
  obtain ⟨b, -, hb⟩ := List.mem_flatMap.mp hmem
  exact h.noNul b c hb

/-- The names of two symbols are different. -/
theorem WellFormed.name_inj (h : WellFormed k symbols token) {i j : Nat} {data data' : List U8}
    (hi : symbols[i]? = some data) (hj : symbols[j]? = some data')
    (hname : symbolName token data = symbolName token data') : i = j := by
  have hlt : i < (symbols.map (symbolName token)).length := by
    rw [List.length_map]
    exact (List.getElem?_eq_some_iff.mp hi).1
  refine (List.getElem?_inj hlt h.distinct).mp ?_
  rw [List.getElem?_map, List.getElem?_map, hi, hj, Option.map_some, Option.map_some, hname]

/-- The search from the `i`-th symbol on finds the symbol `pos` by its name. -/
theorem WellFormed.lookupFrom (h : WellFormed k symbols token) {pos : Nat} {data : List U8} {address : BitVec w}
    (hdata : symbols[pos]? = some data) (haddress : k.addresses[pos]? = some address) (n i : Nat)
    (hi : i + n = pos) (namebuf : Nat → U8) :
    lookupNameFrom k (symbolName token data) (BitVec.ofNat 32 (streamOffset symbols i)) namebuf
      (k.addresses.drop i) = some address := by
  induction n generalizing i namebuf with
  | zero =>
      obtain rfl : i = pos := hi
      obtain ⟨hlt, rfl⟩ := List.getElem?_eq_some_iff.mp haddress
      obtain ⟨buf, hexpand, hholds, -⟩ := h.expand hdata namebuf
      have hsame := (sameString_iff hholds (h.name_noNul data) (h.name_noNul data)).mpr rfl
      rw [List.drop_eq_getElem_cons hlt, lookupNameFrom, hexpand]
      simp only [Option.bind_eq_bind, Option.bind_some, hsame, if_true]
      rfl
  | succ n ih =>
      have hlt : i < k.addresses.length := by
        have := (List.getElem?_eq_some_iff.mp haddress).1
        omega
      have hlt' : i < symbols.length := h.count ▸ hlt
      have hread : symbols[i]? = some symbols[i] := List.getElem?_eq_getElem hlt'
      obtain ⟨buf, hexpand, hholds, -⟩ := h.expand hread namebuf
      have hother : ¬ sameString buf 0 (symbolName token data) = true := by
        rw [sameString_iff hholds (h.name_noNul _) (h.name_noNul data)]
        intro hname
        have := h.name_inj hdata hread hname
        omega
      rw [List.drop_eq_getElem_cons hlt, lookupNameFrom, hexpand]
      simp only [Option.bind_eq_bind, Option.bind_some, if_neg hother]
      exact ih (i + 1) (by omega) buf

theorem WellFormed.lookupName (h : WellFormed k symbols token) {pos : Nat} {data : List U8} {address : BitVec w}
    (hdata : symbols[pos]? = some data) (haddress : k.addresses[pos]? = some address) (namebuf : Nat → U8) :
    kallsymsLookupName k (symbolName token data) namebuf = some address :=
  h.lookupFrom hdata haddress pos 0 (Nat.zero_add pos) namebuf

/-! ### Looking an address up -/

/-- `kallsyms_lookup` of an address that the sections cover. -/
theorem Laid.lookup (h : Laid k symbols token) {s : Sections w} {addr : BitVec w}
    (hcovered : s.isKsymAddr addr = true) {r : SymbolPos w} (hpos : getSymbolPos s k addr = some r) {data : List U8}
    (hdata : symbols[r.pos]? = some data) (namebuf : Nat → U8) :
    ∃ buf, kallsymsLookup k s addr namebuf = some (buf, some r) ∧ HoldsString buf (symbolName token data) ∧
      ∀ i, ksymNameLen ≤ i → buf i = namebuf i := by
  have hlt : r.pos < symbols.length := (List.getElem?_eq_some_iff.mp hdata).1
  obtain ⟨buf, hexpand, hholds, hframe⟩ :=
    h.expand hdata (Function.update (Function.update namebuf (ksymNameLen - 1) 0) 0 0)
  refine ⟨buf, ?_, hholds, fun i hi => ?_⟩
  · simp only [kallsymsLookup, if_pos hcovered, hpos, h.symbolOffset hlt, Option.bind_eq_bind, Option.bind_some, hexpand]
    rfl
  · have hi' : 128 ≤ i := hi
    rw [hframe i hi, Function.update_of_ne (by omega), Function.update_of_ne (by omega)]

/-- **Names and addresses**: the name that is found for an address is that of its symbol, within its buffer, and it finds
the symbol's address, the address without the offset. -/
theorem kallsyms_lookup_agrees (h : WellFormed k symbols token) (s : Sections w) {addr : BitVec w}
    (hcovered : s.isKsymAddr addr = true) (hhead : ∀ a ∈ k.addresses.head?, a ≤ addr) (namebuf namebuf' : Nat → U8) :
    ∃ r data buf, getSymbolPos s k addr = some r ∧ symbols[r.pos]? = some data ∧
      kallsymsLookup k s addr namebuf = some (buf, some r) ∧ HoldsString buf (symbolName token data) ∧
      (symbolName token data).length < ksymNameLen ∧ (∀ i, ksymNameLen ≤ i → buf i = namebuf i) ∧
      k.addresses[r.pos]? = some (addr - r.offset) ∧
      kallsymsLookupName k (symbolName token data) namebuf' = some (addr - r.offset) := by
  obtain ⟨r, start, hpos, hfound⟩ := getSymbolPos_found s h.nonempty h.sorted hhead
  have hlt : r.pos < symbols.length := h.count ▸ (List.getElem?_eq_some_iff.mp hfound.symbol).1
  have hdata : symbols[r.pos]? = some symbols[r.pos] := List.getElem?_eq_getElem hlt
  obtain ⟨buf, hlookup, hholds, hframe⟩ := h.lookup hcovered hpos hdata namebuf
  have hstart : start = addr - r.offset := by
    have hle := hfound.le
    have hoffset := hfound.offset
    apply BitVec.eq_of_toNat_eq
    rw [BitVec.toNat_sub_of_le (BitVec.le_def.mpr (by omega)), hoffset]
    omega
  have haddress : k.addresses[r.pos]? = some (addr - r.offset) := hstart ▸ hfound.symbol
  refine ⟨r, symbols[r.pos], buf, hpos, hdata, hlookup, hholds, symbolName_lt token _, hframe, haddress,
    h.lookupName hdata haddress namebuf'⟩

end

/-! ### Tables without compression -/

/-- Every octet but the NUL stands for itself. -/
def octetToken (b : U8) : List U8 := if b = 0 then [] else [b]

/-- The table of symbols that are not compressed. -/
def plainTable (addresses : List (BitVec 64)) (symbols : List (List U8)) : Table 64 where
  addresses := addresses
  names := stream symbols
  tokenTable := (List.range 256).flatMap fun b => [BitVec.ofNat 8 b, 0]
  tokenIndex := (List.range 256).map fun b => BitVec.ofNat 16 (2 * b)
  markers := (List.range ((symbols.length + 255) / 256)).map fun i => BitVec.ofNat 64 (streamOffset symbols (256 * i))

theorem drop_pairs (f : Nat → U8) (l : List Nat) (n : Nat) :
    (l.flatMap fun b => [f b, 0]).drop (2 * n) = (l.drop n).flatMap fun b => [f b, 0] := by
  induction n generalizing l with
  | zero => rfl
  | succ n ih =>
      cases l with
      | nil => rfl
      | cons b l => exact ih l

section

variable {addresses : List (BitVec 64)} {symbols : List (List U8)}

theorem plainTable_tokens (b : U8) : ∃ i behind, (plainTable addresses symbols).tokenIndex[b.toNat]? = some i ∧
    (plainTable addresses symbols).tokenTable.drop i.toNat = octetToken b ++ 0 :: behind := by
  have hb : b.toNat < 256 := b.isLt
  have hindex : (BitVec.ofNat 16 (2 * b.toNat)).toNat = 2 * b.toNat := by
    rw [BitVec.toNat_ofNat, Nat.mod_eq_of_lt (by omega)]
  have htable : (plainTable addresses symbols).tokenTable.drop (2 * b.toNat) =
      b :: 0 :: ((List.range 256).drop (b.toNat + 1)).flatMap fun b => [BitVec.ofNat 8 b, 0] := by
    rw [plainTable, drop_pairs, List.drop_eq_getElem_cons (by rw [List.length_range]; exact hb), List.getElem_range,
      List.flatMap_cons, BitVec.ofNat_toNat, BitVec.setWidth_eq]
    rfl
  have hread : (plainTable addresses symbols).tokenIndex[b.toNat]? = some (BitVec.ofNat 16 (2 * b.toNat)) := by
    rw [plainTable, List.getElem?_map, List.getElem?_range hb]
    rfl
  by_cases hzero : b = 0
  · refine ⟨_, 0 :: ((List.range 256).drop (b.toNat + 1)).flatMap fun b => [BitVec.ofNat 8 b, 0], hread, ?_⟩
    rw [hindex, htable, octetToken, if_pos hzero, hzero]
    rfl
  · refine ⟨_, ((List.range 256).drop (b.toNat + 1)).flatMap fun b => [BitVec.ofNat 8 b, 0], hread, ?_⟩
    rw [hindex, htable, octetToken, if_neg hzero]
    rfl

theorem length_stream_le (hlengths : ∀ data ∈ symbols, data.length < 256) :
    (stream symbols).length ≤ 256 * symbols.length := by
  induction symbols with
  | nil => exact Nat.le_refl 0
  | cons data symbols ih =>
      obtain ⟨hdata, hrest⟩ := List.forall_mem_cons.mp hlengths
      have hstep : (stream (data :: symbols)).length = data.length + 1 + (stream symbols).length := by
        rw [stream, List.flatMap_cons, List.length_append]
        rfl
      have hle := ih hrest
      rw [hstep, List.length_cons]
      omega

theorem plainTable_laid (hcount : symbols.length = addresses.length) (hlengths : ∀ data ∈ symbols, data.length < 256)
    (hlength : symbols.length < 2 ^ 24) : Laid (plainTable addresses symbols) symbols octetToken where
  count := hcount
  lengths := hlengths
  names := rfl
  offsets := by
    have hle := length_stream_le hlengths
    omega
  markers i hi := by
    have hstream := length_stream_le hlengths
    refine ⟨BitVec.ofNat 64 (streamOffset symbols (256 * i)), ?_, ?_⟩
    · rw [plainTable, List.getElem?_map, List.getElem?_range (by omega)]
      rfl
    · have hle := streamOffset_le symbols (256 * i)
      rw [BitVec.toNat_ofNat, Nat.mod_eq_of_lt (by omega)]
  tokens := plainTable_tokens
  noNul b c hc := by
    rw [octetToken] at hc
    split at hc
    · cases hc
    · rwa [List.mem_singleton.mp hc]

end

/-- Sections that cover the addresses from 0x1000 to 0x3000. -/
def lowSections : Sections 64 := ⟨0x1000, 0x3000, 1, 0, 0x3000, fun _ => false, false⟩

/-- The symbols `a` and `b`, each of type `T`. -/
def twoSymbols : List (List U8) := [[0x54, 0x61], [0x54, 0x62]]

def twoSymbolTable : Table 64 := plainTable [0x1000, 0x2000] twoSymbols

theorem twoSymbolTable_laid : Laid twoSymbolTable twoSymbols octetToken :=
  plainTable_laid rfl (by decide) (by decide)

theorem twoSymbolTable_wellFormed : WellFormed twoSymbolTable twoSymbols octetToken where
  toLaid := twoSymbolTable_laid
  nonempty := by decide
  sorted := by decide
  distinct := by decide

/-- A name of two letters. -/
def shortName (i : Nat) : List U8 := [BitVec.ofNat 8 (0x61 + i / 16), BitVec.ofNat 8 (0x61 + i % 16)]

/-- A name of many letters. -/
def longName (length : Nat) : List U8 := List.replicate length 0x7a

/-- Behind 256 symbols with short names, one with a name of 200 octets. -/
def manySymbols : List (List U8) := (List.range 256).map (fun i => 0x54 :: shortName i) ++ [0x54 :: longName 200]

def manySymbolTable : Table 64 :=
  plainTable ((List.range 257).map fun i => BitVec.ofNat 64 (0x1000 + 16 * i)) manySymbols

theorem symbolName_shortName : ∀ i < 256, symbolName octetToken (0x54 :: shortName i) = shortName i := by decide +kernel

theorem symbolName_longName : symbolName octetToken (0x54 :: longName 200) = longName 127 := by decide +kernel

theorem length_longName (n : Nat) : (longName n).length = n := List.length_replicate

theorem shortName_inj {i j : Nat} (hi : i < 256) (hj : j < 256) (h : shortName i = shortName j) : i = j := by
  have hhigh := congrArg BitVec.toNat (List.cons.inj h).1
  have hlow := congrArg BitVec.toNat (List.cons.inj (List.cons.inj h).2).1
  rw [BitVec.toNat_ofNat, BitVec.toNat_ofNat] at hhigh hlow
  omega

theorem manySymbols_distinct : (manySymbols.map (symbolName octetToken)).Nodup := by
  have hshort : (List.range 256).map (symbolName octetToken ∘ fun i => 0x54 :: shortName i) =
      (List.range 256).map shortName :=
    List.map_congr_left fun i hi => symbolName_shortName i (List.mem_range.mp hi)
  rw [manySymbols, List.map_append, List.map_map, hshort, List.map_singleton, symbolName_longName, List.nodup_append]
  refine ⟨?_, List.nodup_singleton _, fun name hname long hlong => ?_⟩
  · refine List.Nodup.map_on (fun i hi j hj => ?_) List.nodup_range
    exact shortName_inj (List.mem_range.mp hi) (List.mem_range.mp hj)
  · rintro rfl
    obtain ⟨i, -, hi⟩ := List.mem_map.mp hname
    have hlength : (shortName i).length = 127 := by rw [hi, List.mem_singleton.mp hlong, length_longName]
    exact absurd (hlength.symm.trans rfl : 127 = 2) (by decide)

theorem manySymbols_lengths : ∀ data ∈ manySymbols, data.length < 256 := by
  intro data hdata
  rcases List.mem_append.mp hdata with hdata | hdata
  · obtain ⟨i, -, rfl⟩ := List.mem_map.mp hdata
    show 3 < 256
    decide
  · rw [List.mem_singleton.mp hdata, List.length_cons, length_longName]
    decide

theorem manySymbolTable_sorted : manySymbolTable.addresses.Pairwise (· ≤ ·) := by
  refine List.pairwise_map.mpr (List.pairwise_lt_range.imp_of_mem fun {i j} hi hj hij => ?_)
  have hi := List.mem_range.mp hi
  have hj := List.mem_range.mp hj
  rw [BitVec.le_def, BitVec.toNat_ofNat, BitVec.toNat_ofNat]
  omega

theorem manySymbolTable_wellFormed : WellFormed manySymbolTable manySymbols octetToken where
  toLaid := plainTable_laid (by simp [manySymbols]) manySymbols_lengths (by simp [manySymbols])
  nonempty := by simp [manySymbolTable, plainTable]
  sorted := manySymbolTable_sorted
  distinct := manySymbols_distinct

theorem manySymbolTable_pos : (getSymbolPos lowSections manySymbolTable 0x2010).map (fun r => (r.pos, r.offset)) =
    some (256, 0x10) := by decide +kernel

/-- The last symbol is found by the second marker, and by the 127 octets of its name that fit. -/
theorem kallsyms_lookup_agrees_second_marker :
    ∃ r buf, r.pos = 256 ∧ kallsymsLookup manySymbolTable lowSections 0x2010 (fun _ => 0xff) = some (buf, some r) ∧
      HoldsString buf (longName 127) ∧ (∀ i, ksymNameLen ≤ i → buf i = 0xff) ∧
      kallsymsLookupName manySymbolTable (longName 127) (fun _ => 0xff) = some 0x2000 := by
  have hhead : ∀ a ∈ manySymbolTable.addresses.head?, a ≤ 0x2010 := by
    rintro a ⟨rfl⟩
    decide
  have hrun := manySymbolTable_pos
  obtain ⟨r, data, buf, hpos, hdata, hlookup, hholds, -, hframe, -, hname⟩ :=
    @kallsyms_lookup_agrees 64 manySymbolTable manySymbols octetToken manySymbolTable_wellFormed lowSections 0x2010
      (by decide) hhead (fun _ => 0xff) fun _ => 0xff
  rw [hpos, Option.map_some, Option.some.injEq, Prod.mk.injEq] at hrun
  obtain ⟨hlast, hoffset⟩ := hrun
  have hlong : manySymbols[256]? = some (0x54 :: longName 200) := by simp [manySymbols]
  rw [hlast, hlong, Option.some.injEq] at hdata
  rw [← hdata, symbolName_longName] at hholds hname
  rw [hoffset] at hname
  exact ⟨r, buf, hlast, hlookup, hholds, hframe, hname⟩

end XosKernel.Kallsyms
