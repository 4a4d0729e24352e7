import XosKernel.KallsymsTokens
import XosKernel.KallsymsOrder

/-! What `write_src` puts into the tables is what `kernel/kallsyms.c` reads there: the names one after the other, with a
marker for every 256th of them, and the tokens with the index of each. -/

namespace XosKernel.Kallsyms

variable {w : Nat}

/-! ### Looking a name up among symbols that share names -/

/-- The address of the first symbol with a name; 0 when there is none. -/
def firstNamed (token : U8 → List U8) (name : List U8) : List (List U8 × BitVec w) → BitVec w
  | [] => 0
  | (data, address) :: symbols => if name = symbolName token data then address else firstNamed token name symbols

section

variable {k : Table w} {symbols : List (List U8)} {token : U8 → List U8}

theorem Laid.lookupNameFrom (h : Laid k symbols token) {name : List U8} (hname : ∀ c ∈ name, c ≠ 0) (n i : Nat)
    (hi : i + n = symbols.length) (namebuf : Nat → U8) :
    Kallsyms.lookupNameFrom k name (BitVec.ofNat 32 (streamOffset symbols i)) namebuf (k.addresses.drop i) =
      some (firstNamed token name ((symbols.zip k.addresses).drop i)) := by
  induction n generalizing i namebuf with
  | zero =>
      have hlength : (symbols.zip k.addresses).length ≤ i := by
        rw [List.length_zip, ← h.count]
        omega
      rw [List.drop_eq_nil_of_le (by rw [← h.count]; omega), List.drop_eq_nil_of_le hlength]
      rfl
  | succ n ih =>
      have hsymbol : i < symbols.length := by omega
      have haddress : i < k.addresses.length := h.count ▸ hsymbol
      have hpair : i < (symbols.zip k.addresses).length := by
        rw [List.length_zip, ← h.count]
        omega
      obtain ⟨buf, hexpand, hholds, -⟩ := h.expand (List.getElem?_eq_getElem hsymbol) namebuf
      have hsame := sameString_iff hholds (h.name_noNul _) hname
      rw [List.drop_eq_getElem_cons haddress, List.drop_eq_getElem_cons hpair, List.getElem_zip, firstNamed,
        Kallsyms.lookupNameFrom, hexpand]
      simp only [Option.bind_eq_bind, Option.bind_some, hsame]
      split
      · rfl
      · exact ih (i + 1) (by omega) buf

/-- `kallsyms_lookup_name` finds the first symbol with the name. -/
theorem Laid.lookupName (h : Laid k symbols token) {name : List U8} (hname : ∀ c ∈ name, c ≠ 0) (namebuf : Nat → U8) :
    kallsymsLookupName k name namebuf = some (firstNamed token name (symbols.zip k.addresses)) :=
  h.lookupNameFrom hname symbols.length 0 (Nat.zero_add _) namebuf

end

end XosKernel.Kallsyms

namespace XosKernel.Kallsyms.Script

variable {w : Nat}

/-! ### The names -/

theorem writeNames_stream {table : List SymEntry} {ls : List (List U8)} (h : List.Forall₂ Holds table ls) (i : Nat)
    (off : U32) : (writeNames (w := w) i off table).1 = stream ls := by
  induction h generalizing i off with
  | nil => rfl
  | cons hfirst hrest ih =>
      rw [writeNames]
      dsimp only
      rw [ih, hfirst.take, hfirst.len]
      rfl

/-- Every 256th name has its marker, from the `i`-th name on. -/
theorem writeNames_markers {table : List SymEntry} {ls : List (List U8)} (h : List.Forall₂ Holds table ls) (i : Nat)
    (off : U32) {j : Nat} (hj : i ≤ 256 * j) (hlt : 256 * j < i + ls.length) :
    (writeNames (w := w) i off table).2[j - (i + 255) / 256]? =
      some ((off + BitVec.ofNat 32 (streamOffset ls (256 * j - i))).signExtend w) := by
  induction h generalizing i off with
  | nil =>
      rw [List.length_nil] at hlt
      omega
  | @cons e l table ls hfirst hrest ih =>
      have hmask : i &&& 0xff = i % 256 := Nat.and_two_pow_sub_one_eq_mod i 8
      rw [List.length_cons] at hlt
      rw [writeNames, hmask]
      dsimp only
      rcases Nat.eq_or_lt_of_le hj with rfl | hbehind
      · rw [if_pos (by omega), show j - (256 * j + 255) / 256 = 0 by omega, Nat.sub_self, List.getElem?_cons_zero,
          streamOffset, List.take_zero]
        exact congrArg some (congrArg _ (BitVec.add_zero off).symm)
      · have hnext := ih (i + 1) (off + BitVec.ofNat 32 e.len + 1) hbehind (by omega)
        have hoffset : off + BitVec.ofNat 32 e.len + 1 + BitVec.ofNat 32 (streamOffset ls (256 * j - (i + 1))) =
            off + BitVec.ofNat 32 (streamOffset (l :: ls) (256 * j - i)) := by
          obtain ⟨d, hd⟩ : ∃ d, 256 * j - i = d + 1 := ⟨256 * j - i - 1, by omega⟩
          have hlength : streamOffset (l :: ls) (d + 1) = l.length + 1 + streamOffset ls d := by
            rw [streamOffset, List.take_succ_cons, stream, List.flatMap_cons, List.length_append]
            rfl
          rw [hd, show 256 * j - (i + 1) = d by omega, hlength, hfirst.len, BitVec.ofNat_add, BitVec.ofNat_add]
          simp only [BitVec.add_assoc]
          rfl
        rw [hoffset] at hnext
        by_cases hmarked : i % 256 = 0
        · rw [if_pos hmarked, show j - (i + 255) / 256 = (j - (i + 1 + 255) / 256) + 1 by omega, List.getElem?_cons_succ]
          exact hnext
        · rw [if_neg hmarked, show j - (i + 255) / 256 = j - (i + 1 + 255) / 256 by omega]
          exact hnext

/-! ### The tokens -/

section

variable {s : Tables} {val : Nat → List U8}

/-- The tokens of the slots, each with its NUL. -/
def tokenTexts (val : Nat → List U8) (slots : List Nat) : List U8 := slots.flatMap fun i => val i ++ [0]

theorem tokenTexts_cons (i : Nat) (slots : List Nat) :
    tokenTexts val (i :: slots) = val i ++ [0] ++ tokenTexts val slots := List.flatMap_cons

theorem writeTokens_texts {slots : List Nat} (hval : ∀ i ∈ slots, tokenText s i = some (val i ++ [0])) (off : Nat) :
    ∃ index, writeTokens s off slots = some (tokenTexts val slots, index) ∧
      ∀ n < slots.length, index[n]? = some (BitVec.ofNat 16 (off + (tokenTexts val (slots.take n)).length)) := by
  induction slots generalizing off with
  | nil => exact ⟨[], rfl, fun n hn => absurd hn (Nat.not_lt_zero n)⟩
  | cons i slots ih =>
      obtain ⟨hfirst, hrest⟩ := List.forall_mem_cons.mp hval
      obtain ⟨index, hwrite, hindex⟩ := ih hrest (off + (val i ++ [0]).length)
      refine ⟨BitVec.ofNat 16 off :: index, ?_, fun n hn => ?_⟩
      · rw [writeTokens, hfirst]
        simp only [Option.bind_eq_bind, Option.bind_some, hwrite, tokenTexts_cons]
        rfl
      · cases n with
        | zero => rfl
        | succ n =>
            rw [List.getElem?_cons_succ, hindex n (Nat.lt_of_succ_lt_succ hn), List.take_succ_cons]
            simp only [tokenTexts_cons, List.length_append, Nat.add_assoc]

theorem length_tokenTexts_le {m : Nat} (hval : ∀ i, (val i).length < m) (slots : List Nat) :
    (tokenTexts val slots).length ≤ slots.length * m := by
  induction slots with
  | nil => exact Nat.zero_le _
  | cons i slots ih =>
      have hone := hval i
      rw [tokenTexts_cons, List.length_append, List.length_append, List.length_singleton, List.length_cons, Nat.succ_mul]
      omega

/-- Each token stands at its index. -/
theorem tokenTexts_drop {slots : List Nat} {n : Nat} (hn : n < slots.length) :
    (tokenTexts val slots).drop (tokenTexts val (slots.take n)).length =
      val slots[n] ++ 0 :: tokenTexts val (slots.drop (n + 1)) := by
  conv_lhs => rw [← List.take_append_drop n slots, List.drop_eq_getElem_cons hn]
  rw [List.take_left' (by rw [List.length_take]; omega), tokenTexts, tokenTexts, List.flatMap_append, List.drop_left,
    List.flatMap_cons, List.append_assoc]
  rfl

end

/-! ### The symbols that are kept -/

/-- The type and the name of a symbol. -/
def SymEntry.octets (e : SymEntry) : List U8 := e.sym.take e.len

/-- The symbols in the tables. -/
def kept (o : Options) (lines : List MapLine) : List SymEntry :=
  (sortSymbols (mapTable o lines)).filter (symbolValid o (readMap o lines))

/-- A symbol that the buffers and the assembler take as it is. -/
structure Plain (l : MapLine) : Prop where
  short : l.str.length + 1 < ksymNameLen
  clean : ∀ c ∈ l.stype :: l.str, c ≠ 0 ∧ c ≠ 0x22 ∧ c ≠ 0x5c

section

variable {o : Options} {lines : List MapLine}

theorem kept_entry {e : SymEntry} (he : e ∈ kept o lines) :
    ∃ l ∈ lines, ∃ k, e = l.entry k ∨ e = { l.entry k with sym := 0x41 :: l.str ++ [0] } := by
  have hmem : e ∈ mapTable o lines := (sortSymbols_perm _).mem_iff.mp (List.mem_filter.mp he).1
  obtain ⟨k, hk⟩ := List.getElem?_of_mem hmem
  obtain ⟨l, hl, hentry⟩ := mapTable_getElem? o lines hk
  exact ⟨l, hl, k, hentry⟩

/-- An entry holds the type and the name of its line. -/
theorem kept_holds {e : SymEntry} (he : e ∈ kept o lines) :
    ∃ l ∈ lines, ∃ c, (c = l.stype ∨ c = 0x41) ∧ e.octets = c :: l.str ∧ Holds e e.octets := by
  obtain ⟨l, hl, k, rfl | rfl⟩ := kept_entry he
  · have hoctets : (l.entry k).octets = l.stype :: l.str := @List.take_left _ (l.stype :: l.str) _
    exact ⟨l, hl, l.stype, .inl rfl, hoctets, by rw [hoctets]; exact ⟨rfl, 0, rfl⟩⟩
  · have hoctets : SymEntry.octets { l.entry k with sym := 0x41 :: l.str ++ [0] } = 0x41 :: l.str :=
      @List.take_left _ (0x41 :: l.str) _
    exact ⟨l, hl, 0x41, .inr rfl, hoctets, by rw [hoctets]; exact ⟨rfl, 0, rfl⟩⟩

theorem kept_clean (hplain : ∀ l ∈ lines, Plain l) {e : SymEntry} (he : e ∈ kept o lines) :
    e.octets.length < ksymNameLen ∧ ∀ c ∈ e.octets, c ≠ 0 ∧ c ≠ 0x22 ∧ c ≠ 0x5c := by
  obtain ⟨l, hl, c, hc, hoctets, -⟩ := kept_holds he
  obtain ⟨hshort, hclean⟩ := hplain l hl
  rw [hoctets]
  refine ⟨hshort, List.forall_mem_cons.mpr ⟨?_, (List.forall_mem_cons.mp hclean).2⟩⟩
  rcases hc with rfl | rfl
  · exact (List.forall_mem_cons.mp hclean).1
  · decide

theorem kept_sorted : ((kept o lines).map fun e => e.addr.toNat).Pairwise (· ≤ ·) :=
  Sorted.addresses ((sortSymbols_sorted _).sublist List.filter_sublist)

end

/-! ### The tables -/

section

variable {os ls : List (List U8)} {s : Tables} {val : U8 → List U8}

/-- What holds of the octets of all texts holds of those of a token. -/
theorem Coded.value_clean {i : Nat} (h : Coded i os ls s val) {P : U8 → Prop} {m : Nat} (hm : 0 < m)
    (hos : ∀ o ∈ os, o.length < m ∧ ∀ c ∈ o, P c) (c : U8) : (val c).length < m ∧ ∀ d ∈ val c, P d := by
  by_cases hempty : val c = []
  · rw [hempty]
    exact ⟨hm, fun d hd => absurd hd List.not_mem_nil⟩
  · obtain ⟨o, ho, hpart⟩ := h.infixes c hempty
    exact ⟨hpart.length_le.trans_lt (hos o ho).1, fun d hd => (hos o ho).2 d (hpart.subset hd)⟩

theorem tokenText_eq (h : Coded 0 os ls s val)
    (hos : ∀ o ∈ os, o.length < ksymNameLen ∧ ∀ c ∈ o, c ≠ 0 ∧ c ≠ 0x22 ∧ c ≠ 0x5c) {i : Nat} (hi : i < 256) :
    tokenText s i = some (val (BitVec.ofNat 8 i) ++ [0]) := by
  have hslot : (BitVec.ofNat 8 i).toNat = i := by
    rw [BitVec.toNat_ofNat]
    omega
  obtain ⟨hshort, hclean⟩ := h.value_clean (by decide) hos (BitVec.ofNat 8 i)
  have hexpand := h.expandSlot (BitVec.ofNat 8 i)
  rw [hslot] at hexpand
  have hstring : cString (val (BitVec.ofNat 8 i) ++ [0]) = val (BitVec.ofNat 8 i) := by
    rw [cString, List.takeWhile_append_of_pos fun d hd => decide_eq_true (hclean d hd).1]
    exact List.append_nil _
  have hquote : ¬ (val (BitVec.ofNat 8 i)).any (fun c => c = 0x22 ∨ c = 0x5c) = true := by
    rw [List.any_eq_true]
    rintro ⟨d, hd, heq⟩
    rcases of_decide_eq_true heq with hmark | hmark
    · exact (hclean d hd).2.1 hmark
    · exact (hclean d hd).2.2 hmark
  rw [tokenText, hexpand]
  simp only [Option.bind_eq_bind, Option.bind_some]
  rw [if_pos hshort, hstring, asciz, if_neg hquote]

/-- The octets of the names take no more room than the symbols would. -/
theorem stream_length_le {ls os : List (List U8)} (h : List.Forall₂ (fun l o => l.length ≤ o.length) ls os) :
    (stream ls).length ≤ (stream os).length := by
  induction h with
  | nil => exact Nat.le_refl _
  | cons hfirst hrest ih =>
      rw [stream, stream, List.flatMap_cons, List.flatMap_cons, List.length_append, List.length_append, entry, entry,
        List.length_cons, List.length_cons, ← stream, ← stream]
      omega

/-- The tables that `write_src` makes of coded symbols. -/
theorem writeSrc_laid (h : Coded 0 os ls s val)
    (hos : ∀ o ∈ os, o.length < ksymNameLen ∧ ∀ c ∈ o, c ≠ 0 ∧ c ≠ 0x22 ∧ c ≠ 0x5c)
    (hsize : (stream os).length < 2 ^ 31) (hw : 32 ≤ w) (textStart : BitVec w) (kernelTextStart : U64) :
    ∃ k, writeSrc textStart kernelTextStart s = some k ∧ Laid k ls val ∧
      k.addresses = s.table.map (symbolPtr textStart kernelTextStart) := by
  have hstream : (stream ls).length < 2 ^ 31 :=
    (stream_length_le (h.texts.imp fun _ _ hlo => hlo.2)).trans_lt hsize
  have htext : ∀ i ∈ List.range 256, tokenText s i = some (val (BitVec.ofNat 8 i) ++ [0]) :=
    fun i hi => tokenText_eq h hos (List.mem_range.mp hi)
  have hvalue (c : U8) := h.value_clean (by decide) hos c
  obtain ⟨index, hwrite, hindex⟩ := @writeTokens_texts s (fun i => val (BitVec.ofNat 8 i)) _ htext 0
  have hbytes := @length_tokenTexts_le (fun i => val (BitVec.ofNat 8 i)) _ (fun i => (hvalue _).1)
  refine ⟨⟨s.table.map (symbolPtr textStart kernelTextStart), (writeNames (w := w) 0 0 s.table).1,
    tokenTexts (fun i => val (BitVec.ofNat 8 i)) (List.range 256), index, (writeNames 0 0 s.table).2⟩, ?_, ?_, rfl⟩
  · rw [writeSrc]
    simp only [hwrite, Option.bind_eq_bind, Option.bind_some]
    rfl
  refine ⟨?_, fun data hdata => ?_, writeNames_stream h.table 0 0, hstream.trans (by decide), fun i hi => ?_,
    fun b => ?_, fun b c hc => ((hvalue b).2 c hc).1⟩
  · rw [List.length_map]
    exact h.table.length_eq.symm
  · obtain ⟨n, hn, rfl⟩ := List.getElem_of_mem hdata
    have hno : n < os.length := h.texts.length_eq ▸ hn
    have hle := ((List.forall₂_iff_get.mp h.texts).2 n hn hno).2
    have hlt := (hos _ (List.getElem_mem hno)).1
    exact (hle.trans_lt hlt).trans (by decide)
  · have hmarker := writeNames_markers (w := w) h.table 0 0 (Nat.zero_le _) (by rwa [Nat.zero_add])
    rw [Nat.zero_add, Nat.sub_zero, Nat.sub_zero] at hmarker
    have hless : streamOffset ls (256 * i) < 2 ^ 31 := (streamOffset_le ls _).trans_lt hstream
    refine ⟨_, hmarker, ?_⟩
    have hnat : ((0 : U32) + BitVec.ofNat 32 (streamOffset ls (256 * i))).toNat = streamOffset ls (256 * i) := by
      rw [BitVec.toNat_add, BitVec.toNat_ofNat, show (0 : U32).toNat = 0 from rfl, Nat.zero_add]
      omega
    rw [BitVec.signExtend_eq_setWidth_of_msb_false, BitVec.toNat_setWidth, hnat]
    · exact Nat.mod_eq_of_lt ((hless.trans (by decide)).trans_le (Nat.pow_le_pow_right (by decide) hw))
    · rw [BitVec.msb_eq_false_iff_two_mul_lt, hnat]
      omega
  · have hb : b.toNat < (List.range 256).length := by
      rw [List.length_range]
      exact b.isLt
    have htake := hbytes ((List.range 256).take b.toNat)
    rw [List.length_take_of_le (Nat.le_of_lt hb)] at htake
    have hless : (tokenTexts (fun i => val (BitVec.ofNat 8 i)) ((List.range 256).take b.toNat)).length < 2 ^ 16 := by
      have hslots : b.toNat < 256 := b.isLt
      have : b.toNat * ksymNameLen < 256 * 128 := Nat.mul_lt_mul_of_pos_right hslots (by decide)
      omega
    refine ⟨_, tokenTexts (fun i => val (BitVec.ofNat 8 i)) ((List.range 256).drop (b.toNat + 1)),
      hindex b.toNat hb, ?_⟩
    rw [Nat.zero_add, BitVec.toNat_ofNat, Nat.mod_eq_of_lt hless, tokenTexts_drop hb, List.getElem_range,
      BitVec.ofNat_toNat, BitVec.setWidth_eq]

end

/-! ### The program -/

section

variable {o : Options} {lines : List MapLine}

/-- `optimize_token_table` keeps the text of every symbol, and stops when no slot or no pair is left. -/
theorem optimizeTokenTable_coded {valid : SymEntry → Bool} {table : List SymEntry}
    (hholds : ∀ e ∈ table.filter valid, Holds e e.octets) (hnul : ∀ e ∈ table.filter valid, 0 ∉ e.octets)
    (hkept : table.filter valid ≠ []) :
    ∃ s ls val, optimizeTokenTable valid table = some s ∧
      Coded 0 ((table.filter valid).map SymEntry.octets) ls s val ∧ Exhausted s ls ∧
      s.table.map SymEntry.addr = (table.filter valid).map SymEntry.addr := by
  have hfirst : List.Forall₂ Holds (table.filter valid) ((table.filter valid).map SymEntry.octets) :=
    List.forall₂_map_right_iff.mpr (List.forall₂_same.mpr hholds)
  have hcoded := insertRealSymbols_coded hfirst (counts_learn hfirst)
  obtain ⟨s, ls, val, hrun, hcoded', hexhausted, haddr⟩ := optimizeFrom_coded
    (by rw [List.forall_mem_map]; exact hnul) 256 (Nat.le_refl _) hcoded fun c hc => absurd c.isLt (Nat.not_lt.mpr hc)
  refine ⟨s, ls, val, ?_, hcoded', hexhausted, haddr.trans (congrArg _ (insertRealSymbols_letters hfirst _).1)⟩
  rw [optimizeTokenTable, buildInitialTokTable]
  dsimp only
  rw [if_neg hkept, hrun]

theorem map_octets {table : List SymEntry} {ls : List (List U8)} (h : List.Forall₂ Holds table ls) :
    table.map SymEntry.octets = ls := by
  induction h with
  | nil => rfl
  | cons hfirst hrest ih => rw [List.map_cons, ih, SymEntry.octets, hfirst.take]

theorem forall₂_of_map_eq {α β γ : Type} {f : α → γ} {g : β → γ} {l : List α} {l' : List β} (h : l.map f = l'.map g) :
    List.Forall₂ (fun a b => f a = g b) l l' := by
  rw [← List.forall₂_eq_eq_eq, List.forall₂_map_left_iff, List.forall₂_map_right_iff] at h
  exact h

/-- **Compression**: after `optimize_token_table` every symbol that is kept expands to what it was, under its own address, the
counts are those of the pairs that are left, and the slots are all in use unless no pair is left. -/
theorem optimizeTokenTable_expands {valid : SymEntry → Bool} {table : List SymEntry}
    (hholds : ∀ e ∈ table.filter valid, Holds e e.octets) (hnul : ∀ e ∈ table.filter valid, 0 ∉ e.octets)
    (hkept : table.filter valid ≠ []) :
    ∃ s, optimizeTokenTable valid table = some s ∧
      List.Forall₂ (fun e e' => Script.expandText s 257 e.octets = some e'.octets ∧ e.addr = e'.addr)
        s.table (table.filter valid) ∧
      Counts s.profit (s.table.map SymEntry.octets) ∧
      ((∀ c : U8, s.bestLen c.toNat ≠ 0) ∨ ∀ e ∈ s.table, e.octets.length ≤ 1) := by
  obtain ⟨s, ls, val, hrun, hcoded, hexhausted, haddr⟩ := optimizeTokenTable_coded hholds hnul hkept
  have hoctets := map_octets hcoded.table
  refine ⟨s, hrun, ?_, hoctets.symm ▸ hcoded.counts, hexhausted.imp_right fun hpairs e he => ?_⟩
  · exact List.Forall₂.mp (fun e e' hexpand haddr => ⟨hexpand, haddr⟩)
      (List.forall₂_map_right_iff.mp hcoded.expandSymbols) (forall₂_of_map_eq haddr)
  · refine PairCode.length_le_one_of_pairs (hpairs _ ?_)
    rw [← hoctets]
    exact List.mem_map_of_mem he

/-- A symbol `abab` of type `T`. -/
def repeatedEntry : SymEntry := ⟨0x1000, 5, 0, [0x54, 0x61, 0x62, 0x61, 0x62, 0]⟩

theorem optimizeTokenTable_expands_repeated :
    ∃ s, optimizeTokenTable (fun _ => true) [repeatedEntry] = some s ∧
      List.Forall₂ (fun e e' => Script.expandText s 257 e.octets = some e'.octets ∧ e.addr = e'.addr)
        s.table ([repeatedEntry].filter fun _ => true) ∧
      Counts s.profit (s.table.map SymEntry.octets) ∧
      ((∀ c : U8, s.bestLen c.toNat ≠ 0) ∨ ∀ e ∈ s.table, e.octets.length ≤ 1) :=
  optimizeTokenTable_expands (List.forall_mem_singleton.mpr ⟨rfl, 0, rfl⟩) (by decide) (List.cons_ne_nil _ _)

/-- The pointer that is written for a symbol is its address, when `kernel_text_start` is where the map says. -/
theorem symbolPtr_eq (kernelTextStart : U64) (s : SymEntry) :
    symbolPtr (kernelTextStart.setWidth w) kernelTextStart s = s.addr.setWidth w := by
  have hsum {a b : U64} (hle : a ≤ b) : a.setWidth w + (b - a).setWidth w = b.setWidth w := by
    apply BitVec.eq_of_toNat_eq
    have hle' := BitVec.le_def.mp hle
    rw [BitVec.toNat_add, BitVec.toNat_setWidth, BitVec.toNat_setWidth, BitVec.toNat_setWidth,
      BitVec.toNat_sub_of_le hle, ← Nat.add_mod, Nat.add_sub_cancel' hle']
  rw [symbolPtr]
  split
  · rfl
  · split
    · exact hsum ‹_›
    · rw [BitVec.sub_eq_iff_eq_add]
      exact (hsum (BitVec.le_of_lt (BitVec.not_le.mp ‹_›))).symm

/-- The tables that the script makes hold the symbols that it keeps. -/
theorem kallsyms_laid (hplain : ∀ l ∈ lines, Plain l) (hkept : kept o lines ≠ [])
    (hsize : (stream ((kept o lines).map SymEntry.octets)).length < 2 ^ 31) (hw : 32 ≤ w) :
    ∃ k ls val, kallsyms o ((readMap o lines).kernelTextStart.setWidth w) lines = some k ∧ Laid k ls val ∧
      k.addresses = (kept o lines).map (fun e => e.addr.setWidth w) ∧
      List.Forall₂ (fun l e => l.flatMap val = e.octets) ls (kept o lines) := by
  obtain ⟨s, ls, val, hrun, hcoded, -, haddr⟩ := @optimizeTokenTable_coded (symbolValid o (readMap o lines))
    (sortSymbols (mapTable o lines)) (fun e he => by obtain ⟨-, -, -, -, -, hholds⟩ := kept_holds he; exact hholds)
    (fun e he hmem => ((kept_clean hplain he).2 0 hmem).1 rfl) hkept
  have hos : ∀ t ∈ (kept o lines).map SymEntry.octets,
      t.length < ksymNameLen ∧ ∀ c ∈ t, c ≠ 0 ∧ c ≠ 0x22 ∧ c ≠ 0x5c := by
    rw [List.forall_mem_map]
    exact fun e he => kept_clean hplain he
  obtain ⟨k, hwrite, hlaid, haddresses⟩ := writeSrc_laid hcoded hos hsize hw
    ((readMap o lines).kernelTextStart.setWidth w) (readMap o lines).kernelTextStart
  refine ⟨k, ls, val, ?_, hlaid, ?_, ?_⟩
  · have hmain : kallsyms o ((readMap o lines).kernelTextStart.setWidth w) lines =
        (optimizeTokenTable (symbolValid o (readMap o lines)) (sortSymbols (mapTable o lines))).bind
          (writeSrc ((readMap o lines).kernelTextStart.setWidth w) (readMap o lines).kernelTextStart) := rfl
    rw [hmain, hrun, Option.bind_some, hwrite]
  · have hpointers : s.table.map (symbolPtr ((readMap o lines).kernelTextStart.setWidth w)
        (readMap o lines).kernelTextStart) = (s.table.map SymEntry.addr).map fun a => a.setWidth w := by
      rw [List.map_map]
      exact List.map_congr_left fun e _ => symbolPtr_eq _ e
    rw [haddresses, hpointers, haddr, List.map_map]
    rfl
  · exact List.forall₂_map_right_iff.mp (hcoded.texts.imp fun _ _ hlo => hlo.1)

/-- The name of a symbol, without the type. -/
def SymEntry.name (e : SymEntry) : List U8 := e.octets.drop 1

/-- The address of the first symbol with a name; 0 when there is none. -/
def addressOf (w : Nat) (table : List SymEntry) (name : List U8) : BitVec w :=
  ((table.find? fun e => e.name = name).map fun e => e.addr.setWidth w).getD 0

theorem symbolName_eq {val : U8 → List U8} {l : List U8} {e : SymEntry} (hshort : e.octets.length < ksymNameLen)
    (h : l.flatMap val = e.octets) : symbolName val l = e.name := by
  rw [symbolName, expanded, h, SymEntry.name, List.take_of_length_le]
  rw [List.length_drop]
  omega

theorem firstNamed_eq {val : U8 → List U8} {ls : List (List U8)} {table : List SymEntry}
    (h : List.Forall₂ (fun l e => symbolName val l = e.name) ls table) (name : List U8) :
    firstNamed val name (ls.zip (table.map fun e => e.addr.setWidth w)) = addressOf w table name := by
  induction h with
  | nil => rfl
  | @cons l e ls table hfirst hrest ih =>
      rw [List.map_cons, List.zip_cons_cons, firstNamed, addressOf, List.find?_cons, hfirst]
      by_cases hname : name = e.name
      · rw [if_pos hname, decide_eq_true hname.symm]
        rfl
      · rw [if_neg hname, decide_eq_false (Ne.symm hname), ih]
        rfl

/-- **The script and the kernel**: from the tables that the script writes, the kernel finds for an address the symbol of the map
with the greatest address at or below it, by its name, and for a name the first symbol of that name. -/
theorem kallsyms_lookup (hplain : ∀ l ∈ lines, Plain l) (hkept : kept o lines ≠ [])
    (hsize : (stream ((kept o lines).map SymEntry.octets)).length < 2 ^ 31) (hw : 32 ≤ w)
    (haddr : ∀ e ∈ kept o lines, e.addr.toNat < 2 ^ w) :
    ∃ k, kallsyms o ((readMap o lines).kernelTextStart.setWidth w) lines = some k ∧
      (∀ (s : Sections w) (addr : BitVec w), s.isKsymAddr addr = true →
        (∀ e ∈ (kept o lines).head?, e.addr.toNat ≤ addr.toNat) → ∀ namebuf : Nat → U8,
        ∃ r e buf, kallsymsLookup k s addr namebuf = some (buf, some r) ∧ (kept o lines)[r.pos]? = some e ∧
          HoldsString buf e.name ∧ Found ((kept o lines).map fun e => e.addr.setWidth w) addr r (e.addr.setWidth w)) ∧
      ∀ name : List U8, (∀ c ∈ name, c ≠ 0) → ∀ namebuf : Nat → U8,
        kallsymsLookupName k name namebuf = some (addressOf w (kept o lines) name) := by
  obtain ⟨k, ls, val, hrun, hlaid, haddresses, htexts⟩ := kallsyms_laid hplain hkept hsize hw
  have hnames : List.Forall₂ (fun l e => symbolName val l = e.name) ls (kept o lines) := by
    have hboth := (List.forall₂_and_left _ _).mpr ⟨fun e he => (kept_clean hplain he).1, htexts.flip⟩
    exact (hboth.imp fun e l h => symbolName_eq h.1 h.2).flip
  have hnat : ∀ e ∈ kept o lines, (e.addr.setWidth w).toNat = e.addr.toNat := by
    intro e he
    rw [BitVec.toNat_setWidth, Nat.mod_eq_of_lt (haddr e he)]
  have hsorted : k.addresses.Pairwise (· ≤ ·) := by
    have hkeys := @kept_sorted o lines
    rw [List.pairwise_map] at hkeys
    rw [haddresses, List.pairwise_map]
    refine hkeys.imp_of_mem fun {a b} ha hb hle => ?_
    rwa [BitVec.le_def, hnat a ha, hnat b hb]
  refine ⟨k, hrun, fun s addr hcovered hhead namebuf => ?_, fun name hname namebuf => ?_⟩
  · have hne : k.addresses ≠ [] := by
      rw [haddresses]
      exact fun hnil => hkept (List.map_eq_nil_iff.mp hnil)
    have hfirst : ∀ a ∈ k.addresses.head?, a ≤ addr := by
      intro a ha
      rw [haddresses, List.head?_map, Option.mem_map] at ha
      obtain ⟨e, he, rfl⟩ := ha
      rw [BitVec.le_def, hnat e (List.mem_of_mem_head? he)]
      exact hhead e he
    obtain ⟨r, start, hpos, hfound⟩ := getSymbolPos_found s hne hsorted hfirst
    obtain ⟨e, he, rfl⟩ : ∃ e, (kept o lines)[r.pos]? = some e ∧ e.addr.setWidth w = start := by
      have hsymbol := hfound.symbol
      rw [haddresses, List.getElem?_map, Option.map_eq_some_iff] at hsymbol
      exact hsymbol
    obtain ⟨hlt, hget⟩ := List.getElem?_eq_some_iff.mp he
    have hlt' : r.pos < ls.length := hnames.length_eq ▸ hlt
    have hname := (List.forall₂_iff_get.mp hnames).2 r.pos hlt' hlt
    rw [List.get_eq_getElem, List.get_eq_getElem, hget] at hname
    obtain ⟨buf, hlookup, hholds, -⟩ := hlaid.lookup hcovered hpos (List.getElem?_eq_getElem hlt') namebuf
    exact ⟨r, e, buf, hlookup, he, hname ▸ hholds, haddresses ▸ hfound⟩
  · rw [hlaid.lookupName hname, haddresses, firstNamed_eq hnames]

end

/-- Two symbols, in the order of their addresses. -/
def twoLines : List MapLine := [⟨0x1000, 0x54, [0x61, 0x62]⟩, ⟨0x2000, 0x54, [0x61, 0x62, 0x61, 0x62]⟩]

theorem kept_twoLines : kept everySymbol twoLines =
    [⟨0x1000, 3, 0, [0x54, 0x61, 0x62, 0]⟩, ⟨0x2000, 5, 1, [0x54, 0x61, 0x62, 0x61, 0x62, 0]⟩] := by
  have hread : mapTable everySymbol twoLines =
      [⟨0x1000, 3, 0, [0x54, 0x61, 0x62, 0]⟩, ⟨0x2000, 5, 1, [0x54, 0x61, 0x62, 0x61, 0x62, 0]⟩] := rfl
  rw [kept, sortSymbols, hread, List.mergeSort_of_pairwise (by decide)]
  rfl

theorem kallsyms_lookup_two :
    ∃ k, kallsyms everySymbol ((readMap everySymbol twoLines).kernelTextStart.setWidth 64) twoLines = some k ∧
      (∀ (s : Sections 64) (addr : BitVec 64), s.isKsymAddr addr = true →
        (∀ e ∈ (kept everySymbol twoLines).head?, e.addr.toNat ≤ addr.toNat) → ∀ namebuf : Nat → U8,
        ∃ r e buf, kallsymsLookup k s addr namebuf = some (buf, some r) ∧
          (kept everySymbol twoLines)[r.pos]? = some e ∧ HoldsString buf e.name ∧
          Found ((kept everySymbol twoLines).map fun e => e.addr.setWidth 64) addr r (e.addr.setWidth 64)) ∧
      ∀ name : List U8, (∀ c ∈ name, c ≠ 0) → ∀ namebuf : Nat → U8,
        kallsymsLookupName k name namebuf = some (addressOf 64 (kept everySymbol twoLines) name) := by
  refine kallsyms_lookup ?_ ?_ ?_ (by decide) fun e _ => e.addr.isLt
  · exact List.forall_mem_cons.mpr ⟨⟨by decide, by decide⟩, List.forall_mem_singleton.mpr ⟨by decide, by decide⟩⟩
  · rw [kept_twoLines]
    exact List.cons_ne_nil _ _
  · rw [kept_twoLines]
    decide

end XosKernel.Kallsyms.Script
