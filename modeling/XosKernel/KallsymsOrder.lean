import XosKernel.KallsymsScript
import Mathlib.Data.Prod.Lex

/-! The order of the symbols. `compare_symbols` goes by five numbers, one after the other, and the last one tells any two
symbols apart. So `qsort`, which may move equal symbols as it likes, has only one result, whatever its algorithm is. -/

namespace XosKernel.Kallsyms.Script

/-! ### The comparison -/

/-- The numbers that `compare_symbols` goes by. -/
def sortKey (s : SymEntry) : ℕ ×ₗ ℕ ×ₗ ℕ ×ₗ ℕ ×ₗ ℕ :=
  toLex (s.addr.toNat, toLex ((isWeak s).toNat, toLex ((mayBeLinkerScriptProvideSymbol s).toNat,
    toLex (prefixUnderscoresCount (s.sym.drop 1), s.startPos))))

/-- A flag that is compared by its number. -/
theorem flag_le_iff (a b : Bool) (d : Int) (P : Prop) (hrest : d ≤ 0 ↔ P) :
    (if a ≠ b then (a.toNat : Int) - b.toNat else d) ≤ 0 ↔ a.toNat < b.toNat ∨ a.toNat = b.toNat ∧ P := by
  cases a <;> cases b <;> simp [hrest]

theorem compareSymbols_le_iff (sa sb : SymEntry) : compareSymbols sa sb ≤ 0 ↔ sortKey sa ≤ sortKey sb := by
  have hcounts : (if prefixUnderscoresCount (sa.sym.drop 1) ≠ prefixUnderscoresCount (sb.sym.drop 1) then
      (prefixUnderscoresCount (sa.sym.drop 1) : Int) - prefixUnderscoresCount (sb.sym.drop 1)
      else (sa.startPos : Int) - sb.startPos) ≤ 0 ↔
      prefixUnderscoresCount (sa.sym.drop 1) < prefixUnderscoresCount (sb.sym.drop 1) ∨
        prefixUnderscoresCount (sa.sym.drop 1) = prefixUnderscoresCount (sb.sym.drop 1) ∧
          sa.startPos ≤ sb.startPos := by
    split <;> omega
  have hflags := flag_le_iff (isWeak sa) (isWeak sb) _ _ (flag_le_iff (mayBeLinkerScriptProvideSymbol sa)
    (mayBeLinkerScriptProvideSymbol sb) _ _ hcounts)
  simp only [sortKey, Prod.Lex.toLex_le_toLex]
  rw [← hflags, compareSymbols]
  by_cases habove : sa.addr > sb.addr
  · have := BitVec.lt_def.mp habove
    rw [if_pos habove]
    omega
  · rw [if_neg habove]
    by_cases hbelow : sa.addr < sb.addr
    · have := BitVec.lt_def.mp hbelow
      rw [if_pos hbelow]
      omega
    · have hle := BitVec.not_lt.mp habove
      have hge := BitVec.not_lt.mp hbelow
      rw [if_neg hbelow, BitVec.le_antisymm hle hge]
      simp

theorem compareSymbols_trans (a b c : SymEntry) (hab : compareSymbols a b ≤ 0) (hbc : compareSymbols b c ≤ 0) :
    compareSymbols a c ≤ 0 := by
  rw [compareSymbols_le_iff] at hab hbc ⊢
  exact le_trans hab hbc

theorem compareSymbols_total (a b : SymEntry) : compareSymbols a b ≤ 0 ∨ compareSymbols b a ≤ 0 := by
  rw [compareSymbols_le_iff, compareSymbols_le_iff]
  exact le_total _ _

theorem startPos_of_sortKey {a b : SymEntry} (h : sortKey a = sortKey b) : a.startPos = b.startPos := by
  simp only [sortKey, EmbeddingLike.apply_eq_iff_eq, Prod.mk.injEq] at h
  exact h.2.2.2.2

/-! ### Sorting -/

/-- The table is in the order of `compare_symbols`. -/
def Sorted (table : List SymEntry) : Prop := table.Pairwise fun a b => compareSymbols a b ≤ 0

theorem sortSymbols_perm (table : List SymEntry) : (sortSymbols table).Perm table := List.mergeSort_perm _ _

theorem sortSymbols_sorted (table : List SymEntry) : Sorted (sortSymbols table) := by
  have hsorted : (sortSymbols table).Pairwise fun a b => decide (compareSymbols a b ≤ 0) = true :=
    List.pairwise_mergeSort
      (fun a b c hab hbc => decide_eq_true (compareSymbols_trans a b c (of_decide_eq_true hab) (of_decide_eq_true hbc)))
      (fun a b => by
        rw [Bool.or_eq_true, decide_eq_true_iff, decide_eq_true_iff]
        exact compareSymbols_total a b) table
  exact hsorted.imp of_decide_eq_true

/-- The symbols of a table have different places in the map. -/
def Numbered (table : List SymEntry) : Prop := (table.map SymEntry.startPos).Nodup

/-- Two sorted tables with the same symbols are one. -/
theorem Sorted.unique {table table' : List SymEntry} (hnumbered : Numbered table) (h : Sorted table)
    (h' : Sorted table') (hperm : table.Perm table') : table = table' := by
  refine hperm.eq_of_pairwise (fun a b ha hb hab hba => ?_) h h'
  rw [compareSymbols_le_iff] at hab hba
  have hpos := startPos_of_sortKey (le_antisymm hab hba)
  exact List.inj_on_of_nodup_map hnumbered ha (hperm.mem_iff.mpr hb) hpos

theorem Sorted.addresses {table : List SymEntry} (h : Sorted table) :
    (table.map fun e => e.addr.toNat).Pairwise (· ≤ ·) := by
  rw [List.pairwise_map]
  refine h.imp fun {a b} hab => ?_
  rw [compareSymbols_le_iff, sortKey, sortKey, Prod.Lex.toLex_le_toLex] at hab
  rcases hab with hlt | ⟨heq, -⟩
  · exact Nat.le_of_lt hlt
  · exact Nat.le_of_eq heq

/-! ### The table that is read -/

/-- The entry of a line at place `k`. -/
def MapLine.entry (l : MapLine) (k : Nat) : SymEntry := ⟨l.addr, l.str.length + 1, k, l.stype :: l.str ++ [0]⟩

section

variable (o : Options)

/-- A line is left out, or its entry comes last. -/
theorem readSymbol_table (s : Reader) (l : MapLine) :
    (readSymbol o s l).table = s.table ∨ (readSymbol o s l).table = s.table ++ [l.entry s.table.length] := by
  unfold readSymbol
  dsimp only
  by_cases hlong : l.str.length > ksymNameLen
  · exact .inl (by rw [if_pos hlong])
  · rw [if_neg hlong]
    by_cases hstart : skipPrefix o l.str = text "kernel_text_start"
    · exact .inr (by rw [if_pos hstart, MapLine.entry])
    · rw [if_neg hstart]
      cases checkSymbolRange (skipPrefix o l.str) l.addr s.textRanges with
      | some ranges => exact .inr rfl
      | none =>
          dsimp only
          repeat' split
          all_goals first | exact .inl rfl | exact .inr rfl

/-- The entries of a table are those of lines, each with its place. -/
def Listed (lines : List MapLine) (table : List SymEntry) : Prop :=
  ∀ k e, table[k]? = some e → ∃ l ∈ lines, e = l.entry k

theorem readMap_listed (lines : List MapLine) : Listed lines (readMap o lines).table := by
  suffices hfrom : ∀ (rest : List MapLine) (s : Reader), rest ⊆ lines → Listed lines s.table →
      Listed lines (rest.foldl (readSymbol o) s).table by
    exact hfrom lines startReader (List.Subset.refl _) fun k e he => by cases he
  intro rest
  induction rest with
  | nil => exact fun s _ h => h
  | cons l rest ih =>
      intro s hrest h
      obtain ⟨hl, hrest⟩ := List.cons_subset.mp hrest
      refine ih _ hrest ?_
      rcases readSymbol_table o s l with hskip | hadd
      · rwa [hskip]
      · rw [hadd]
        intro k e he
        rcases Nat.lt_or_ge k s.table.length with hlt | hge
        · rw [List.getElem?_append_left hlt] at he
          exact h k e he
        · rw [List.getElem?_append_right hge, List.getElem?_singleton] at he
          split at he
          · refine ⟨l, hl, ?_⟩
            rw [← Option.some.inj he]
            congr 1
            omega
          · cases he

end

/-- The symbols of the map as they are sorted. -/
def mapTable (o : Options) (lines : List MapLine) : List SymEntry :=
  if o.absolutePercpu then makePercpusAbsolute (readMap o lines) else (readMap o lines).table

theorem mapTable_getElem? (o : Options) (lines : List MapLine) {k : Nat} {e : SymEntry}
    (h : (mapTable o lines)[k]? = some e) :
    ∃ l ∈ lines, e = l.entry k ∨ e = { l.entry k with sym := 0x41 :: l.str ++ [0] } := by
  unfold mapTable at h
  split at h
  · rw [makePercpusAbsolute, List.getElem?_map, Option.map_eq_some_iff] at h
    obtain ⟨e', he', rfl⟩ := h
    obtain ⟨l, hl, rfl⟩ := readMap_listed o lines k e' he'
    refine ⟨l, hl, ?_⟩
    split
    · exact .inr rfl
    · exact .inl rfl
  · obtain ⟨l, hl, rfl⟩ := readMap_listed o lines k e h
    exact ⟨l, hl, .inl rfl⟩

theorem mapTable_numbered (o : Options) (lines : List MapLine) : Numbered (mapTable o lines) := by
  have hplace : (mapTable o lines).map SymEntry.startPos = List.range (mapTable o lines).length := by
    refine List.ext_getElem (by rw [List.length_map, List.length_range]) fun k hk hk' => ?_
    rw [List.length_map] at hk
    obtain ⟨l, -, he | he⟩ := mapTable_getElem? o lines (List.getElem?_eq_getElem hk)
    all_goals rw [List.getElem_map, List.getElem_range, he]; rfl
  rw [Numbered, hplace]
  exact List.nodup_range

/-- **`qsort`**: any order of the symbols of the map that `compare_symbols` calls sorted is that of `sort_symbols`. -/
theorem sortSymbols_unique (o : Options) (lines : List MapLine) {table : List SymEntry}
    (hperm : table.Perm (mapTable o lines)) (hsorted : Sorted table) : table = sortSymbols (mapTable o lines) := by
  have hnumbered : Numbered table := ((hperm.map _).nodup_iff).mpr (mapTable_numbered o lines)
  exact hsorted.unique hnumbered (sortSymbols_sorted _) (hperm.trans (sortSymbols_perm _).symm)

/-- The options `--all-symbols` alone. -/
def everySymbol : Options := ⟨true, false, 0, 0⟩

/-- A weak symbol and another one at the same address. -/
def aliasLines : List MapLine := [⟨0x1000, 0x57, [0x62]⟩, ⟨0x1000, 0x54, [0x61]⟩]

theorem sortSymbols_unique_alias :
    [⟨0x1000, 2, 1, [0x54, 0x61, 0]⟩, ⟨0x1000, 2, 0, [0x57, 0x62, 0]⟩] =
      sortSymbols (mapTable everySymbol aliasLines) := by
  have hread : mapTable everySymbol aliasLines =
      [⟨0x1000, 2, 0, [0x57, 0x62, 0]⟩, ⟨0x1000, 2, 1, [0x54, 0x61, 0]⟩] := rfl
  have hperm : List.Perm [⟨0x1000, 2, 1, [0x54, 0x61, 0]⟩, ⟨0x1000, 2, 0, [0x57, 0x62, 0]⟩]
      (mapTable everySymbol aliasLines) := by
    rw [hread]
    exact .swap _ _ _
  refine sortSymbols_unique everySymbol aliasLines hperm ?_
  unfold Sorted
  decide

end XosKernel.Kallsyms.Script
