import XosKernel.KallsymsModel
import XosKernel.WordAlign

/-! `get_symbol_pos` on a sorted table: the binary search ends at the last symbol at or below the address, the scan back
comes to the first symbol with the same address, and the scan forward to the next larger one. -/

namespace XosKernel.Kallsyms

variable {w : Nat} {addresses : List (BitVec w)} {addr : BitVec w}

theorem sorted_getElem? (hsorted : addresses.Pairwise (· ≤ ·)) {i j : Nat} (hij : i ≤ j) {a b : BitVec w}
    (ha : addresses[i]? = some a) (hb : addresses[j]? = some b) : a.toNat ≤ b.toNat := by
  rcases Nat.eq_or_lt_of_le hij with rfl | hlt
  · rw [ha, Option.some.injEq] at hb
    rw [hb]
  · obtain ⟨hi, rfl⟩ := List.getElem?_eq_some_iff.mp ha
    obtain ⟨hj, rfl⟩ := List.getElem?_eq_some_iff.mp hb
    exact BitVec.le_def.mp (List.pairwise_iff_getElem.mp hsorted i j hi hj hlt)

/-! ### The binary search -/

/-- The symbols before `low` and from `high` on are out of the question. -/
structure Between (addresses : List (BitVec w)) (addr : BitVec w) (low high : Nat) : Prop where
  lt : low < high
  le : high ≤ addresses.length
  below : 0 < low → ∃ a, addresses[low]? = some a ∧ a.toNat ≤ addr.toNat
  above : high < addresses.length → ∃ a, addresses[high]? = some a ∧ addr.toNat < a.toNat

theorem Between.pass {low high : Nat} (h : Between addresses addr low high) (hgap : high - low > 1) :
    ∃ low' high', searchPass addresses addr (low, high) = .next (low', high') ∧
      Between addresses addr low' high' ∧ high' - low' < high - low := by
  have hmid : low + (high - low) / 2 < addresses.length := by
    have := h.le
    omega
  have hread : addresses[low + (high - low) / 2]? = some addresses[low + (high - low) / 2] :=
    List.getElem?_eq_getElem hmid
  by_cases hle : addresses[low + (high - low) / 2] ≤ addr
  · refine ⟨low + (high - low) / 2, high, ?_, ⟨by omega, h.le, fun _ => ⟨_, hread, BitVec.le_def.mp hle⟩, h.above⟩,
      by omega⟩
    simp only [searchPass, if_pos hgap, hread, if_pos hle]
  · refine ⟨low, low + (high - low) / 2, ?_, ⟨by omega, by omega, h.below, fun _ => ⟨_, hread, ?_⟩⟩, by omega⟩
    · simp only [searchPass, if_pos hgap, hread, if_neg hle]
    · rw [BitVec.le_def] at hle
      omega

/-- The search ends between the symbols at or below the address and those above it. -/
theorem search_ends (hne : addresses ≠ []) (addr : BitVec w) :
    ∃ low, Loop.run (searchPass addresses addr) (addresses.length + 1) (0, addresses.length) = some (some low) ∧
      Between addresses addr low (low + 1) := by
  suffices h : ∀ (fuel low high : Nat), Between addresses addr low high → high - low < fuel →
      ∃ low', Loop.run (searchPass addresses addr) fuel (low, high) = some (some low') ∧
        Between addresses addr low' (low' + 1) by
    refine h (addresses.length + 1) 0 addresses.length ⟨?_, Nat.le_refl _, ?_, ?_⟩ (by omega)
    · exact List.length_pos_iff.mpr hne
    · exact fun hpos => absurd hpos (Nat.lt_irrefl 0)
    · exact fun hlt => absurd hlt (Nat.lt_irrefl _)
  intro fuel
  induction fuel with
  | zero => exact fun low high _ hfuel => absurd hfuel (Nat.not_lt_zero _)
  | succ fuel ih =>
      intro low high hbetween hfuel
      by_cases hgap : high - low > 1
      · obtain ⟨low', high', hpass, hbetween', hless⟩ := hbetween.pass hgap
        rw [Loop.run_succ_next hpass]
        exact ih low' high' hbetween' (by omega)
      · have hdone : searchPass addresses addr (low, high) = .done (some low) := by
          simp only [searchPass, if_neg hgap]
        have hhigh : high = low + 1 := by
          have := hbetween.lt
          omega
        exact ⟨low, Loop.run_succ_done hdone fuel, hhigh ▸ hbetween⟩

/-! ### The scans -/

/-- The scan back ends at the first of the symbols with the address of `low`. -/
theorem firstAlias_ends {low : Nat} (hlow : low < addresses.length) :
    ∃ pos, firstAlias addresses low = some pos ∧ pos ≤ low ∧ addresses[pos]? = addresses[low]? ∧
      ∀ i, i + 1 = pos → addresses[i]? ≠ addresses[pos]? := by
  induction low with
  | zero => exact ⟨0, rfl, Nat.le_refl 0, rfl, fun i hi => absurd hi (Nat.succ_ne_zero i)⟩
  | succ low ih =>
      have hbefore : addresses[low]? = some addresses[low] := List.getElem?_eq_getElem (by omega)
      have hhere : addresses[low + 1]? = some addresses[low + 1] := List.getElem?_eq_getElem hlow
      by_cases heq : addresses[low] = addresses[low + 1]
      · obtain ⟨pos, hpos, hle, hsame, hfirst⟩ := ih (by omega)
        refine ⟨pos, ?_, by omega, ?_, hfirst⟩
        · rw [firstAlias, hbefore, hhere]
          exact (if_pos heq).trans hpos
        · rw [hsame, hbefore, hhere, heq]
      · refine ⟨low + 1, ?_, Nat.le_refl _, rfl, fun i hi => ?_⟩
        · rw [firstAlias, hbefore, hhere]
          exact if_neg heq
        · obtain rfl : i = low := Nat.succ.inj hi
          rw [hbefore, hhere, ne_eq, Option.some.injEq]
          exact heq

/-- The smallest of the addresses above `start`. -/
def IsNext (addresses : List (BitVec w)) (start next : BitVec w) : Prop :=
  next ∈ addresses ∧ start.toNat < next.toNat ∧ ∀ a ∈ addresses, start.toNat < a.toNat → next.toNat ≤ a.toNat

theorem find?_isNext {l : List (BitVec w)} (hsorted : l.Pairwise (· ≤ ·)) {start next : BitVec w}
    (hnext : IsNext l start next) : (l.find? fun a => a > start) = some next := by
  obtain ⟨hmem, hlt, hleast⟩ := hnext
  induction l with
  | nil => cases hmem
  | cons a l ih =>
      rw [List.find?_cons]
      by_cases ha : a > start
      · have hle : next.toNat ≤ a.toNat := hleast a List.mem_cons_self (BitVec.lt_def.mp ha)
        have hge : a.toNat ≤ next.toNat := by
          rcases List.mem_cons.mp hmem with rfl | hmem
          · exact Nat.le_refl _
          · exact BitVec.le_def.mp (List.rel_of_pairwise_cons hsorted hmem)
        rw [decide_eq_true ha, BitVec.eq_of_toNat_eq (Nat.le_antisymm hle hge)]
      · have hne : next ≠ a := by
          rintro rfl
          exact ha (BitVec.lt_def.mpr hlt)
        rw [decide_eq_false ha]
        refine ih hsorted.of_cons ((List.mem_cons.mp hmem).resolve_left hne) fun b hb => ?_
        exact hleast b (List.mem_cons_of_mem a hb)

/-- The scan forward finds it. -/
theorem nextAddress_eq (hsorted : addresses.Pairwise (· ≤ ·)) {start next : BitVec w} {pos : Nat}
    (hpos : addresses[pos]? = some start) (hnext : IsNext addresses start next) :
    nextAddress addresses start pos = next := by
  obtain ⟨hmem, hlt, hleast⟩ := hnext
  obtain ⟨j, hj⟩ := List.getElem?_of_mem hmem
  have hafter : pos < j := by
    by_contra hle
    have := sorted_getElem? hsorted (Nat.not_lt.mp hle) hj hpos
    omega
  have hdrop : next ∈ addresses.drop (pos + 1) := by
    refine List.mem_of_getElem? (i := j - (pos + 1)) ?_
    rw [List.getElem?_drop, ← hj]
    congr 1
    omega
  have hfind : ((addresses.drop (pos + 1)).find? fun a => a > start) = some next :=
    find?_isNext (hsorted.sublist (List.drop_sublist _ _))
      ⟨hdrop, hlt, fun a ha => hleast a (List.mem_of_mem_drop ha)⟩
  rw [nextAddress, hfind, Option.getD_some]

/-! ### The symbol of an address -/

/-- What `get_symbol_pos` finds on any table: a symbol and the distance of the address from it. -/
theorem getSymbolPos_ends (s : Sections w) {k : Table w} (hne : k.addresses ≠ []) (addr : BitVec w) :
    ∃ pos low start, getSymbolPos s k addr = some ⟨pos, symbolEnd s k addr start pos - start, addr - start⟩ ∧
      Between k.addresses addr low (low + 1) ∧ k.addresses[pos]? = some start ∧ k.addresses[low]? = some start ∧
      ∀ i, i + 1 = pos → k.addresses[i]? ≠ some start := by
  obtain ⟨low, hsearch, hbetween⟩ := search_ends hne addr
  have hlow : low < k.addresses.length := hbetween.le
  obtain ⟨pos, halias, -, hsame, hfirst⟩ := firstAlias_ends hlow
  have hstart : k.addresses[low]? = some k.addresses[low] := List.getElem?_eq_getElem hlow
  rw [hstart] at hsame
  rw [hsame] at hfirst
  refine ⟨pos, low, k.addresses[low], ?_, hbetween, hsame, hstart, hfirst⟩
  simp only [getSymbolPos, hsearch, Option.join_some, halias, hsame, Option.bind_eq_bind, Option.bind_some]
  rfl

/-- What a look-up of an address is for: the first of the symbols with the greatest address at or below it, the distance
from there, and the distance of the next symbol. -/
structure Found (addresses : List (BitVec w)) (addr : BitVec w) (r : SymbolPos w) (start : BitVec w) : Prop where
  symbol : addresses[r.pos]? = some start
  le : start.toNat ≤ addr.toNat
  greatest : ∀ a ∈ addresses, a.toNat ≤ addr.toNat → a.toNat ≤ start.toNat
  first : ∀ i < r.pos, addresses[i]? ≠ some start
  offset : r.offset.toNat = addr.toNat - start.toNat
  size : ∀ next, IsNext addresses start next →
    r.symbolsize.toNat = next.toNat - start.toNat ∧ r.offset.toNat < r.symbolsize.toNat

theorem found_of_ends (s : Sections w) {k : Table w} (hsorted : k.addresses.Pairwise (· ≤ ·))
    (hhead : ∀ a ∈ k.addresses.head?, a ≤ addr) {pos low : Nat} {start : BitVec w}
    (hbetween : Between k.addresses addr low (low + 1)) (hpos : k.addresses[pos]? = some start)
    (hlow : k.addresses[low]? = some start) (hfirst : ∀ i, i + 1 = pos → k.addresses[i]? ≠ some start) :
    Found k.addresses addr ⟨pos, symbolEnd s k addr start pos - start, addr - start⟩ start := by
  have hle : start.toNat ≤ addr.toNat := by
    rcases Nat.eq_zero_or_pos low with rfl | hpos
    · exact BitVec.le_def.mp (hhead start (by rw [List.head?_eq_getElem?, hlow]; rfl))
    · obtain ⟨a, ha, hle⟩ := hbetween.below hpos
      rw [hlow, Option.some.injEq] at ha
      rwa [ha]
  have hgreatest : ∀ a ∈ k.addresses, a.toNat ≤ addr.toNat → a.toNat ≤ start.toNat := by
    intro a ha haddr
    obtain ⟨j, hj⟩ := List.getElem?_of_mem ha
    by_cases hjlow : j ≤ low
    · exact sorted_getElem? hsorted hjlow hj hlow
    · have hlength : j < k.addresses.length := (List.getElem?_eq_some_iff.mp hj).1
      obtain ⟨b, hb, hless⟩ := hbetween.above (by omega)
      have := sorted_getElem? hsorted (by omega) hb hj
      omega
  have hnat : (addr - start).toNat = addr.toNat - start.toNat := BitVec.toNat_sub_of_le (BitVec.le_def.mpr hle)
  refine ⟨hpos, hle, hgreatest, fun i hi heq => ?_, hnat, fun next hnext => ?_⟩
  · -- the symbol before `pos` lies between two with the address of `start`
    change i < pos at hi
    obtain ⟨j, hj⟩ := Nat.exists_eq_succ_of_ne_zero (Nat.ne_zero_of_lt hi)
    have hjlength : j < k.addresses.length := by
      have := (List.getElem?_eq_some_iff.mp hpos).1
      omega
    have hread : k.addresses[j]? = some k.addresses[j] := List.getElem?_eq_getElem hjlength
    have hlower := sorted_getElem? hsorted (by omega) heq hread
    have hupper := sorted_getElem? hsorted (by omega) hread hpos
    refine hfirst j hj.symm ?_
    rw [hread, BitVec.eq_of_toNat_eq (Nat.le_antisymm hupper hlower)]
  · have hmax : addr.toNat < next.toNat := by
      by_contra hnot
      have := hgreatest next hnext.1 (by omega)
      have := hnext.2.1
      omega
    have hend : symbolEnd s k addr start pos = next := by
      have hzero : next ≠ 0 := by
        rintro rfl
        exact Nat.not_lt_zero _ (BitVec.toNat_zero ▸ hmax)
      rw [symbolEnd, nextAddress_eq hsorted hpos hnext]
      exact if_neg hzero
    have hdistance : (symbolEnd s k addr start pos - start).toNat = next.toNat - start.toNat := by
      rw [hend]
      exact BitVec.toNat_sub_of_le (BitVec.le_def.mpr (by omega))
    refine ⟨hdistance, ?_⟩
    rw [hdistance, hnat]
    omega

/-- **The look-up of an address** in a sorted table, from its first address on. -/
theorem getSymbolPos_found (s : Sections w) {k : Table w} {addr : BitVec w} (hne : k.addresses ≠ [])
    (hsorted : k.addresses.Pairwise (· ≤ ·)) (hhead : ∀ a ∈ k.addresses.head?, a ≤ addr) :
    ∃ r start, getSymbolPos s k addr = some r ∧ Found k.addresses addr r start := by
  obtain ⟨pos, low, start, hrun, hbetween, hpos, hlow, hfirst⟩ := getSymbolPos_ends s hne addr
  exact ⟨_, start, hrun, found_of_ends s hsorted hhead hbetween hpos hlow hfirst⟩

/-- Sections that cover nothing. -/
def noSections : Sections 64 := ⟨1, 0, 1, 0, 0, fun _ => false, false⟩

/-- Two symbols with one address, between two others. -/
def aliasTable : Table 64 := ⟨[0x1000, 0x2000, 0x2000, 0x3000], [], [], [], []⟩

theorem aliasTable_head : ∀ a ∈ aliasTable.addresses.head?, a ≤ 0x2345 := by
  rintro a ⟨rfl⟩
  decide

theorem getSymbolPos_found_alias :
    ∃ r start, getSymbolPos noSections aliasTable 0x2345 = some r ∧ Found aliasTable.addresses 0x2345 r start :=
  getSymbolPos_found noSections (by decide) (by decide) aliasTable_head

end XosKernel.Kallsyms
