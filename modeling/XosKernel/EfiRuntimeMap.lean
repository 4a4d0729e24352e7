import XosKernel.EfiVirtmapPlace

/-! The runtime map that `efi_get_virtmap` makes without a flat mapping. The loop is followed descriptor by descriptor:
the runtime regions are put one after another, at the same offset in a 64K granule as in physical memory, and their
descriptors are copied. -/

namespace XosKernel.Efi

open Memory Loop Layout

/-! ### The descriptors by their number -/

/-- The field at offset `k` of a descriptor. -/
def descField (map : Bytes) (descSize : U64) (i k : Nat) : U64 := load64 map (BitVec.ofNat 64 (i * descSize.toNat + k))

def IsRuntime (map : Bytes) (descSize : U64) (i : Nat) : Prop := descField map descSize i 32 &&& efiMemoryRuntime ≠ 0

instance (map : Bytes) (descSize : U64) : DecidablePred (IsRuntime map descSize) := fun _ =>
  inferInstanceAs (Decidable (_ ≠ _))

/-- The physical range of a descriptor. -/
def descRegion (map : Bytes) (descSize : U64) (i : Nat) : Region where
  start := (descField map descSize i 8).toNat
  size := (descField map descSize i 24).toNat * efiPageSize.toNat

/-- The byte at offset `k` of a descriptor. -/
def descByte (map : Bytes) (descSize : U64) (i k : Nat) : BitVec 8 := map (BitVec.ofNat 64 (i * descSize.toNat + k))

/-- The number of runtime descriptors before descriptor number `i`. -/
def runtimeCount (map : Bytes) (descSize : U64) (i : Nat) : Nat := Nat.count (IsRuntime map descSize) i

/-- The base before descriptor number `i`. -/
def virtBaseAt (map : Bytes) (descSize : U64) (i : Nat) : Nat :=
  efiRule.baseAt (IsRuntime map descSize) (descRegion map descSize) virtmapBase.toNat i

/-- The loop before descriptor number `i`. -/
structure Built (map : Bytes) (descSize : U64) (i : Nat) (s : Virtmap) : Prop where
  l : s.l.toNat = i * descSize.toNat
  base : s.efiVirtBase.toNat = virtBaseAt map descSize i
  out : s.out.toNat = runtimeCount map descSize i * descSize.toNat
  count : s.count.toNat = runtimeCount map descSize i
  kept : ∀ a : U64, (∀ k < i, IsRuntime map descSize k →
    ¬ (k * descSize.toNat + 16 ≤ a.toNat ∧ a.toNat < k * descSize.toNat + 16 + 8)) → s.map a = map a
  placed : ∀ k < i, IsRuntime map descSize k → (descField s.map descSize k 16).toNat =
    efiRule.placeAt (descRegion map descSize) virtmapBase.toNat (IsRuntime map descSize) k
  copied : ∀ k < i, IsRuntime map descSize k → ∀ j < descSize.toNat,
    descByte s.runtimeMap descSize (runtimeCount map descSize k) j = descByte s.map descSize k j

section

variable {map : Bytes} {descSize : U64} {n i : Nat} {s t : Virtmap}

theorem built_start (runtimeMap : Bytes) : Built map descSize 0
    { l := 0, efiVirtBase := virtmapBase, map, out := 0, runtimeMap, count := 0 } where
  l := (Nat.zero_mul _).symm
  base := rfl
  out := by rw [runtimeCount, Nat.count_zero, Nat.zero_mul]; rfl
  count := by rw [runtimeCount, Nat.count_zero]; rfl
  kept _ _ := rfl
  placed k hk := absurd hk (Nat.not_lt_zero k)
  copied k hk := absurd hk (Nat.not_lt_zero k)

variable (hdesc : 40 ≤ descSize.toNat) (hfit : (i + 1) * descSize.toNat < 2 ^ 31)

include hfit in
theorem Built.pos (h : Built map descSize i s) : s.pos = BitVec.ofNat 64 (i * descSize.toNat) := by
  rw [Nat.succ_mul] at hfit
  apply BitVec.eq_of_toNat_eq
  rw [Virtmap.toNat_pos (by rw [h.l]; omega), h.l, BitVec.toNat_ofNat, Nat.mod_eq_of_lt (by omega)]

include hdesc hfit in
/-- The descriptors from number `i` on are as they were. -/
theorem Built.field (h : Built map descSize i s) {k : Nat} (hk : k + 8 ≤ 40) :
    load64 s.map (s.pos + BitVec.ofNat 64 k) = descField map descSize i k := by
  rw [Nat.succ_mul] at hfit
  rw [h.pos (by rw [Nat.succ_mul]; exact hfit), ← BitVec.ofNat_add]
  refine load64_congr fun a ha => h.kept a fun j hj _ hin => ?_
  have haddr : (BitVec.ofNat 64 (i * descSize.toNat + k)).toNat = i * descSize.toNat + k := by
    rw [BitVec.toNat_ofNat, Nat.mod_eq_of_lt (by omega)]
  rw [toNat_sub_lt_iff (by omega), haddr] at ha
  have hle : (j + 1) * descSize.toNat ≤ i * descSize.toNat := Nat.mul_le_mul_right _ hj
  rw [Nat.succ_mul] at hle
  omega

include hdesc hfit in
theorem Built.attribute (h : Built map descSize i s) : s.attribute = descField map descSize i 32 :=
  h.field (k := 32) hdesc hfit (by omega)

include hdesc hfit in
theorem Built.region (h : Built map descSize i s) : s.region = descRegion map descSize i := by
  rw [Virtmap.region, descRegion, ← h.field (k := 8) hdesc hfit (by omega),
    ← h.field (k := 24) hdesc hfit (by omega)]
  rfl

include hfit in
theorem Built.advance_l (h : s.l.toNat = i * descSize.toNat) :
    (s.advance descSize).l.toNat = (i + 1) * descSize.toNat := by
  rw [Nat.succ_mul] at hfit ⊢
  rw [Virtmap.advance_toNat_l (by rw [h]; omega) (by rw [h]; omega), h]

include hfit in
/-- A descriptor without `EFI_MEMORY_RUNTIME`. -/
theorem Built.skip (h : Built map descSize i s) (habsent : ¬ IsRuntime map descSize i) :
    Built map descSize (i + 1) (s.advance descSize) := by
  have hcount : runtimeCount map descSize (i + 1) = runtimeCount map descSize i := by
    rw [runtimeCount, Nat.count_succ, if_neg habsent]
    rfl
  have hlt {k : Nat} (hk : k < i + 1) (hruntime : IsRuntime map descSize k) : k < i := by
    rcases Nat.lt_succ_iff_lt_or_eq.mp hk with hlt | rfl
    · exact hlt
    · exact absurd hruntime habsent
  refine ⟨Built.advance_l hfit h.l, ?_, ?_, ?_, fun a ha => ?_, fun k hk hruntime => ?_, fun k hk hruntime => ?_⟩
  · rw [virtBaseAt, Rule.baseAt_absent _ _ _ habsent]
    exact h.base
  · rw [hcount]
    exact h.out
  · rw [hcount]
    exact h.count
  · exact h.kept a fun k hk => ha k (by omega)
  · exact h.placed k (hlt hk hruntime) hruntime
  · exact h.copied k (hlt hk hruntime) hruntime

include hfit in
theorem Built.inVirtAddr_iff (h : Built map descSize i s) (hdesc : 40 ≤ descSize.toNat) (a : U64) :
    s.InVirtAddr a ↔ i * descSize.toNat + 16 ≤ a.toNat ∧ a.toNat < i * descSize.toNat + 16 + 8 := by
  rw [Nat.succ_mul] at hfit
  have hstart : (s.pos + 16).toNat = i * descSize.toNat + 16 := by
    rw [h.pos (by rw [Nat.succ_mul]; exact hfit), BitVec.toNat_add, BitVec.toNat_ofNat,
      show (16 : U64).toNat = 16 from rfl]
    omega
  rw [Virtmap.InVirtAddr, toNat_sub_lt_iff (by omega), hstart]

include hdesc hfit in
/-- The bytes of an earlier descriptor are left as they are. -/
theorem Built.byte_earlier (h : Built map descSize i s) {virtAddr base k j : Nat} (hplaced : s.Placed t virtAddr base)
    (hk : k < i) (hj : j < descSize.toNat) : descByte t.map descSize k j = descByte s.map descSize k j := by
  refine hplaced.outside _ fun hin => ?_
  rw [h.inVirtAddr_iff hfit hdesc, BitVec.toNat_ofNat] at hin
  rw [Nat.succ_mul] at hfit
  have hle : (k + 1) * descSize.toNat ≤ i * descSize.toNat := Nat.mul_le_mul_right _ hk
  rw [Nat.succ_mul] at hle
  rw [Nat.mod_eq_of_lt (by omega)] at hin
  omega

include hdesc hfit in
theorem Built.placed_next (h : Built map descSize i s) {base k : Nat}
    (hplaced : s.Placed t (efiRule.place (virtBaseAt map descSize i) (descRegion map descSize i)) base)
    (hk : k < i + 1) (hruntime : IsRuntime map descSize k) : (descField t.map descSize k 16).toNat =
      efiRule.placeAt (descRegion map descSize) virtmapBase.toNat (IsRuntime map descSize) k := by
  rcases Nat.lt_succ_iff_lt_or_eq.mp hk with hlt | rfl
  · rw [← h.placed k hlt hruntime]
    refine congrArg BitVec.toNat (load64_congr fun a ha => hplaced.outside a fun hin => ?_)
    rw [h.inVirtAddr_iff hfit hdesc] at hin
    rw [Nat.succ_mul] at hfit
    have hle : (k + 1) * descSize.toNat ≤ i * descSize.toNat := Nat.mul_le_mul_right _ hlt
    rw [Nat.succ_mul] at hle
    have haddr : (BitVec.ofNat 64 (k * descSize.toNat + 16)).toNat = k * descSize.toNat + 16 := by
      rw [BitVec.toNat_ofNat, Nat.mod_eq_of_lt (by omega)]
    rw [toNat_sub_lt_iff (by omega), haddr] at ha
    omega
  · have hvirt := hplaced.virtAddr
    rw [h.pos hfit] at hvirt
    rw [descField, BitVec.ofNat_add]
    exact hvirt

include hdesc hfit in
/-- The copy of a descriptor stands behind the earlier ones. -/
theorem Built.copied_next (h : Built map descSize i s) {virtAddr base k j : Nat} (hplaced : s.Placed t virtAddr base)
    (hk : k < i + 1) (hruntime : IsRuntime map descSize k) (hj : j < descSize.toNat) :
    descByte (t.emit descSize).runtimeMap descSize (runtimeCount map descSize k) j = descByte t.map descSize k j := by
  have hle : runtimeCount map descSize i * descSize.toNat ≤ i * descSize.toNat :=
    Nat.mul_le_mul_right _ (Nat.count_le _)
  have hpos : t.pos = BitVec.ofNat 64 (i * descSize.toNat) := by
    rw [Virtmap.pos, hplaced.l, ← Virtmap.pos, h.pos hfit]
  have hout : t.out.toNat = runtimeCount map descSize i * descSize.toNat := by rw [hplaced.out, h.out]
  rw [Nat.succ_mul] at hfit
  show copy t.runtimeMap t.out t.map t.pos descSize.toNat
    (BitVec.ofNat 64 (runtimeCount map descSize k * descSize.toNat + j)) = _
  rcases Nat.lt_succ_iff_lt_or_eq.mp hk with hlt | rfl
  · have hcount : runtimeCount map descSize k < runtimeCount map descSize i := Nat.count_strict_mono hruntime hlt
    have hbelow : (runtimeCount map descSize k + 1) * descSize.toNat ≤ runtimeCount map descSize i * descSize.toNat :=
      Nat.mul_le_mul_right _ hcount
    rw [Nat.succ_mul] at hbelow
    rw [copy, if_neg, hplaced.runtimeMap, h.byte_earlier hdesc (by rw [Nat.succ_mul]; exact hfit) hplaced hlt hj]
    · exact h.copied k hlt hruntime j hj
    · rw [toNat_sub_lt_iff (by omega), hout, BitVec.toNat_ofNat, Nat.mod_eq_of_lt (by omega)]
      omega
  · have hoffset : BitVec.ofNat 64 (runtimeCount map descSize k * descSize.toNat + j) - t.out = BitVec.ofNat 64 j := by
      have heq : t.out = BitVec.ofNat 64 (runtimeCount map descSize k * descSize.toNat) := by
        rw [← hout, BitVec.ofNat_toNat, BitVec.setWidth_eq]
      rw [heq, BitVec.ofNat_add, BitVec.add_comm, BitVec.add_sub_cancel]
    rw [copy, hoffset, if_pos, hpos, ← BitVec.ofNat_add]
    · rfl
    · rw [BitVec.toNat_ofNat, Nat.mod_eq_of_lt (by omega)]
      exact hj

include hdesc hfit in
/-- A runtime descriptor. -/
theorem Built.enter (h : Built map descSize i s) (hruntime : IsRuntime map descSize i)
    (hbase : virtBaseAt map descSize (i + 1) < 2 ^ 64) :
    Built map descSize (i + 1) ((s.enterWith 0 false descSize).advance descSize) := by
  have hnext : virtBaseAt map descSize (i + 1) = efiRule.next (virtBaseAt map descSize i) (descRegion map descSize i) :=
    Rule.baseAt_present _ _ _ hruntime
  have hregion := h.region hdesc hfit
  have hfirst : 0 < s.efiVirtBase.toNat := by
    rw [h.base]
    exact lt_of_lt_of_le (show 0 < virtmapBase.toNat by decide) (efiRule.baseAt_mono _ _ (Nat.zero_le i))
  obtain ⟨t, hemit, hplaced⟩ := Virtmap.enterWith_zero descSize hfirst
    (by rw [h.base, hregion, ← hnext]; exact hbase)
  rw [h.base, hregion, ← hnext] at hplaced
  rw [hemit]
  have hcount : runtimeCount map descSize (i + 1) = runtimeCount map descSize i + 1 := by
    rw [runtimeCount, Nat.count_succ, if_pos hruntime]
    rfl
  have hle : runtimeCount map descSize i * descSize.toNat ≤ i * descSize.toNat :=
    Nat.mul_le_mul_right _ (Nat.count_le _)
  have hfit' := hfit
  rw [Nat.succ_mul] at hfit'
  refine ⟨Built.advance_l hfit (s := t.emit descSize) (hplaced.l ▸ h.l), hplaced.base, ?_, ?_, fun a ha => ?_,
    fun k hk hk' => ?_, fun k hk hk' j hj => h.copied_next hdesc hfit hplaced hk hk' hj⟩
  · show (t.out + descSize).toNat = _
    rw [BitVec.toNat_add, hplaced.out, h.out, hcount, Nat.succ_mul, Nat.mod_eq_of_lt (by omega)]
  · show (t.count + 1).toNat = _
    have hlt : runtimeCount map descSize i ≤ runtimeCount map descSize i * descSize.toNat :=
      Nat.le_mul_of_pos_right _ (by omega)
    rw [BitVec.toNat_add, hplaced.count, h.count, hcount, show (1 : U32).toNat = 1 from rfl, Nat.mod_eq_of_lt (by omega)]
  · have hout : ¬ s.InVirtAddr a := by
      rw [h.inVirtAddr_iff hfit hdesc]
      exact ha i (Nat.lt_succ_self i) hruntime
    exact (hplaced.outside a hout).trans (h.kept a fun k hk => ha k (by omega))
  · have hvirt := h.placed_next hdesc hfit hplaced hk hk'
    exact hvirt

end

/-! ### The whole loop -/

section

variable {map : Bytes} {mapSize descSize : U64} {n i : Nat} {s : Virtmap} (hdesc : 40 ≤ descSize.toNat)
  (hn : n * descSize.toNat = mapSize.toNat) (hfit : mapSize.toNat < 2 ^ 31)
  (hbase : virtBaseAt map descSize n < 2 ^ 64)

include hdesc hn hfit hbase in
/-- One pass handles one descriptor. -/
theorem Built.pass (h : Built map descSize i s) (hi : i < n) :
    ∃ t, virtmapPassWith 0 false mapSize descSize s = .next t ∧ Built map descSize (i + 1) t := by
  have hle : (i + 1) * descSize.toNat ≤ n * descSize.toNat := Nat.mul_le_mul_right _ hi
  have hfit' : (i + 1) * descSize.toNat < 2 ^ 31 := by omega
  have hlt : s.pos < mapSize := by
    rw [Nat.succ_mul] at hle
    rw [BitVec.lt_def, Virtmap.toNat_pos (by rw [h.l]; omega), h.l]
    omega
  rw [virtmapPassWith, if_neg (not_not.mpr hlt), h.attribute hdesc hfit']
  by_cases hruntime : IsRuntime map descSize i
  · rw [if_neg hruntime]
    refine ⟨_, rfl, h.enter hdesc hfit' hruntime (lt_of_le_of_lt ?_ hbase)⟩
    exact efiRule.baseAt_mono _ _ hi
  · rw [if_pos (not_not.mp hruntime)]
    exact ⟨_, rfl, h.skip hfit' hruntime⟩

include hn hfit in
theorem Built.done (h : Built map descSize n s) : virtmapPassWith 0 false mapSize descSize s = .done s := by
  refine if_pos fun hlt => ?_
  rw [BitVec.lt_def, Virtmap.toNat_pos (by rw [h.l, hn]; exact hfit), h.l, hn] at hlt
  exact Nat.lt_irrefl _ hlt

include hdesc hn hfit hbase in
theorem efiGetVirtmapWith_built (runtimeMap : Bytes) {fuel : Nat} (hfuel : n < fuel) :
    ∃ v, efiGetVirtmapWith 0 fuel false map mapSize descSize runtimeMap = some v ∧ Built map descSize n v := by
  let Inv (s : Virtmap) : Prop := ∃ i, i ≤ n ∧ Built map descSize i s
  have hstart : Inv { l := 0, efiVirtBase := virtmapBase, map, out := 0, runtimeMap, count := 0 } :=
    ⟨0, Nat.zero_le n, built_start runtimeMap⟩
  have hnext (s t : Virtmap) (hs : Inv s) (hpass : virtmapPassWith 0 false mapSize descSize s = .next t) :
      ∃ i, i < n ∧ Built map descSize i s ∧ Built map descSize (i + 1) t := by
    obtain ⟨i, hi, hbuilt⟩ := hs
    rcases Nat.lt_or_eq_of_le hi with hlt | rfl
    · obtain ⟨u, hu, hbuilt'⟩ := hbuilt.pass hdesc hn hfit hbase hlt
      obtain rfl : u = t := Pass.next.inj (hu.symm.trans hpass)
      exact ⟨i, hlt, hbuilt, hbuilt'⟩
    · rw [hbuilt.done hn hfit] at hpass
      cases hpass
  obtain ⟨v, hv⟩ : ∃ v, efiGetVirtmapWith 0 fuel false map mapSize descSize runtimeMap = some v := by
    refine run_terminates Inv (fun s => n - s.l.toNat / descSize.toNat) (fun s t hs hpass => ?_) fuel hstart ?_
    · obtain ⟨i, hi, hbuilt, hbuilt'⟩ := hnext s t hs hpass
      refine ⟨⟨i + 1, hi, hbuilt'⟩, ?_⟩
      rw [hbuilt.l, hbuilt'.l, Nat.mul_div_cancel _ (by omega), Nat.mul_div_cancel _ (by omega)]
      omega
    · exact lt_of_le_of_lt (Nat.sub_le _ _) hfuel
  refine ⟨v, hv, run_sound Inv (fun s t hs hpass => ?_) (fun s r hs hpass => ?_) fuel hstart hv⟩
  · obtain ⟨i, hi, -, hbuilt'⟩ := hnext s t hs hpass
    exact ⟨i + 1, hi, hbuilt'⟩
  · obtain ⟨i, hi, hbuilt⟩ := hs
    rcases Nat.lt_or_eq_of_le hi with hlt | rfl
    · obtain ⟨u, hu, -⟩ := hbuilt.pass hdesc hn hfit hbase hlt
      rw [hu] at hpass
      cases hpass
    · rw [hbuilt.done hn hfit] at hpass
      exact Pass.done.inj hpass ▸ hbuilt

end

/-! ### The mapping -/

/-- The size of `efi_memory_desc_t`. -/
def sizeofEfiMemoryDesc : Nat := 40

/-- The bytes of the 64K granules that a range touches. -/
def granules (start size : Nat) : Set Nat :=
  Set.Ico (start / sz64K.toNat * sz64K.toNat) (alignUp (start + size) sz64K.toNat)

/-- Two ranges share no granule. -/
def GranulesApart (a size b size' : Nat) : Prop := ∀ x ∈ granules a size, x ∉ granules b size'

theorem granulesApart_of_le {a b size size' : Nat}
    (h : alignUp (a + size) sz64K.toNat ≤ b / sz64K.toNat * sz64K.toNat) :
    GranulesApart a size b size' ∧ GranulesApart b size' a size := by
  have hlt {x : Nat} (hx : x ∈ granules a size) (hx' : x ∈ granules b size') : False :=
    absurd (hx.2.trans_le h) (Nat.not_lt.mpr hx'.1)
  exact ⟨fun x hx hx' => hlt hx hx', fun x hx hx' => hlt hx' hx⟩

/-- The virtual address of a descriptor after the loop. -/
def Virtmap.virtAddr (v : Virtmap) (descSize : U64) (i : Nat) : Nat := (descField v.map descSize i 16).toNat

/-- The runtime map of a memory map with `n` descriptors. -/
structure Mapped (map : Bytes) (descSize : U64) (n : Nat) (v : Virtmap) : Prop where
  count : v.count.toNat = runtimeCount map descSize n
  copied : ∀ i < n, IsRuntime map descSize i → ∀ k < descSize.toNat,
    descByte v.runtimeMap descSize (runtimeCount map descSize i) k = descByte v.map descSize i k
  fields : ∀ i < n, IsRuntime map descSize i → ∀ k < descSize.toNat, k < 16 ∨ 24 ≤ k →
    descByte v.map descSize i k = descByte map descSize i k
  untouched : ∀ i < n, ¬ IsRuntime map descSize i → ∀ k < descSize.toNat,
    descByte v.map descSize i k = descByte map descSize i k
  disjoint : ∀ i < n, ∀ j < n, IsRuntime map descSize i → IsRuntime map descSize j → i ≠ j →
    GranulesApart (v.virtAddr descSize i) (descRegion map descSize i).size (v.virtAddr descSize j)
      (descRegion map descSize j).size
  above : ∀ i < n, IsRuntime map descSize i → virtmapBase.toNat ≤ v.virtAddr descSize i
  increasing : ∀ i j, i < j → j < n → IsRuntime map descSize i → IsRuntime map descSize j →
    v.virtAddr descSize i < v.virtAddr descSize j
  congruent : ∀ i < n, IsRuntime map descSize i →
    v.virtAddr descSize i % sz64K.toNat = (descRegion map descSize i).start % sz64K.toNat
  sections : ∀ i < n, IsRuntime map descSize i → sz2M.toNat ∣ (descRegion map descSize i).start →
    sz2M.toNat ≤ (descRegion map descSize i).size → sz2M.toNat ∣ v.virtAddr descSize i

section

variable {map : Bytes} {descSize : U64} {n : Nat} {v : Virtmap} (h : Built map descSize n v)

include h

/-- A byte of a descriptor that is not one of a runtime descriptor's `virt_addr`. -/
theorem Built.byte_kept {i k : Nat} (hdesc : 40 ≤ descSize.toNat) (hfit : n * descSize.toNat < 2 ^ 31) (hi : i < n)
    (hk : k < descSize.toNat) (hout : IsRuntime map descSize i → k < 16 ∨ 24 ≤ k) :
    descByte v.map descSize i k = descByte map descSize i k := by
  refine h.kept _ fun j hj hruntime hin => ?_
  have hle : (i + 1) * descSize.toNat ≤ n * descSize.toNat := Nat.mul_le_mul_right _ hi
  rw [Nat.succ_mul] at hle
  rw [BitVec.toNat_ofNat, Nat.mod_eq_of_lt (by omega)] at hin
  rcases Nat.lt_trichotomy i j with hlt | rfl | hlt
  · have hbelow : (i + 1) * descSize.toNat ≤ j * descSize.toNat := Nat.mul_le_mul_right _ hlt
    rw [Nat.succ_mul] at hbelow
    omega
  · have := hout hruntime
    omega
  · have hbelow : (j + 1) * descSize.toNat ≤ i * descSize.toNat := Nat.mul_le_mul_right _ hlt
    rw [Nat.succ_mul] at hbelow
    omega

/-- The granules of a region end where those of a later one start, or before. -/
theorem Built.virtAddr_apart {i j : Nat} (hij : i < j) (hj : j < n) (hi : IsRuntime map descSize i)
    (hruntime : IsRuntime map descSize j) :
    alignUp (v.virtAddr descSize i + (descRegion map descSize i).size) sz64K.toNat ≤
      v.virtAddr descSize j / sz64K.toNat * sz64K.toNat := by
  rw [Virtmap.virtAddr, Virtmap.virtAddr, h.placed i (hij.trans hj) hi, h.placed j hj hruntime]
  exact efiRule.placeAt_apart _ _ hi hij

theorem Built.virtAddr_section {i : Nat} (hi : i < n) (hruntime : IsRuntime map descSize i)
    (hstart : sz2M.toNat ∣ (descRegion map descSize i).start) (hsize : sz2M.toNat ≤ (descRegion map descSize i).size) :
    sz2M.toNat ∣ v.virtAddr descSize i := by
  have halign : efiRule.align (descRegion map descSize i) = sz2M.toNat := if_pos ⟨hstart, hsize⟩
  rw [Virtmap.virtAddr, h.placed i hi hruntime]
  calc sz2M.toNat = efiRule.align (descRegion map descSize i) := halign.symm
    _ ∣ efiRule.placeAt (descRegion map descSize) virtmapBase.toNat (IsRuntime map descSize) i := by
      refine efiRule.align_dvd_place _ _ ?_
      rw [halign]
      exact hstart

theorem Built.mapped (hdesc : 40 ≤ descSize.toNat) (hfit : n * descSize.toNat < 2 ^ 31)
    (hsizes : ∀ i < n, IsRuntime map descSize i → 0 < (descRegion map descSize i).size) :
    Mapped map descSize n v where
  count := h.count
  copied := h.copied
  fields i hi _ k hk hout := h.byte_kept hdesc hfit hi hk fun _ => hout
  untouched i hi habsent k hk := h.byte_kept hdesc hfit hi hk fun hruntime => absurd hruntime habsent
  disjoint i hi j hj hruntime hruntime' hne := by
    rcases Nat.lt_or_gt_of_ne hne with hlt | hlt
    · exact (granulesApart_of_le (h.virtAddr_apart hlt hj hruntime hruntime')).1
    · exact (granulesApart_of_le (h.virtAddr_apart hlt hi hruntime' hruntime)).2
  above i hi hruntime := by
    rw [Virtmap.virtAddr, h.placed i hi hruntime]
    exact efiRule.first_le_placeAt _ _ i
  increasing i j hij hj hi hruntime :=
    calc v.virtAddr descSize i
        < v.virtAddr descSize i + (descRegion map descSize i).size :=
          Nat.lt_add_of_pos_right (hsizes i (hij.trans hj) hi)
      _ ≤ alignUp (v.virtAddr descSize i + (descRegion map descSize i).size) sz64K.toNat :=
          le_alignUp _ efiRule.unit_pos
      _ ≤ v.virtAddr descSize j / sz64K.toNat * sz64K.toNat := h.virtAddr_apart hij hj hi hruntime
      _ ≤ v.virtAddr descSize j := Nat.div_mul_le_self _ _
  congruent i hi hruntime := by
    rw [Virtmap.virtAddr, h.placed i hi hruntime]
    exact efiRule.place_mod _ _
  sections i hi hruntime hstart hsize := h.virtAddr_section hi hruntime hstart hsize

end

/-- **The runtime map**: the copies, the count and the virtual addresses that `efi_get_virtmap` makes of every memory map
whose runtime regions are not empty and fit below the end of the address space. -/
theorem efiGetVirtmapWith_mapped {map : Bytes} {mapSize descSize : U64} (runtimeMap : Bytes) {fuel : Nat}
    (hdesc : sizeofEfiMemoryDesc ≤ descSize.toNat) (hdvd : descSize.toNat ∣ mapSize.toNat)
    (hfit : mapSize.toNat < 2 ^ 31)
    (hsizes : ∀ i < mapSize.toNat / descSize.toNat, IsRuntime map descSize i → 0 < (descRegion map descSize i).size)
    (hbase : virtBaseAt map descSize (mapSize.toNat / descSize.toNat) < 2 ^ 64)
    (hfuel : mapSize.toNat / descSize.toNat < fuel) :
    ∃ v, efiGetVirtmapWith 0 fuel false map mapSize descSize runtimeMap = some v ∧
      Mapped map descSize (mapSize.toNat / descSize.toNat) v := by
  have hn : mapSize.toNat / descSize.toNat * descSize.toNat = mapSize.toNat := Nat.div_mul_cancel hdvd
  obtain ⟨v, hv, hbuilt⟩ := efiGetVirtmapWith_built hdesc hn hfit hbase runtimeMap hfuel
  exact ⟨v, hv, hbuilt.mapped hdesc (hn.symm ▸ hfit) hsizes⟩

/-- Three descriptors of 48 bytes, at the physical addresses 0x3000, 0 and 0x200000, of which the second has no
`EFI_MEMORY_RUNTIME`. The last one has 512 pages. -/
def runtimeDescs : Bytes := fun a =>
  if a = 9 then 0x30 else if a = 24 then 3 else if a = 39 then 0x80
  else if a = 72 then 1
  else if a = 106 then 0x20 else if a = 121 then 2 else if a = 135 then 0x80
  else 0

theorem efiGetVirtmapWith_mapped_three :
    ∃ v, efiGetVirtmapWith 0 4 false runtimeDescs 144 48 (fun _ => 0) = some v ∧ Mapped runtimeDescs 48 3 v :=
  @efiGetVirtmapWith_mapped runtimeDescs 144 48 (fun _ => 0) 4 (by decide) (by decide) (by decide) (by decide +kernel)
    (by decide +kernel) (by decide)

end XosKernel.Efi
