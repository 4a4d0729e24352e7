import XosKernel.ZoneModel
import XosKernel.WordMemory

/-! A `struct page` after `free_area_init_core`, and the array of them: what the loop over the pages of a zone leaves in
memory. -/

namespace XosKernel.Zone

open Memory Loop

/-- A page of zone `zoneNum` that no one uses: reserved, with count 0 and an empty list. -/
structure PageReady (m : Mem 32) (page zoneNum : Word) : Prop where
  zone : load32 m (flagsField page) >>> zoneShift = zoneNum
  reserved : pageReserved m page = true
  count : load32 m (countField page) = 0
  next : load32 m page = page
  prev : load32 m (page + 4) = page

/-- A byte of the `struct page`. -/
def InStruct (page b : Word) : Prop := (b - page).toNat < 36

section

variable {m m' : Mem 32} {page b : Word}

theorem inStruct_of_field {i : Word} (hi : i.toNat + 4 ≤ 36) (h : (b - (page + i)).toNat < 4) : InStruct page b := by
  simp only [InStruct, BitVec.toNat_sub, BitVec.toNat_add] at h ⊢
  omega

theorem field_disjoint {i j : Word} (hi : i.toNat + 4 ≤ 36) (hj : j.toNat + 4 ≤ 36)
    (hne : i.toNat + 4 ≤ j.toNat ∨ j.toNat + 4 ≤ i.toNat) (h : (b - (page + i)).toNat < 4) :
    ¬ (b - (page + j)).toNat < 4 := by
  simp only [BitVec.toNat_sub, BitVec.toNat_add] at h ⊢
  omega

/-- A store into one field, read in another. -/
theorem load32_store32_field {i j v : Word} (hi : i.toNat + 4 ≤ 36) (hj : j.toNat + 4 ≤ 36)
    (hne : i.toNat + 4 ≤ j.toNat ∨ j.toNat + 4 ≤ i.toNat) :
    load32 (store32 m (page + j) v) (page + i) = load32 m (page + i) :=
  load32_store32_of_disjoint fun _ hb => field_disjoint hi hj hne hb

/-- The byte of the flags that has the bit `PG_reserved`. -/
theorem reserved_byte : bitByte (flagsField page) pgReserved = page + 21 := by
  rw [bitByte, flagsField, BitVec.add_assoc]
  rfl

theorem setPageReserved_apply (h : b ≠ page + 21) : setPageReserved m page b = m b := by
  rw [setPageReserved, setBitAt, reserved_byte, store8_apply, if_neg h]

/-- The number of the zone is the top byte of the flags. -/
theorem zone_eq_byte : load32 m (flagsField page) >>> zoneShift = (m (flagsField page + 3)).setWidth 32 := by
  apply BitVec.eq_of_getLsbD_eq
  intro i hi
  rw [BitVec.getLsbD_ushiftRight, BitVec.getLsbD_setWidth, zoneShift, decide_eq_true hi, Bool.true_and]
  by_cases hlt : i < 8
  · rw [load32_getLsbD m _ (by omega), show (24 + i) / 8 = 3 by omega, show (24 + i) % 8 = i by omega]
    rfl
  · rw [BitVec.getLsbD_of_ge _ _ (by omega), BitVec.getLsbD_of_ge _ _ (by omega)]

theorem setPageZone_zone {zoneNum : Word} (hnum : zoneNum.toNat < 256) :
    load32 (setPageZone m page zoneNum) (flagsField page) >>> zoneShift = zoneNum := by
  simp only [setPageZone, load32_store32]
  apply BitVec.eq_of_getLsbD_eq
  intro i hi
  by_cases hlt : i < 8
  · simp only [BitVec.getLsbD_ushiftRight, BitVec.getLsbD_or, BitVec.getLsbD_and, BitVec.getLsbD_not,
      BitVec.getLsbD_shiftLeft, zoneShift]
    simp [show 24 + i < 32 by omega, show ¬ 32 ≤ i by omega]
  · have hhigh : zoneNum.getLsbD i = false := by
      rw [BitVec.getLsbD, Nat.testBit_lt_two_pow]
      exact lt_of_lt_of_le hnum (Nat.pow_le_pow_right (n := 2) (by omega) (show 8 ≤ i by omega))
    rw [BitVec.getLsbD_ushiftRight, BitVec.getLsbD_of_ge _ _ (show 32 ≤ zoneShift + i by rw [zoneShift]; omega), hhigh]

/-- A byte that is none of the page's is left as it is. -/
theorem initPage_apply {zoneNum : Word} (h : ¬ InStruct page b) : initPage m page zoneNum b = m b := by
  have hfield (i : Word) (hi : i.toNat + 4 ≤ 36) : ¬ (b - (page + i)).toNat < 4 := fun hb =>
    h (inStruct_of_field hi hb)
  have hfirst : ¬ (b - page).toNat < 4 := fun hb => h (by unfold InStruct; omega)
  have hbyte : b ≠ page + 21 := by
    rintro rfl
    refine h ?_
    rw [InStruct, BitVec.add_comm, BitVec.add_sub_cancel]
    decide
  rw [initPage, initListHead, store32_apply_of_not_lt (hfield 4 (by decide)), store32_apply_of_not_lt hfirst,
    setPageReserved_apply hbyte, setPageCount, countField, store32_apply_of_not_lt (hfield 16 (by decide)), setPageZone,
    flagsField]
  simp only [store32_apply_of_not_lt (hfield 20 (by decide))]

/-- The words that the list of the page does not have are left by its initialisation. -/
theorem load32_initListHead {i : Word} (hlow : 8 ≤ i.toNat) (hi : i.toNat + 4 ≤ 36) :
    load32 (initListHead m page) (page + i) = load32 m (page + i) := by
  have hzero : page + 0 = page := BitVec.add_zero page
  have hnum : (0 : Word).toNat = 0 := rfl
  have hfirst : (0 : Word).toNat + 4 ≤ i.toNat := by omega
  have hsecond : (4 : Word).toNat + 4 ≤ i.toNat := hlow
  have hstore := @load32_store32_field m page i 0 page hi (by decide) (Or.inr hfirst)
  rw [hzero] at hstore
  rw [initListHead, load32_store32_field hi (by decide) (Or.inr hsecond), hstore]

theorem initListHead_apply (h : ¬ (b - page).toNat < 8) : initListHead m page b = m b := by
  have hsecond : ¬ (b - (page + 4)).toNat < 4 := by
    simp only [BitVec.toNat_sub, BitVec.toNat_add] at h ⊢
    have hfour : (4 : Word).toNat = 4 := rfl
    omega
  rw [initListHead, store32_apply_of_not_lt hsecond, store32_apply_of_not_lt (by omega)]

theorem pageReady_initPage {zoneNum : Word} (hnum : zoneNum.toNat < 256) :
    PageReady (initPage m page zoneNum) page zoneNum := by
  have htop : load32 (setPageReserved (setPageCount (setPageZone m page zoneNum) page 0) page) (flagsField page) >>>
      zoneShift = zoneNum := by
    have hother : flagsField page + 3 ≠ page + 21 := by
      rw [flagsField, BitVec.add_assoc]
      exact fun h => absurd ((BitVec.add_right_inj page).mp h) (by decide)
    rw [zone_eq_byte, setPageReserved_apply hother, ← zone_eq_byte, setPageCount, countField]
    rw [flagsField, load32_store32_field (by decide) (by decide) (Or.inr (by decide)), ← flagsField]
    exact setPageZone_zone hnum
  refine ⟨?_, ?_, ?_, ?_, ?_⟩
  · rw [initPage, flagsField, load32_initListHead (by decide) (by decide), ← flagsField]
    exact htop
  · have hbyte : ¬ ((page + 21 : Word) - page).toNat < 8 := by
      rw [BitVec.add_comm, BitVec.add_sub_cancel]
      decide
    rw [pageReserved, initPage, bitAt, reserved_byte, initListHead_apply hbyte, ← reserved_byte, ← bitAt,
      setPageReserved, bitAt_setBitAt]
    simp
  · rw [initPage, countField, load32_initListHead (by decide) (by decide)]
    have hreserved : load32 (setPageReserved (setPageCount (setPageZone m page zoneNum) page 0) page) (page + 16) =
        load32 (setPageCount (setPageZone m page zoneNum) page 0) (page + 16) := by
      refine load32_congr fun b hb => setPageReserved_apply ?_
      rintro rfl
      have hlast : (21 : Word).toNat = 21 := rfl
      have hcount : (16 : Word).toNat = 16 := rfl
      simp only [BitVec.toNat_sub, BitVec.toNat_add] at hb
      omega
    rw [hreserved, setPageCount, countField, load32_store32]
  · have hzero : page + 0 = page := BitVec.add_zero page
    have hstore := @load32_store32_field
      (store32 (setPageReserved (setPageCount (setPageZone m page zoneNum) page 0) page) page page) page 0 4 page
      (by decide) (by decide) (Or.inl (by decide))
    rw [hzero, load32_store32] at hstore
    rw [initPage, initListHead, hstore]
  · rw [initPage, initListHead, load32_store32]

theorem PageReady.congr {zoneNum : Word} (h : PageReady m page zoneNum) (hsame : ∀ b, InStruct page b → m' b = m b) :
    PageReady m' page zoneNum := by
  have hload (i : Word) (hi : i.toNat + 4 ≤ 36) : load32 m' (page + i) = load32 m (page + i) :=
    load32_congr fun b hb => hsame b (inStruct_of_field hi hb)
  have hfirst : load32 m' page = load32 m page := load32_congr fun b hb => hsame b (by unfold InStruct; omega)
  refine ⟨?_, ?_, ?_, ?_, ?_⟩
  · rw [flagsField, hload 20 (by decide)]
    exact h.zone
  · have hbyte : InStruct page (page + 21) := by
      rw [InStruct, BitVec.add_comm, BitVec.add_sub_cancel]
      decide
    have hreserved := h.reserved
    rw [pageReserved, bitAt, reserved_byte] at hreserved ⊢
    rwa [hsame _ hbyte]
  · rw [countField, hload 16 (by decide)]
    exact h.count
  · rw [hfirst]
    exact h.next
  · rw [hload 4 (by decide)]
    exact h.prev

end

/-! ### The array -/

section

variable {m m' : Mem 32} {memMap b : Word}

/-- Page number `i` of the array. -/
def pageNr (memMap : Word) (i : Nat) : Word := pageAt memMap (BitVec.ofNat 32 i)

/-- The bytes of a page, by their distance from the start of the array. -/
theorem inStruct_pageNr {i : Nat} (hi : 36 * (i + 1) ≤ 2 ^ 32) :
    InStruct (pageNr memMap i) b ↔ 36 * i ≤ (b - memMap).toNat ∧ (b - memMap).toNat < 36 * i + 36 := by
  have hoffset : (sizeofPage * BitVec.ofNat 32 i).toNat = 36 * i := by
    rw [BitVec.toNat_mul, BitVec.toNat_ofNat, show sizeofPage.toNat = 36 from rfl]
    omega
  rw [InStruct, pageNr, pageAt, ← BitVec.sub_sub, toNat_sub_lt_iff (by omega), hoffset]

/-- What the loop over the pages of a zone leaves. -/
structure PagesDone (m : Mem 32) (memMap : Word) (first count : Nat) (zoneNum : Word) (m' : Mem 32) : Prop where
  ready : ∀ l, first ≤ l → l < first + count → PageReady m' (pageNr memMap l) zoneNum
  outside : ∀ b, ¬ (36 * first ≤ (b - memMap).toNat ∧ (b - memMap).toNat < 36 * (first + count)) → m' b = m b

/-- One more page. -/
theorem PagesDone.step {first count : Nat} {zoneNum : Word} (h : PagesDone m memMap first count zoneNum m')
    (hnum : zoneNum.toNat < 256) (hfit : 36 * (first + (count + 1)) ≤ 2 ^ 32) :
    PagesDone m memMap first (count + 1) zoneNum (initPage m' (pageNr memMap (first + count)) zoneNum) := by
  refine ⟨fun l hlo hhi => ?_, fun b hb => ?_⟩
  · rcases Nat.lt_or_eq_of_le (show l ≤ first + count by omega) with hlt | rfl
    · refine (h.ready l hlo hlt).congr fun b hb => initPage_apply fun hb' => ?_
      rw [inStruct_pageNr (by omega)] at hb hb'
      omega
    · exact pageReady_initPage hnum
  · have hnot : ¬ InStruct (pageNr memMap (first + count)) b := by
      rw [inStruct_pageNr (by omega)]
      omega
    rw [initPage_apply hnot, h.outside b (by omega)]

theorem initPages_done {offset zoneNum size : Word} (m : Mem 32) (zoneStartPaddr : Word) (hnum : zoneNum.toNat < 256)
    (hfit : 36 * (offset.toNat + size.toNat) ≤ 2 ^ 32) :
    PagesDone m memMap offset.toNat size.toNat zoneNum (initPages memMap offset zoneNum size m zoneStartPaddr).1 ∧
      (initPages memMap offset zoneNum size m zoneStartPaddr).2 = zoneStartPaddr + size * pageSize := by
  suffices h : PagesDone m memMap offset.toNat size.toNat zoneNum
        (initPages memMap offset zoneNum size m zoneStartPaddr).1 ∧
      (initPages memMap offset zoneNum size m zoneStartPaddr).2 =
        zoneStartPaddr + BitVec.ofNat 32 size.toNat * pageSize by
    rwa [BitVec.ofNat_toNat, BitVec.setWidth_eq] at h
  refine forUp_inv (fun i (s : Mem 32 × Word) => PagesDone m memMap offset.toNat i zoneNum s.1 ∧
    s.2 = zoneStartPaddr + BitVec.ofNat 32 i * pageSize) ?_ ?_
  · exact ⟨⟨fun l hlo hhi => absurd hhi (by omega), fun b _ => rfl⟩, by simp⟩
  · rintro i ⟨m', p⟩ hi ⟨hdone, hpaddr⟩
    have hpage : offset + BitVec.ofNat 32 i = BitVec.ofNat 32 (offset.toNat + i) := by
      rw [BitVec.ofNat_add, BitVec.ofNat_toNat, BitVec.setWidth_eq]
    refine ⟨?_, ?_⟩
    · show PagesDone m memMap offset.toNat (i + 1) zoneNum
        (initPage m' (pageAt memMap (offset + BitVec.ofNat 32 i)) zoneNum)
      rw [hpage]
      exact hdone.step hnum (by omega)
    · show p + pageSize = _
      dsimp only at hpaddr
      rw [hpaddr, BitVec.add_assoc, BitVec.ofNat_add, BitVec.add_mul]
      rfl

end

end XosKernel.Zone
