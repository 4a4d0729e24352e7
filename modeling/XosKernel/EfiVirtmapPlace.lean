import XosKernel.EfiVirtmap
import XosKernel.RegionLayout
import XosKernel.WordAlign
import XosKernel.WordMemory

/-! `efi_get_virtmap` for an architecture that has no flat mapping of the runtime regions: `EFI_RT_VIRTUAL_OFFSET` is 0
there. What the body of its loop does with a runtime region: the place of the region and the base behind it. -/

namespace XosKernel.Efi

open Memory Loop Layout

/-! ### `efi_get_virtmap` for any `EFI_RT_VIRTUAL_OFFSET` -/

/-- The body of the loop for a descriptor with `EFI_MEMORY_RUNTIME`. -/
def Virtmap.enterWith (rtVirtualOffset : U64) (s : Virtmap) (novamap : Bool) (descSize : U64) : Virtmap :=
  let virtAddr := s.physAddr + rtVirtualOffset
  let t := s.setVirtAddr virtAddr
  if novamap then t
  else if rtVirtualOffset != 0 then t.emit descSize
  else (t.place (s.numPages * efiPageSize) virtAddr).emit descSize

def virtmapPassWith (rtVirtualOffset : U64) (novamap : Bool) (mapSize descSize : U64) (s : Virtmap) :
    Loop.Pass Virtmap Virtmap :=
  if ¬ s.pos < mapSize then .done s
  else if s.attribute &&& efiMemoryRuntime = 0 then .next (s.advance descSize)
  else .next ((s.enterWith rtVirtualOffset novamap descSize).advance descSize)

def efiGetVirtmapWith (rtVirtualOffset : U64) (fuel : Nat) (novamap : Bool) (map : Bytes) (mapSize descSize : U64)
    (runtimeMap : Bytes) : Option Virtmap :=
  Loop.run (virtmapPassWith rtVirtualOffset novamap mapSize descSize) fuel
    { l := 0, efiVirtBase := virtmapBase, map, out := 0, runtimeMap, count := 0 }

theorem efiGetVirtmapWith_offset : efiGetVirtmapWith efiRtVirtualOffset = efiGetVirtmap := rfl

/-! ### Rounding -/

theorem isPowerOfTwo_sz64K : sz64K.toNat.isPowerOfTwo := ⟨16, rfl⟩

theorem isPowerOfTwo_sz2M : sz2M.toNat.isPowerOfTwo := ⟨21, rfl⟩

theorem toNat_roundDown {y : U64} (hy : y.toNat.isPowerOfTwo) (x : U64) :
    (roundDown x y).toNat = x.toNat / y.toNat * y.toNat := Word.toNat_and_not_sub_one hy x

theorem toNat_roundUp {x y : U64} (hy : y.toNat.isPowerOfTwo) (hx : 0 < x.toNat)
    (hfit : alignUp x.toNat y.toNat < 2 ^ 64) : (roundUp x y).toNat = alignUp x.toNat y.toNat := by
  have hpos : 0 < y.toNat := Nat.pos_of_isPowerOfTwo hy
  have hone : (x - 1).toNat = x.toNat - 1 := Word.toNat_sub_one (by omega)
  have hround : alignUp x.toNat y.toNat = (x.toNat - 1) / y.toNat * y.toNat + y.toNat := by
    rw [alignUp, Nat.ceilDiv_eq_add_pred_div, show x.toNat + y.toNat - 1 = x.toNat - 1 + y.toNat by omega,
      Nat.add_div_right _ hpos, Nat.mul_succ, Nat.mul_comm]
  rw [roundUp, BitVec.toNat_add, Word.toNat_or_sub_one hy, hone, hround]
  rw [hround] at hfit
  rw [show (1 : U64).toNat = 1 from rfl, Nat.mod_eq_of_lt (by omega)]
  omega

/-! ### The place of a region -/

/-- Granules of 64K, and sections of 2M for a region that starts at one and has room for one. -/
def efiRule : Rule where
  unit := sz64K.toNat
  align r := if sz2M.toNat ∣ r.start ∧ sz2M.toNat ≤ r.size then sz2M.toNat else sz64K.toNat
  unit_pos := by decide
  align_pos r := by split_ifs <;> decide
  unit_dvd r := by split_ifs <;> decide

/-- The physical range of a descriptor. -/
def Virtmap.region (s : Virtmap) : Region where
  start := s.physAddr.toNat
  size := s.numPages.toNat * efiPageSize.toNat

section

variable {s : Virtmap} {size : U64} {r : Region}

theorem toNat_sub_roundDown (x : U64) : (x - roundDown x sz64K).toNat = x.toNat % sz64K.toNat := by
  have hdown := toNat_roundDown isPowerOfTwo_sz64K x
  have hdiv := Nat.div_add_mod' x.toNat sz64K.toNat
  rw [BitVec.toNat_sub_of_le (by rw [BitVec.le_def, hdown]; omega), hdown]
  omega

/-- The base of a region is rounded to a section where the rule says so. The size that the code tests includes the offset
in the granule, which is 0 at the start of a section. -/
theorem toNat_slot (hphys : s.physAddr.toNat = r.start)
    (hsize : (size + (s.physAddr - roundDown s.physAddr sz64K)).toNat = r.size + r.start % sz64K.toNat)
    (hbase : 0 < s.efiVirtBase.toNat) (hfit : efiRule.slot s.efiVirtBase.toNat r < 2 ^ 64) :
    (if s.physAddr &&& (sz2M - 1) = 0 ∧ sz2M ≤ size + (s.physAddr - roundDown s.physAddr sz64K) then
      roundUp s.efiVirtBase sz2M else roundUp s.efiVirtBase sz64K).toNat = efiRule.slot s.efiVirtBase.toNat r := by
  have hmask : s.physAddr &&& (sz2M - 1) = 0 ↔ sz2M.toNat ∣ r.start := by
    rw [← BitVec.toNat_inj, Word.toNat_and_sub_one isPowerOfTwo_sz2M, hphys]
    exact Nat.dvd_iff_mod_eq_zero.symm
  have htest : (s.physAddr &&& (sz2M - 1) = 0 ∧ sz2M ≤ size + (s.physAddr - roundDown s.physAddr sz64K)) ↔
      sz2M.toNat ∣ r.start ∧ sz2M.toNat ≤ r.size := by
    rw [hmask, BitVec.le_def, hsize]
    refine and_congr_right fun hdvd => ?_
    rw [Nat.mod_eq_zero_of_dvd ((show sz64K.toNat ∣ sz2M.toNat by decide).trans hdvd), Nat.add_zero]
  by_cases hsection : sz2M.toNat ∣ r.start ∧ sz2M.toNat ≤ r.size
  · have halign : efiRule.align r = sz2M.toNat := if_pos hsection
    rw [if_pos (htest.mpr hsection), Rule.slot, halign]
    rw [Rule.slot, halign] at hfit
    exact toNat_roundUp isPowerOfTwo_sz2M hbase hfit
  · have halign : efiRule.align r = sz64K.toNat := if_neg hsection
    rw [if_neg (mt htest.mp hsection), Rule.slot, halign]
    rw [Rule.slot, halign] at hfit
    exact toNat_roundUp isPowerOfTwo_sz64K hbase hfit

/-- The place of a region and the base behind it, if that does not overflow. -/
theorem Virtmap.place_spec (hphys : s.physAddr.toNat = r.start) (hsize : size.toNat = r.size)
    (hbase : 0 < s.efiVirtBase.toNat) (hfit : efiRule.next s.efiVirtBase.toNat r < 2 ^ 64) :
    ∃ v base, s.place size s.physAddr = { s.setVirtAddr v with efiVirtBase := base } ∧
      v.toNat = efiRule.place s.efiVirtBase.toNat r ∧ base.toNat = efiRule.next s.efiVirtBase.toNat r := by
  have hunit : efiRule.unit = sz64K.toNat := rfl
  have hoffset : (s.physAddr - roundDown s.physAddr sz64K).toNat = r.start % sz64K.toNat := by
    rw [toNat_sub_roundDown, hphys]
  have hinflated : (size + (s.physAddr - roundDown s.physAddr sz64K)).toNat = r.size + r.start % sz64K.toNat := by
    rw [Rule.next, hunit] at hfit
    rw [BitVec.toNat_add, hoffset, hsize, Nat.mod_eq_of_lt (by omega)]
  have hslot := toNat_slot hphys hinflated hbase
    (lt_of_le_of_lt (Nat.le_add_right _ (r.size + r.start % efiRule.unit)) hfit)
  refine ⟨_, _, rfl, ?_, ?_⟩
  · have hcomm (x b y : U64) : x + (b - y) = b + (x - y) := by
      rw [BitVec.sub_eq_add_neg, BitVec.sub_eq_add_neg, ← BitVec.add_assoc, ← BitVec.add_assoc, BitVec.add_comm x]
    rw [hcomm, BitVec.toNat_add, hslot, hoffset, Rule.place, hunit, Nat.mod_eq_of_lt]
    rw [Rule.next, hunit] at hfit
    omega
  · rw [BitVec.toNat_add, hslot, hinflated]
    exact Nat.mod_eq_of_lt hfit

end

/-! ### The body of the loop -/

/-- The bytes of `in->virt_addr`. -/
def Virtmap.InVirtAddr (s : Virtmap) (a : U64) : Prop := (a - (s.pos + 16)).toNat < 8

/-- The region of the descriptor `in` is put at `virtAddr`. -/
structure Virtmap.Placed (s t : Virtmap) (virtAddr base : Nat) : Prop where
  l : t.l = s.l
  out : t.out = s.out
  count : t.count = s.count
  runtimeMap : t.runtimeMap = s.runtimeMap
  outside : ∀ a, ¬ s.InVirtAddr a → t.map a = s.map a
  virtAddr : (load64 t.map (s.pos + 16)).toNat = virtAddr
  base : t.efiVirtBase.toNat = base

theorem Virtmap.physAddr_setVirtAddr (s : Virtmap) (v : U64) : (s.setVirtAddr v).physAddr = s.physAddr := by
  refine load64_store64_of_disjoint fun b hb hin => ?_
  have hshift : b - (s.pos + 16) = b - (s.pos + 8) - 8 := by
    rw [BitVec.sub_sub, BitVec.add_assoc]
    rfl
  rw [hshift, BitVec.toNat_sub] at hin
  have height : (8 : U64).toNat = 8 := rfl
  change (b - (s.pos + 8)).toNat < 8 at hb
  omega

theorem Virtmap.enterWith_zero {s : Virtmap} (descSize : U64) (hbase : 0 < s.efiVirtBase.toNat)
    (hfit : efiRule.next s.efiVirtBase.toNat s.region < 2 ^ 64) :
    ∃ t, s.enterWith 0 false descSize = t.emit descSize ∧
      s.Placed t (efiRule.place s.efiVirtBase.toNat s.region) (efiRule.next s.efiVirtBase.toNat s.region) := by
  have hphys (v : U64) : (s.setVirtAddr v).physAddr.toNat = s.region.start :=
    congrArg BitVec.toNat (s.physAddr_setVirtAddr v)
  have hsize : (s.numPages * efiPageSize).toNat = s.region.size := by
    have hlt : s.region.size < 2 ^ 64 :=
      lt_of_le_of_lt ((Nat.le_add_right _ _).trans (Nat.le_add_left _ _)) hfit
    exact (BitVec.toNat_mul _ _).trans (Nat.mod_eq_of_lt hlt)
  obtain ⟨v, base, hplace, hv, hnext⟩ :=
    place_spec (s := s.setVirtAddr (s.physAddr + 0)) (r := s.region) (hphys _) hsize hbase hfit
  refine ⟨{ (s.setVirtAddr (s.physAddr + 0)).setVirtAddr v with efiVirtBase := base }, ?_, rfl, rfl, rfl, rfl, ?_, ?_,
    hnext⟩
  · have hzero : s.physAddr + 0 = s.physAddr := BitVec.add_zero _
    rw [← hplace, physAddr_setVirtAddr, hzero]
    show ((s.setVirtAddr (s.physAddr + 0)).place _ (s.physAddr + 0)).emit descSize = _
    rw [hzero]
  · intro a ha
    show store64 (store64 s.map (s.pos + 16) (s.physAddr + 0)) (s.pos + 16) v a = s.map a
    rw [store64_apply_of_not_lt ha, store64_apply_of_not_lt ha]
  · show (load64 (store64 (store64 s.map (s.pos + 16) (s.physAddr + 0)) (s.pos + 16) v) (s.pos + 16)).toNat = _
    rw [load64_store64]
    exact hv

end XosKernel.Efi
