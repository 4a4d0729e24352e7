import XosKernel.BootmemNode

/-! What setting up a node does: `init_bootmem_core` reserves every page, `free_bootmem_core` and
`reserve_bootmem_core` write one range of bits. None of the last two looks at the cursor. -/

namespace XosKernel.Bootmem

open Memory BootmemData

theorem passes_fit (first last : Word) : first.toNat + passes first last < 2 ^ 32 := by
  have := first.isLt
  have := last.isLt
  rw [passes]
  omega

/-! ### Freeing and reserving -/

/-- `sidx` and `eidx` of `free_bootmem_core`. -/
def freeSidx (b : BootmemData) (addr : Word) : Word :=
  (addr + pageSize - 1) / pageSize - b.nodeBootStart / pageSize

def freeEidx (b : BootmemData) (addr size : Word) : Word := (addr + size - b.nodeBootStart) / pageSize

/-- The pages whose bits a call of `free_bootmem_core` clears. -/
def freedPages (b : BootmemData) (addr size : Word) : Set Nat :=
  {p | (freeSidx b addr).toNat ≤ p ∧ p < (freeEidx b addr size).toNat}

/-- `sidx` and `eidx` of `reserve_bootmem_core`. -/
def reserveSidx (b : BootmemData) (addr : Word) : Word := (addr - b.nodeBootStart) / pageSize

def reserveEidx (b : BootmemData) (addr size : Word) : Word :=
  (addr + size - b.nodeBootStart + pageSize - 1) / pageSize

theorem passes_range {first last : Word} {p : Nat} :
    first.toNat ≤ p ∧ p < first.toNat + passes first last ↔ first.toNat ≤ p ∧ p < last.toNat := by
  rw [passes]
  omega

theorem freeBootmemCore_written {s t : Boot} {addr size : Word}
    (h : freeBootmemCore s addr size = .ret () t) :
    BitsWritten s t (freeSidx s.bdata addr).toNat
      ((freeSidx s.bdata addr).toNat + passes (freeSidx s.bdata addr) (freeEidx s.bdata addr size)) false := by
  rw [freeBootmemCore] at h
  split at h
  · cases h
  split at h
  · cases h
  exact clearBits_written (passes_fit _ _) h

theorem reserveBootmemCore_written {s t : Boot} {addr size : Word}
    (h : reserveBootmemCore s addr size = .ret () t) :
    BitsWritten s t (reserveSidx s.bdata addr).toNat
      ((reserveSidx s.bdata addr).toNat + passes (reserveSidx s.bdata addr) (reserveEidx s.bdata addr size))
      true := by
  rw [reserveBootmemCore] at h
  split at h
  · cases h
  split at h
  · cases h
  split at h
  · cases h
  split at h
  · cases h
  cases h
  exact setBits_written s _ _ (passes_fit _ _)

/-! ### Initialising -/

section

variable {s : Boot} {mapstart start endPfn : Word}

/-- The size of the bitmap covers one bit for each page and more. -/
theorem initBootmemCore_mapsize (hle : start.toNat ≤ endPfn.toNat) (hend : endPfn.toNat ≤ 2 ^ 20) :
    (initBootmemCore s mapstart start endPfn).1.toNat =
      ((endPfn.toNat - start.toNat + 8) / 8 + 3) / 4 * 4 := by
  have hsub : (endPfn - start).toNat = endPfn.toNat - start.toNat :=
    BitVec.toNat_sub_of_le (BitVec.le_def.mpr hle)
  have hbits : (endPfn - start + 1 + 7).toNat = endPfn.toNat - start.toNat + 8 := by
    have height : ((1 : Word) + 7).toNat = 8 := rfl
    rw [BitVec.add_assoc, BitVec.toNat_add, hsub, height]
    exact Nat.mod_eq_of_lt (by omega)
  have hbytes : ((endPfn - start + 1 + 7) / 8).toNat = (endPfn.toNat - start.toNat + 8) / 8 := by
    rw [BitVec.toNat_udiv, hbits]
    rfl
  have hround : ((endPfn - start + 1 + 7) / 8 + (4 - 1)).toNat = (endPfn.toNat - start.toNat + 8) / 8 + 3 := by
    have hthree : (4 - 1 : Word).toNat = 3 := rfl
    rw [BitVec.toNat_add, hbytes, hthree]
    exact Nat.mod_eq_of_lt (by omega)
  show (((endPfn - start + 1 + 7) / 8 + (4 - 1)) &&& ~~~(4 - 1 : Word)).toNat = _
  rw [Word.toNat_and_not_sub_one (a := (4 : Word)) ⟨2, rfl⟩, hround]
  rfl

theorem initBootmemCore_start (hstart : start.toNat < 2 ^ 20) :
    (initBootmemCore s mapstart start endPfn).2.bdata.nodeBootStart.toNat = start.toNat * 4096 := by
  show (start <<< pageShift).toNat = _
  have hpage : 2 ^ pageShift = 4096 := rfl
  rw [BitVec.toNat_shiftLeft, Nat.shiftLeft_eq, hpage]
  exact Nat.mod_eq_of_lt (by omega)

theorem initBootmemCore_nodeOk (hstart : start.toNat < 2 ^ 20) (hle : start.toNat ≤ endPfn.toNat)
    (hend : endPfn.toNat ≤ 2 ^ 20) : (initBootmemCore s mapstart start endPfn).2.bdata.NodeOk := by
  have haddr := @initBootmemCore_start s mapstart start endPfn hstart
  refine ⟨?_, ?_, hend⟩
  · rw [haddr]
    exact Nat.mul_mod_left _ _
  · rw [haddr, Nat.mul_div_cancel _ (by decide)]
    exact hle

theorem initBootmemCore_pages (hstart : start.toNat < 2 ^ 20) :
    (initBootmemCore s mapstart start endPfn).2.bdata.pages = endPfn.toNat - start.toNat := by
  rw [pages, initBootmemCore_start hstart, Nat.mul_div_cancel _ (by decide)]
  rfl

/-- The bytes of the bitmap lie in the memory that the call returns the size of. -/
theorem initBootmemCore_bitmapByte (hstart : start.toNat < 2 ^ 20) (hle : start.toNat ≤ endPfn.toNat)
    (hend : endPfn.toNat ≤ 2 ^ 20) {a : Word}
    (h : (initBootmemCore s mapstart start endPfn).2.BitmapByte a) :
    (a - (initBootmemCore s mapstart start endPfn).2.bdata.nodeBootmemMap).toNat <
      (initBootmemCore s mapstart start endPfn).1.toNat := by
  obtain ⟨nr, hnr, rfl⟩ := h
  rw [initBootmemCore_pages hstart] at hnr
  rw [bitByte_toNat (by omega), initBootmemCore_mapsize hle hend]
  omega

/-- Every page is reserved at first. -/
theorem initBootmemCore_reserved (hstart : start.toNat < 2 ^ 20) (hle : start.toNat ≤ endPfn.toNat)
    (hend : endPfn.toNat ≤ 2 ^ 20) {p : Nat} (hp : p < endPfn.toNat - start.toNat) :
    (initBootmemCore s mapstart start endPfn).2.reserved p = true := by
  have hpw : (BitVec.ofNat 32 p).toNat = p := by
    rw [BitVec.toNat_ofNat]
    exact Nat.mod_eq_of_lt (by omega)
  have hbyte := @initBootmemCore_bitmapByte s mapstart start endPfn hstart hle hend _
    ⟨BitVec.ofNat 32 p, by rw [hpw, initBootmemCore_pages hstart]; exact hp, rfl⟩
  show ((initBootmemCore s mapstart start endPfn).2.mem _).getLsbD _ = true
  have hones : (initBootmemCore s mapstart start endPfn).2.mem
      (bitByte (initBootmemCore s mapstart start endPfn).2.bdata.nodeBootmemMap (BitVec.ofNat 32 p)) = 0xff := by
    show fill s.mem (initBootmemCore s mapstart start endPfn).2.bdata.nodeBootmemMap _
      (initBootmemCore s mapstart start endPfn).1.toNat _ = _
    rw [fill_apply, if_pos hbyte]
  rw [hones]
  have hbit : ∀ k, k < 8 → (0xff : BitVec 8).getLsbD k = true := by decide
  exact hbit _ (Nat.mod_lt _ (by decide))

end

end XosKernel.Bootmem
