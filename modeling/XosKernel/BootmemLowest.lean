import XosKernel.BootmemEnds
import XosKernel.BootmemRun

/-! First fit. On a node of the 32-bit physical address space the pages that suit a request are the starts of its
free runs, counted in natural numbers; a call fails just when there is none, and takes the lowest one from the page of
the goal on, or the lowest one at all. -/

namespace XosKernel.Bootmem

open Loop

/-- The number of pages that a request needs. -/
def pageCount (size : Word) : Nat := (size.toNat + 4095) / 4096

/-- The pages from `i` on that a request needs are free pages of the node. -/
def Boot.FreeRun (s : Boot) (size : Word) (i : Nat) : Prop :=
  i + pageCount size ≤ s.bdata.pages ∧ ∀ p, i ≤ p → p < i + pageCount size → s.reserved p = false

/-- A node of the 32-bit physical address space, which need not start at a page. -/
structure BootmemData.NodeRange (b : BootmemData) : Prop where
  start_le : b.nodeBootStart.toNat / 4096 ≤ b.nodeLowPfn.toNat
  low_le : b.nodeLowPfn.toNat ≤ 2 ^ 20

theorem BootmemData.NodeOk.nodeRange {b : BootmemData} (h : b.NodeOk) : b.NodeRange := ⟨h.start_le, h.low_le⟩

section

variable {s : Boot} {size align goal : Word}

theorem BootmemData.NodeRange.toNat_eidx {b : BootmemData} (h : b.NodeRange) : b.eidx.toNat = b.pages := by
  have hle := h.start_le
  rw [BootmemData.eidx, BitVec.toNat_sub_of_le, toNat_shift, BootmemData.pages]
  rw [BitVec.le_def, toNat_shift]
  exact hle

theorem BootmemData.NodeRange.pages_le {b : BootmemData} (h : b.NodeRange) : b.pages ≤ 2 ^ 20 := by
  have hlow := h.low_le
  rw [BootmemData.pages]
  omega

theorem one_le_pageCount (hsize : size ≠ 0) : 1 ≤ pageCount size := by
  have hne : size.toNat ≠ 0 := fun h => hsize (BitVec.eq_of_toNat_eq h)
  rw [pageCount]
  omega

theorem ofNat_toNat_of_lt {i : Nat} (hi : i < 2 ^ 32) : (BitVec.ofNat 32 i).toNat = i := by
  rw [BitVec.toNat_ofNat, Nat.mod_eq_of_lt hi]

/-- The scan accepts just the starts of free runs. -/
theorem fits_iff_freeRun (hnode : s.bdata.NodeRange) (hsize : size ≠ 0) (hwrap : size.toNat + 4095 < 2 ^ 32)
    (i : Word) : i < s.bdata.eidx ∧ s.fits s.bdata.eidx (areaSize size) i = true ↔ s.FreeRun size i.toNat := by
  have heidx := hnode.toNat_eidx
  have hpages := hnode.pages_le
  have hcount : (areaSize size).toNat = pageCount size := toNat_pageCount hwrap
  have hone := one_le_pageCount hsize
  have hmany : pageCount size ≤ 2 ^ 20 := by
    rw [pageCount]
    omega
  constructor
  · rintro ⟨hlt, hfits⟩
    obtain ⟨hclear, hrest⟩ := (fits_iff hlt).mp hfits
    have hltNat := BitVec.lt_def.mp hlt
    have hend : (i + areaSize size).toNat = i.toNat + pageCount size := by
      rw [BitVec.toNat_add, hcount, Nat.mod_eq_of_lt (by omega)]
    have hpage (p : Nat) (hlo : i.toNat < p) (hhi : p < i.toNat + pageCount size) :
        p < s.bdata.pages ∧ s.reserved p = false := by
      have hp := ofNat_toNat_of_lt (i := p) (by omega)
      obtain ⟨h1, h2⟩ := hrest (BitVec.ofNat 32 p) (BitVec.lt_def.mpr (by omega)) (BitVec.lt_def.mpr (by omega))
      have h1 := BitVec.lt_def.mp h1
      exact ⟨by omega, h2⟩
    refine ⟨?_, fun p hlo hhi => ?_⟩
    · rcases Nat.eq_or_lt_of_le hone with heq | hmore
      · omega
      · have hlast := (hpage (i.toNat + pageCount size - 1) (by omega) (by omega)).1
        omega
    · rcases Nat.eq_or_lt_of_le hlo with rfl | hless
      · rw [reserved_toNat]
        exact hclear
      · exact (hpage p hless hhi).2
  · rintro ⟨hin, hclear⟩
    have hlt : i < s.bdata.eidx := BitVec.lt_def.mpr (by omega)
    have hend : (i + areaSize size).toNat = i.toNat + pageCount size := by
      rw [BitVec.toNat_add, hcount, Nat.mod_eq_of_lt (by omega)]
    refine ⟨hlt, (fits_iff hlt).mpr ⟨?_, fun nr hlo hhi => ?_⟩⟩
    · rw [← reserved_toNat]
      exact hclear _ le_rfl (by omega)
    · have hlo := BitVec.lt_def.mp hlo
      have hhi := BitVec.lt_def.mp hhi
      refine ⟨BitVec.lt_def.mpr (by omega), ?_⟩
      rw [← reserved_toNat]
      exact hclear _ (by omega) (by omega)

/-- Rounding up to the alignment in words, which wraps to zero behind the last multiple. -/
theorem toNat_roundUp (halign : align.toNat.isPowerOfTwo) (x : Word) :
    ((x + align - 1) &&& ~~~(align - 1)).toNat =
      if x.toNat + (align.toNat - 1) < 2 ^ 32 then (x.toNat + (align.toNat - 1)) / align.toNat * align.toNat else 0 := by
  have hpos := Nat.pos_of_isPowerOfTwo halign
  have hone := Word.toNat_sub_one (a := align) (by omega)
  have hround : x + align - 1 = x + (align - 1) := by
    rw [BitVec.sub_eq_add_neg, BitVec.sub_eq_add_neg, BitVec.add_assoc]
  have hx := x.isLt
  have halt := align.isLt
  rw [Word.toNat_and_not_sub_one halign, hround, BitVec.toNat_add, hone]
  split
  · rename_i hfit
    rw [Nat.mod_eq_of_lt hfit]
  · rename_i hover
    have hmod : (x.toNat + (align.toNat - 1)) % 2 ^ 32 = x.toNat + (align.toNat - 1) - 2 ^ 32 := by
      rw [Nat.mod_eq_sub_mod (by omega), Nat.mod_eq_of_lt (by omega)]
    rw [hmod, Nat.div_eq_of_lt (by omega), Nat.zero_mul]

theorem toNat_preferredByte (b : BootmemData) (goal : Word) : (preferredByte b goal).toNat =
    if goal ≠ 0 ∧ b.nodeBootStart.toNat ≤ goal.toNat ∧ goal.toNat / 4096 < b.nodeLowPfn.toNat then
      goal.toNat - b.nodeBootStart.toNat else 0 := by
  have hcond : (goal ≠ 0 ∧ goal ≥ b.nodeBootStart ∧ goal >>> pageShift < b.nodeLowPfn) ↔
      goal ≠ 0 ∧ b.nodeBootStart.toNat ≤ goal.toNat ∧ goal.toNat / 4096 < b.nodeLowPfn.toNat := by
    rw [ge_iff_le, BitVec.le_def, BitVec.lt_def, toNat_shift]
  rw [preferredByte]
  simp only [hcond]
  split
  · rename_i hin
    exact BitVec.toNat_sub_of_le (BitVec.le_def.mpr hin.2.1)
  · rfl

end

/-- A node of eight pages from address 0 on, all of them free, with its bitmap outside. -/
theorem exists_freeNode : ∃ s, (initBootmemCore bootStart 0x100 0 8).2.call (.free 0 0x8000) = .ret none s ∧
    s.bdata = (initBootmemCore bootStart 0x100 0 8).2.bdata ∧ ∀ p < 8, s.reserved p = false := by
  have hrun : ((initBootmemCore bootStart 0x100 0 8).2.replay [.free 0 0x8000]).any (fun r =>
      r.1 == [(.free 0 0x8000, none)] && (List.range 8).all fun p => !r.2.reserved p) = true := by decide +kernel
  obtain ⟨⟨es, s⟩, hreplay, hvalues⟩ := (Option.any_eq_true _ _).mp hrun
  rw [Bool.and_eq_true, beq_iff_eq] at hvalues
  obtain ⟨hes, hclear⟩ := hvalues
  obtain ⟨es', u, r, hinit, hfree, heq⟩ := Boot.replay_cons hreplay
  cases hinit
  obtain rfl : es = [(.free 0 0x8000, none)] := hes
  rw [List.cons.injEq, Prod.mk.injEq] at heq
  rw [← heq.1.2] at hfree
  refine ⟨s, hfree, (freeBootmemCore_written (call_free hfree)).bdata, fun p hp => ?_⟩
  have hbit := List.all_eq_true.mp hclear p (List.mem_range.mpr hp)
  simpa using hbit

end XosKernel.Bootmem
