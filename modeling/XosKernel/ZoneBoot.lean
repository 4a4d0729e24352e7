import XosKernel.BootmemCursor
import XosKernel.BootmemRoom
import XosKernel.EarlyPaging
import XosKernel.ZoneLayout

/-! `paging_init` on the memory that `setup_memory` leaves. The boot-time allocator keeps its bitmap in the memory that
`pagetable_init` and `zone_sizes_init` write to; it hands out pages that are apart from the bitmap, the directory
and the page tables, so the mapping of the low memory is still there when the zones are. -/

namespace XosKernel.Zone

open Memory Loop Bootmem BootmemData E820 Paging

/-- The state in which a call returns. A call that does not return is an allocation that does not succeed. -/
def returned {τ α : Type} : Outcome τ α → Except Stop τ
  | .ret _ s => .ok s
  | .bug _ => .error .bug
  | .hang => .error .noMemory

/-- The blocks of a run of allocations that starts in `s₁`, which has taken no more free pages than they need. -/
structure OwnsSince (s₁ : Boot) (m : Mem 32) (bdata : BootmemData) (blocks : List (Word × Word)) : Prop where
  run : ∃ es, AllocsInv s₁ es ⟨m, bdata⟩ ∧ Bootmem.blocks es = blocks.map fun block => byteSet block.1 block.2
  start : blocks = [] → ⟨m, bdata⟩ = s₁
  pages : s₁.freePages.length ≤ (⟨m, bdata⟩ : Boot).freePages.length + (blocks.map fun block => pageCount block.2).sum

section

variable {s₁ s t : Boot} {m m' : Mem 32} {bdata bdata' : BootmemData} {blocks : List (Word × Word)} {size a : Word}

theorem OwnsSince.pairwise (h : OwnsSince s₁ m bdata blocks) :
    blocks.Pairwise fun block block' => Disjoint (byteSet block.1 block.2) (byteSet block'.1 block'.2) := by
  obtain ⟨es, hinv, hblocks⟩ := h.run
  have hpairwise := hinv.carved.pairwise
  rwa [hblocks, List.pairwise_map] at hpairwise

theorem freePage_congr {s : Boot} (hs : s.Inv) (hm : ∀ c, s.BitmapByte c → m' c = s.mem c) (p : Nat) :
    Boot.FreePage { s with mem := m' } p ↔ s.FreePage p := by
  refine and_congr_right fun hp => ?_
  rw [reserved_of_mem hm hs.node.pages_le.1 hp]

theorem availAddr_congr {s : Boot} (hs : s.Inv) (hm : ∀ c, s.BitmapByte c → m' c = s.mem c) :
    Boot.availAddr { s with mem := m' } = s.availAddr := by
  have havail : Boot.avail { s with mem := m' } = s.avail := by
    ext x
    exact or_congr (freePage_congr hs hm (x / 4096)) Iff.rfl
  rw [Boot.availAddr, havail]
  rfl

/-- Writes into the blocks do not reach the bitmap. -/
theorem OwnsSince.write (hs : s₁.Inv) (h : OwnsSince s₁ m bdata blocks)
    (hm : ∀ b, (∀ block ∈ blocks, ¬ InBlock block b) → m' b = m b) : OwnsSince s₁ m' bdata blocks := by
  obtain ⟨⟨es, hinv, hblocks⟩, hstart, hpages⟩ := h
  have hmap : ∀ c, Boot.BitmapByte ⟨m, bdata⟩ c → m' c = m c := fun c hbyte => by
    refine hm c fun block hblock hin => hinv.not_bitmapByte hs (b := byteSet block.1 block.2) ?_ hin hbyte
    rw [hblocks]
    exact List.mem_map_of_mem hblock
  have hboot : (⟨m', bdata⟩ : Boot) = { (⟨m, bdata⟩ : Boot) with mem := m' } := rfl
  refine ⟨⟨es, ⟨hinv.node, hinv.inv.of_mem hmap, ?_⟩, hblocks⟩, fun hnil => ?_, ?_⟩
  · rw [hboot, availAddr_congr hinv.inv hmap]
    exact hinv.carved
  · have hsame : m' = m := funext fun b => hm b fun block hblock => by
      rw [hnil] at hblock
      cases hblock
    rw [hsame]
    exact hstart hnil
  · rw [hboot, freePages_of_mem hinv.inv hmap]
    exact hpages

end

/-! ### Room for the blocks -/

section

variable {s₁ : Boot} {m : Mem 32} {bdata : BootmemData} {size low : Word} {i : Nat}

end

/-! ### After `setup_memory` -/

section

variable {intervals : List (Nat × Nat)} {interval : Nat × Nat} {lo hi : Nat} {σ : Type} {s : Kernel σ}

theorem Tiles.lo_le : ∀ {intervals : List (Nat × Nat)} {lo hi : Nat}, Tiles intervals lo hi → lo ≤ hi
  | [], _, _, h => Nat.le_of_eq h
  | _ :: _, _, _, h => (Nat.le_add_right _ _).trans h.2.lo_le

/-- No interval goes past the end. -/
theorem Tiles.le_hi (h : Tiles intervals lo hi) (hmem : interval ∈ intervals) : interval.1 + interval.2 ≤ hi := by
  induction intervals generalizing lo with
  | nil => cases hmem
  | cons first rest ih =>
      obtain ⟨hfirst, hrest⟩ := h
      rcases List.mem_cons.mp hmem with rfl | hmem
      · rw [hfirst]
        exact hrest.lo_le
      · exact ih hrest hmem

theorem mem_zoneIntervals {n j : Nat} (hj : j < n) (hsize : (s.zone j).size ≠ 0) :
    ((s.zone j).zoneStartMapnr.toNat, (s.zone j).size.toNat) ∈ zoneIntervals s n := by
  induction n with
  | zero => exact absurd hj (Nat.not_lt_zero j)
  | succ n ih =>
      rw [zoneIntervals]
      rcases Nat.lt_succ_iff_lt_or_eq.mp hj with hlt | rfl
      · split
        · exact ih hlt
        · exact List.mem_append_left _ (ih hlt)
      · rw [if_neg hsize]
        exact List.mem_append_right _ List.mem_cons_self

/-- The pages of the zones are pages of the node. -/
theorem ZoneLayout.lt_low {alloc : NodeAllocator σ} {u : Kernel σ} {blocks : List (Word × Word)} {low : Word}
    (h : ZoneLayout alloc s u blocks low) {j l : Nat} (hj : j < maxNrZones)
    (hlo : (u.zone j).zoneStartMapnr.toNat ≤ l) (hhi : l < (u.zone j).zoneStartMapnr.toNat + (u.zone j).size.toNat) :
    l < low.toNat := by
  have hsize : (u.zone j).size ≠ 0 := fun hzero => by
    rw [hzero] at hhi
    exact absurd hlo (Nat.not_le.mpr hhi)
  exact hhi.trans_le (h.tiles.le_hi (mem_zoneIntervals hj hsize))

end

section

variable {s t : Boot} {e820 : List E820Entry} {kernelEnd pgDir : Word} {limits : PfnLimits}

end

end XosKernel.Zone
