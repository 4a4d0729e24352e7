import Mathlib.Data.List.GetD
import XosKernel.EarlyTables
import XosKernel.PagetableWalk

/-! `pagetable_init` on the pages that `setup_memory` leaves. The free pages from the first on are a source of page
tables; with them the kernel maps the low memory, or it stops at `BUG` because there are too few. -/

namespace XosKernel.Paging

open Memory Bootmem BootmemData E820

section

variable {t : Boot} {u v : Early} {pgDir maxLowPfn : Word} {k : Nat}

/-- The directory and the node that `pagetable_init` works on: the directory is part of neither the bitmap nor a free
page. -/
structure DirOutside (t : Boot) (pgDir : Word) : Prop where
  start : t.bdata.nodeBootStart = 0
  pages : t.bdata.pages ≤ 0x38000
  aligned : pgDir.toNat % 4096 = 0
  apart : DirApart t pgDir
  taken : ∀ p ∈ t.freePages, t.bdata.va (p * 4096) ≠ pgDir

/-- The virtual address of the free page `n`. -/
def freeVa (t : Boot) (n : Nat) : Word := t.bdata.va (t.freePages.getD n 0 * 4096)

theorem getD_mem_freePages {n : Nat} (hn : n < t.freePages.length) : t.freePages.getD n 0 ∈ t.freePages := by
  rw [List.getD_eq_getElem _ _ hn]
  exact List.getElem_mem hn

namespace DirOutside

variable (h : DirOutside t pgDir)
include h

end DirOutside

/-- A byte of a free page is no byte of the bitmap. -/
theorem DirOutside.not_bitmapByte (h : DirOutside t pgDir) (hinv : t.Inv) {n : Nat} (hn : n < t.freePages.length)
    {a : Word} (ha : InPage (freeVa t n) a) : ¬ t.BitmapByte a := by
  intro hbyte
  have hfree := Boot.mem_freePages.mp (getD_mem_freePages hn)
  have hpages := h.pages
  have hin : a ∈ byteSet (t.bdata.va (t.freePages.getD n 0 * 4096)) pageSize := ha
  have hsize : pageSize.toNat = 4096 := rfl
  have hlt := hfree.1
  obtain ⟨y, ⟨hlo, hhi⟩, rfl⟩ := (mem_byteSet_va (by omega)).mp hin
  have hpage : y / 4096 = t.freePages.getD n 0 := by omega
  exact hinv.bitmap y (.inl (by rw [hpage]; exact hfree)) hbyte

/-- The pages that were taken, once all tables are there. -/
theorem Round.taken (hv : Round t k v) :
    k ≤ t.freePages.length ∧ v.boot.freePages = t.freePages.drop k ∧
      v.tables = (t.freePages.take k).map fun p => t.bdata.va (p * 4096) := by
  obtain ⟨ps, hlen, hfree, htables⟩ := hv.tables
  rw [htables, hfree, List.length_append, ← hlen, List.drop_left, List.take_left]
  exact ⟨Nat.le_add_right _ _, rfl, rfl⟩

end

/-! ### After `setup_memory` -/

section

variable {s t : Boot} {e820 : List E820Entry} {kernelEnd pgDir : Word} {limits : PfnLimits}

/-- From `s` to `t` only the bitmap is written. -/
structure WritesMap (s t : Boot) : Prop where
  bdata : t.bdata = s.bdata
  frame : ∀ a, ¬ s.BitmapByte a → t.mem a = s.mem a

theorem WritesMap.trans {u : Boot} (hst : WritesMap s t) (htu : WritesMap t u) : WritesMap s u := by
  refine ⟨htu.bdata.trans hst.bdata, fun a ha => ?_⟩
  rw [htu.frame a (by rwa [Boot.BitmapByte, hst.bdata]), hst.frame a ha]

end

end XosKernel.Paging
