import XosKernel.BootPageTable
import XosKernel.BootmemFirstFit
import XosKernel.SetupMemory

/-! What the kernel writes through the direct map before it loads its own page directory: the bitmap of the boot-time
allocator and the page tables that `pagetable_init` takes from it. The boot page table reaches the first
4 MB only; where the tables lie depends on which pages of low memory are free. -/

namespace XosKernel

/-- The loop of `Loop.forUntil` over calls that may not return. -/
def Outcome.forUntil {σ : Type} (stop : Nat → Bool) (body : Nat → σ → Outcome σ Unit) (i : Nat) :
    Nat → σ → Outcome σ Unit
  | 0, s => .ret () s
  | n + 1, s =>
      if stop i then .ret () s
      else
        match body i s with
        | .ret () s => forUntil stop body (i + 1) n s
        | .bug s => .bug s
        | .hang => .hang

/-- The state in which a call returns or stops at `BUG`. -/
def Outcome.final? {σ α : Type} : Outcome σ α → Option σ
  | .ret _ s => some s
  | .bug s => some s
  | .hang => none

/-- The rule of a loop whose passes keep `P` or stop at `BUG`. -/
theorem Outcome.forUntil_spec {σ : Type} (P : Nat → σ → Prop) (B : Nat → σ → Prop) (stop : Nat → Bool)
    (body : Nat → σ → Outcome σ Unit) : ∀ {n lo : Nat} {s : σ}, P lo s →
      (∀ i t, lo ≤ i → i < lo + n → stop i = false → P i t →
        (∃ u, body i t = .ret () u ∧ P (i + 1) u) ∨ ∃ u, body i t = .bug u ∧ B i u) →
      ∃ j t, lo ≤ j ∧ j ≤ lo + n ∧ (∀ i, lo ≤ i → i < j → stop i = false) ∧
        ((Outcome.forUntil stop body lo n s = .ret () t ∧ P j t ∧ (j < lo + n → stop j = true)) ∨
          (Outcome.forUntil stop body lo n s = .bug t ∧ B j t ∧ j < lo + n ∧ stop j = false))
  | 0, lo, s, hs, _ => ⟨lo, s, le_rfl, le_rfl, by omega, .inl ⟨rfl, hs, by omega⟩⟩
  | n + 1, lo, s, hs, hbody => by
      cases hstop : stop lo with
      | true =>
          exact ⟨lo, s, le_rfl, by omega, by omega, .inl ⟨by rw [Outcome.forUntil, if_pos hstop], hs, fun _ => hstop⟩⟩
      | false =>
          have hgo : ¬ stop lo = true := by rw [hstop]; exact Bool.false_ne_true
          rcases hbody lo s le_rfl (by omega) hstop hs with ⟨u, hu, hPu⟩ | ⟨u, hu, hBu⟩
          · obtain ⟨j, t, hlo, hhi, hbefore, hend⟩ :=
              Outcome.forUntil_spec (n := n) P B stop body hPu fun i t hi hin => hbody i t (by omega) (by omega)
            have hrun : Outcome.forUntil stop body lo (n + 1) s = Outcome.forUntil stop body (lo + 1) n u := by
              rw [Outcome.forUntil, if_neg hgo, hu]
            refine ⟨j, t, by omega, by omega, fun i hi hij => ?_, ?_⟩
            · rcases Nat.eq_or_lt_of_le hi with rfl | hlt
              · exact hstop
              · exact hbefore i hlt hij
            · rw [hrun, show lo + (n + 1) = lo + 1 + n by omega]
              exact hend
          · exact ⟨lo, u, le_rfl, by omega, by omega,
              .inr ⟨by rw [Outcome.forUntil, if_neg hgo, hu], hBu, by omega, hstop⟩⟩

namespace Paging

open Memory Bootmem BootmemData E820

/-- The allocator, and the page tables that were taken from it in the order of the calls. -/
structure Early where
  boot : Boot
  tables : List Word

namespace Early

/-- The body of the loop over `pmd`, with the allocator itself in the place of a source of pages. -/
def fillPmd (endAddr pmd : Word) (i j : Nat) (s : Early) : Outcome Early Unit :=
  match allocBootmemLowPages s.boot pageSize with
  | .ret pteBase boot =>
      let tables := s.tables ++ [pteBase]
      match fillTable endAddr pteBase i j { mem := boot.mem, calls := tables.length } with
      | some filled =>
          let mem := store32 filled.mem pmd (kernpgTable + virtToPhys pteBase)
          let s := { boot := { boot with mem := mem }, tables := tables }
          if pteBase ≠ pteOffset mem pmd 0 then .bug s else .ret () s
      | none => .bug { boot := boot, tables := tables }
  | .bug boot => .bug { s with boot := boot }
  | .hang => .hang

def fillPgd (endAddr pgd : Word) (i : Nat) (s : Early) : Outcome Early Unit :=
  let pmd := pgd
  if pmd ≠ pmdOffset pgd 0 then .bug s
  else
    Outcome.forUntil (fun j => pastEnd endAddr (vaddrOf i j 0)) (fun j => fillPmd endAddr (entry pmd j) i j) 0
      ptrsPerPmd s

/-- `pagetable_init` on the allocator that `setup_memory` leaves. -/
def pagetableInit (pgDir maxLowPfn : Word) (boot : Boot) : Outcome Early Unit :=
  let endAddr := physToVirt (maxLowPfn * pageSize)
  let start := (pgdOffset pageOffset).toNat
  Outcome.forUntil (fun i => pastEnd endAddr (vaddrOf i 0 0)) (fun i => fillPgd endAddr (entry pgDir i) i) start
    (ptrsPerPgd - start) { boot := boot, tables := [] }

end Early

/-- The bytes that are written through the direct map before `load_cr3`: the bitmap, which `init_bootmem` fills,
and the page tables that `pagetable_init` obtains. -/
def earlyWrites (s : Boot) (e820 : List E820Entry) (kernelEnd pgDir : Word) : Set Word :=
  {a | a ∈ byteSet (initNode s e820 kernelEnd).2.bdata.nodeBootmemMap (initNode s e820 kernelEnd).1 ∨
    ∃ limits t u, setupMemory s e820 kernelEnd = .ret limits t ∧
      (Early.pagetableInit pgDir limits.maxLowPfn t).final? = some u ∧ ∃ p ∈ u.tables, a ∈ byteSet p pageSize}

/-! ### Taking the tables -/

section

variable {t : Boot} {u : Early} {pgDir maxLowPfn : Word} {k : Nat}

/-- After `k` tables: they are the first free pages of `t`, and the others are still free. -/
structure Round (t : Boot) (k : Nat) (u : Early) : Prop where
  node : SameNode t.bdata u.boot.bdata
  inv : u.boot.Inv
  offset : u.boot.bdata.lastOffset = 0
  tables : ∃ ps, ps.length = k ∧ t.freePages = ps ++ u.boot.freePages ∧
    u.tables = ps.map fun p => t.bdata.va (p * 4096)

/-- The `BUG` of `__alloc_bootmem`: all free pages were taken. -/
structure Full (t : Boot) (k : Nat) (u : Early) : Prop where
  count : t.freePages.length = k
  tables : u.tables = t.freePages.map fun p => t.bdata.va (p * 4096)

/-- The directory is no part of the bitmap. -/
def DirApart (t : Boot) (pgDir : Word) : Prop := ∀ b, InPage pgDir b → ¬ t.BitmapByte b

theorem bitmapByte_sameNode {s t : Boot} (h : SameNode s.bdata t.bdata) {a : Word} :
    t.BitmapByte a ↔ s.BitmapByte a := by
  simp only [Boot.BitmapByte, h.pages_eq, h.map]

/-- Filling a page that was just taken and entering it into the directory leaves the bitmap. -/
theorem tookPage_keepsMap {s b : Boot} {p : Nat} {m : Mem 32} {v : Word} (hs : s.Inv) (h : TookPage s b p)
    (hdir : DirApart s pgDir) (hk : k < 1024) (hm : ∀ a, ¬ InPage (s.bdata.va (p * 4096)) a → m a = b.mem a) :
    ∀ a, b.BitmapByte a → store32 m (entry pgDir k) v a = b.mem a := by
  intro a ha
  rw [bitmapByte_sameNode h.placed.node] at ha
  have hfree : s.FreePage p := Boot.mem_freePages.mp (by rw [h.freePages]; exact List.mem_cons_self)
  have hpages := hs.node.pages_le.1
  have hlt := hfree.1
  have hout : ¬ InPage (s.bdata.va (p * 4096)) a := fun hin => by
    have hmem : a ∈ byteSet (s.bdata.va (p * 4096)) pageSize := hin
    have hsize : pageSize.toNat = 4096 := rfl
    obtain ⟨y, ⟨hlo, hhi⟩, rfl⟩ := (mem_byteSet_va (by omega)).mp hmem
    have hpage : y / 4096 = p := by omega
    exact hs.bitmap y (.inl (by rw [hpage]; exact hfree)) ha
  rw [store32_entry_apply hk fun hin => hdir a hin ha, hm a hout]

theorem fillPmd_ret {endAddr pmd p : Word} {i j : Nat} {b : Boot} {w : State}
    (hret : allocBootmemLowPages u.boot pageSize = .ret p b)
    (hfill : fillTable endAddr p i j { mem := b.mem, calls := (u.tables ++ [p]).length } = some w)
    (hback : pteOffset (store32 w.mem pmd (kernpgTable + virtToPhys p)) pmd 0 = p) :
    Early.fillPmd endAddr pmd i j u = .ret ()
      { boot := { b with mem := store32 w.mem pmd (kernpgTable + virtToPhys p) }, tables := u.tables ++ [p] } := by
  simp only [Early.fillPmd, hret, hfill, hback, ne_eq, not_true_eq_false, if_false]

/-- One round takes the first free page, or stops because there is none. -/
theorem fillPmd_round (hmax : maxLowPfn.toNat ≤ 0x38000) (hstart : t.bdata.nodeBootStart = 0)
    (hpages : t.bdata.pages ≤ 0x38000) (hdir : DirApart t pgDir) (hk : k < 256) (hu : Round t k u) :
    (∃ v, Early.fillPmd (physToVirt (maxLowPfn * pageSize)) (entry pgDir (768 + k)) (768 + k) 0 u = .ret () v ∧
      Round t (k + 1) v) ∨
    ∃ v, Early.fillPmd (physToVirt (maxLowPfn * pageSize)) (entry pgDir (768 + k)) (768 + k) 0 u = .bug v ∧
      Full t k v := by
  obtain ⟨hnode, hinv, hoff, ps, hlen, hfree, htables⟩ := hu
  rcases allocBootmemLowPages_page hinv hoff (hnode.start.trans hstart) (hnode.pages_eq.trans_le hpages) with
    ⟨hnone, hbug⟩ | ⟨p, b, hret, htook⟩
  · rw [hnone, List.append_nil] at hfree
    refine .inr ⟨u, ?_, ⟨by rw [hfree, hlen], by rw [hfree, htables]⟩⟩
    rw [Early.fillPmd, hbug]
  · refine .inl ?_
    rw [hnode.va_eq] at hret
    have hdir' : DirApart u.boot pgDir := fun a ha => by
      rw [bitmapByte_sameNode hnode]
      exact hdir a ha
    have hclear : ∀ a, InPage (t.bdata.va (p * 4096)) a → b.mem a = 0 := fun a ha => by
      have hinside := htook.placed.inside
      rw [htook.placed.node.pages_eq, hnode.pages_eq] at hinside
      have hmem : a ∈ byteSet (t.bdata.va (p * 4096)) pageSize := ha
      have hsize : pageSize.toNat = 4096 := rfl
      obtain ⟨y, hy, rfl⟩ := (mem_byteSet_va (by omega)).mp hmem
      rw [← hnode.va_eq]
      exact htook.placed.cleared y hy
    obtain ⟨w, hfill, -, hframe, -⟩ := @fillTable_spec maxLowPfn
      { mem := b.mem, calls := (u.tables ++ [t.bdata.va (p * 4096)]).length } k hmax hk _ hclear
    have hmap := tookPage_keepsMap (v := kernpgTable + virtToPhys (t.bdata.va (p * 4096))) hinv htook hdir'
      (show 768 + k < 1024 by omega) (by rw [hnode.va_eq]; exact hframe)
    have hlt : p < t.bdata.pages := by
      have hp : u.boot.FreePage p := Boot.mem_freePages.mp (by rw [htook.freePages]; exact List.mem_cons_self)
      exact hnode.pages_eq ▸ hp.1
    have haligned : (t.bdata.va (p * 4096)).toNat % 4096 = 0 := by
      rw [toNat_va hstart (by omega)]
      omega
    have hback := pteOffset_pde haligned
      (load32_store32 w.mem (entry pgDir (768 + k)) (kernpgTable + virtToPhys (t.bdata.va (p * 4096))))
    obtain ⟨m, hm⟩ : ∃ m, store32 w.mem (entry pgDir (768 + k))
      (kernpgTable + virtToPhys (t.bdata.va (p * 4096))) = m := ⟨_, rfl⟩
    rw [hm] at hmap hback
    refine ⟨{ boot := { b with mem := m }, tables := u.tables ++ [t.bdata.va (p * 4096)] }, ?_,
      hnode.trans htook.placed.node, htook.placed.inv.of_mem hmap, htook.offset, ps ++ [p], ?_, ?_, ?_⟩
    · rw [fillPmd_ret hret hfill (hm ▸ hback), hm]
    · rw [List.length_append, hlen, List.length_singleton]
    · show t.freePages = ps ++ [p] ++ Boot.freePages { b with mem := m }
      rw [freePages_of_mem htook.placed.inv hmap, hfree, htook.freePages, List.append_assoc, List.singleton_append]
    · rw [htables, List.map_append, List.map_singleton]

/-- There is one `pmd` in an entry of the directory. -/
theorem fillPgd_eq (hmax : maxLowPfn.toNat ≤ 0x38000) (hk : k < 256) (hlow : k * 1024 < maxLowPfn.toNat) (u : Early) :
    Early.fillPgd (physToVirt (maxLowPfn * pageSize)) (entry pgDir (768 + k)) (768 + k) u =
      Early.fillPmd (physToVirt (maxLowPfn * pageSize)) (entry pgDir (768 + k)) (768 + k) 0 u := by
  have hgo : pastEnd (physToVirt (maxLowPfn * pageSize)) (vaddrOf (768 + k) 0 0) = false := by
    rw [pastEnd_vaddrOf hmax hk (by decide)]
    simpa using hlow
  rw [Early.fillPgd, pmdOffset_eq, if_neg fun h => h (Eq.refl _), Outcome.forUntil, hgo,
    if_neg Bool.false_ne_true, entry_zero]
  cases Early.fillPmd (physToVirt (maxLowPfn * pageSize)) (entry pgDir (768 + k)) (768 + k) 0 u with
  | ret value v => rfl
  | bug v => rfl
  | hang => rfl

/-- The number of tables that map `maxLowPfn` pages. -/
def tableCount (maxLowPfn : Word) : Nat := (maxLowPfn.toNat + 1023) / 1024

/-- The rule of `pagetable_init`: the rounds keep `P` and go through the low memory, or one stops at `BUG`. -/
theorem pagetableInit_run (hmax : maxLowPfn.toNat ≤ 0x38000) {P B : Nat → Early → Prop}
    (hstart : P 0 { boot := t, tables := [] })
    (hround : ∀ k u, k < 256 → k * 1024 < maxLowPfn.toNat → P k u →
      (∃ v, Early.fillPmd (physToVirt (maxLowPfn * pageSize)) (entry pgDir (768 + k)) (768 + k) 0 u = .ret () v ∧
        P (k + 1) v) ∨
      ∃ v, Early.fillPmd (physToVirt (maxLowPfn * pageSize)) (entry pgDir (768 + k)) (768 + k) 0 u = .bug v ∧ B k v) :
    (∃ v, Early.pagetableInit pgDir maxLowPfn t = .ret () v ∧ P (tableCount maxLowPfn) v) ∨
      ∃ k v, Early.pagetableInit pgDir maxLowPfn t = .bug v ∧ B k v ∧ k < tableCount maxLowPfn := by
  have hfirst : (pgdOffset pageOffset).toNat = 768 := by decide
  have hlast : ptrsPerPgd - 768 = 256 := by decide
  have hstop (k : Nat) (hk : k < 256) :
      pastEnd (physToVirt (maxLowPfn * pageSize)) (vaddrOf (768 + k) 0 0) =
        decide (maxLowPfn.toNat ≤ k * 1024) := by
    rw [pastEnd_vaddrOf hmax hk (by decide), Nat.add_zero]
  have hfrom : P (768 - 768) { boot := t, tables := [] } := hstart
  obtain ⟨j, v, hlo, hhi, hbefore, hend⟩ := by
    refine Outcome.forUntil_spec (fun i u => P (i - 768) u) (fun i u => B (i - 768) u)
      (fun i => pastEnd (physToVirt (maxLowPfn * pageSize)) (vaddrOf i 0 0))
      (fun i => Early.fillPgd (physToVirt (maxLowPfn * pageSize)) (entry pgDir i) i)
      (n := ptrsPerPgd - 768) hfrom fun i u hlo hi hgo hu => ?_
    obtain ⟨k, rfl⟩ := Nat.exists_eq_add_of_le hlo
    have hk : k < 256 := by omega
    rw [hstop k hk, decide_eq_false_iff_not] at hgo
    rw [Nat.add_sub_cancel_left] at hu
    rw [fillPgd_eq hmax hk (by omega), Nat.add_assoc, Nat.add_sub_cancel_left, Nat.add_sub_cancel_left]
    exact hround k u hk (by omega) hu
  obtain ⟨k, rfl⟩ := Nat.exists_eq_add_of_le hlo
  rw [Nat.add_sub_cancel_left] at hend
  rw [Early.pagetableInit, hfirst]
  rcases hend with ⟨hret, hP, hpast⟩ | ⟨hbug, hB, hlt, hgo⟩
  · have hcover : maxLowPfn.toNat ≤ k * 1024 := by
      by_cases hk : k < 256
      · have hpast := hpast (by omega)
        rw [hstop k hk] at hpast
        simpa using hpast
      · omega
    -- every round before the end had pages left to map
    have hneed : k = 0 ∨ (k - 1) * 1024 < maxLowPfn.toNat := by
      rcases Nat.eq_zero_or_pos k with hzero | hpos
      · exact .inl hzero
      · have hgo := hbefore (768 + (k - 1)) (by omega) (by omega)
        rw [hstop (k - 1) (by omega), decide_eq_false_iff_not] at hgo
        exact .inr (by omega)
    have hcount : tableCount maxLowPfn = k := by
      rw [tableCount]
      omega
    exact .inl ⟨v, hret, hcount ▸ hP⟩
  · rw [hstop k (by omega), decide_eq_false_iff_not] at hgo
    exact .inr ⟨k, v, hbug, hB, by rw [tableCount]; omega⟩

/-- **The tables that `pagetable_init` obtains** are the first free pages, as many as it needs or as there are. -/
theorem pagetableInit_tables (hmax : maxLowPfn.toNat ≤ 0x38000) (hinv : t.Inv) (hoff : t.bdata.lastOffset = 0)
    (hstart : t.bdata.nodeBootStart = 0) (hpages : t.bdata.pages ≤ 0x38000) (hdir : DirApart t pgDir) :
    ∃ v, (Early.pagetableInit pgDir maxLowPfn t).final? = some v ∧
      v.tables = (t.freePages.take (tableCount maxLowPfn)).map fun p => t.bdata.va (p * 4096) := by
  rcases pagetableInit_run (P := Round t) (B := Full t) hmax ⟨.refl _, hinv, hoff, [], rfl, rfl, rfl⟩
    fun k u hk _ hu => fillPmd_round hmax hstart hpages hdir hk hu with
    ⟨v, hret, hround⟩ | ⟨k, v, hbug, hfull, hlt⟩
  · obtain ⟨ps, hlen, hfree, htables⟩ := hround.tables
    exact ⟨v, by rw [hret]; rfl, by rw [htables, hfree, ← hlen, List.take_left]⟩
  · refine ⟨v, by rw [hbug]; rfl, ?_⟩
    rw [hfull.tables, List.take_of_length_le (by rw [hfull.count]; omega)]

end

/-! ### After `setup_memory` -/

section

variable {s t : Boot} {e820 : List E820Entry} {kernelEnd pgDir : Word} {limits : PfnLimits}

/-- The size of the bitmap in bytes. -/
def bootmapBytes (e820 : List E820Entry) : Nat := (((findMaxLowPfn (findMaxPfn e820)).toNat + 8) / 8 + 3) / 4 * 4

/-- A page of low memory that is left for the page tables: a RAM page that is neither page 0 nor a page of the
kernel or the bitmap. -/
def SparePage (e820 : List E820Entry) (kernelEnd : Word) (p : Nat) : Prop :=
  p < (findMaxLowPfn (findMaxPfn e820)).toNat ∧ RamPage e820 p ∧ p ≠ 0 ∧
    ¬ (256 ≤ p ∧ p * 4096 < (pfnUp (virtToPhys kernelEnd)).toNat * 4096 + bootmapBytes e820 + 4095)

instance (e820 : List E820Entry) (kernelEnd : Word) (p : Nat) : Decidable (SparePage e820 kernelEnd p) :=
  inferInstanceAs (Decidable (_ ∧ _ ∧ _ ∧ _))

/-- The bitmap ends below 4 MB, and either enough spare pages lie below 4 MB for all tables or no spare page lies
above. -/
structure FitsBootMapping (e820 : List E820Entry) (kernelEnd : Word) : Prop where
  bitmap : (pfnUp (virtToPhys kernelEnd)).toNat * 4096 + bootmapBytes e820 ≤ 0x400000
  tables : tableCount (findMaxLowPfn (findMaxPfn e820)) ≤
      ((List.range 1024).countP fun p => SparePage e820 kernelEnd p) ∨
    ∀ p, SparePage e820 kernelEnd p → p < 1024

theorem maxLow_le (e820 : List E820Entry) : (findMaxLowPfn (findMaxPfn e820)).toNat ≤ 0x38000 := by
  rw [toNat_findMaxLowPfn]
  exact Nat.min_le_right _ _

theorem initNode_mapsize (s : Boot) (e820 : List E820Entry) (kernelEnd : Word) :
    (initNode s e820 kernelEnd).1.toNat = bootmapBytes e820 := by
  have hmax := maxLow_le e820
  have hzero : (0 : Word).toNat = 0 := rfl
  rw [initNode, initBootmemCore_mapsize (by rw [hzero]; omega) (by omega), hzero, Nat.sub_zero, bootmapBytes]

/-- After `setup_memory` no free page holds a part of the bitmap. -/
theorem setupLeaves_inv (h : SetupLeaves s e820 kernelEnd limits t) (hcursor : s.bdata.lastOffset = 0)
    (hhigh : highMemory ≤ virtToPhys kernelEnd) : t.Inv ∧ t.bdata.lastOffset = 0 := by
  have hmax := maxLow_le e820
  have hzero : (0 : Word).toNat = 0 := rfl
  have hoff : t.bdata.lastOffset = 0 := by
    rw [h.bdata]
    exact hcursor
  have hnotail : ∀ p, ¬ t.TailPage p := fun p hp => hp.1 hoff
  refine ⟨⟨?_, ?_, fun p hp => absurd hp (hnotail p), fun x hx hbyte => ?_⟩, hoff⟩
  · rw [h.bdata]
    exact initBootmemCore_nodeOk (by decide) (by rw [hzero]; omega) (by omega)
  · rw [hoff]
    decide
  · refine h.holdsMap hhigh ⟨x, rfl, ?_⟩ (hx.resolve_right (hnotail _))
    rw [Boot.BitmapByte, h.bdata] at hbyte
    rw [h.bdata]
    exact initBootmemCore_bitmapByte (by decide) (by rw [hzero]; omega) (by omega) hbyte

/-- The page directory lies in the image of the kernel, so below the bitmap. -/
theorem setupLeaves_dirBelow (h : SetupLeaves s e820 kernelEnd limits t)
    (hdir : (virtToPhys pgDir).toNat + 4096 ≤ (virtToPhys kernelEnd).toNat) {b : Word} (hb : InPage pgDir b) :
    ¬ (b - t.bdata.nodeBootmemMap).toNat < (initNode s e820 kernelEnd).1.toNat := by
  intro hin
  have hmax := maxLow_le e820
  have hend := h.reserveEnd
  have hfits := h.fits
  have hpfn := h.startPfn
  have hphys : (virtToPhys b).toNat < (virtToPhys pgDir).toNat + 4096 := by
    have hoff := toNat_pageOffset_word
    rw [InPage, BitVec.toNat_sub] at hb
    rw [virtToPhys, BitVec.toNat_sub, hoff] at hdir ⊢
    have := (virtToPhys kernelEnd).isLt
    have := b.isLt
    have := pgDir.isLt
    rw [virtToPhys, BitVec.toNat_sub, hoff]
    omega
  have hva : b = t.bdata.va (virtToPhys b).toNat := by
    have hstart : t.bdata.nodeBootStart = 0 := by rw [h.bdata]; exact initNode_start
    have hback : (0 : Word) + virtToPhys b = virtToPhys b := BitVec.zero_add _
    rw [va, hstart, BitVec.ofNat_toNat, BitVec.setWidth_eq, hback, physToVirt_virtToPhys]
  have hmap : t.bdata.nodeBootmemMap = t.bdata.va ((pfnUp (virtToPhys kernelEnd)).toNat * 4096) := by
    rw [h.bdata]
    exact initNode_map
  rw [hva, hmap, va_toNat_sub_of_lt (by omega) (by omega)] at hin
  omega

/-- The bitmap lies in the bytes that `init_bootmem` fills. -/
theorem setupLeaves_bitmapByte (h : SetupLeaves s e820 kernelEnd limits t) {a : Word} (ha : t.BitmapByte a) :
    (a - t.bdata.nodeBootmemMap).toNat < (initNode s e820 kernelEnd).1.toNat := by
  have hmax := maxLow_le e820
  have hzero : (0 : Word).toNat = 0 := rfl
  rw [Boot.BitmapByte, h.bdata] at ha
  rw [h.bdata]
  exact initBootmemCore_bitmapByte (by decide) (by rw [hzero]; omega) (by omega) ha

theorem setupLeaves_dirApart (h : SetupLeaves s e820 kernelEnd limits t)
    (hdir : (virtToPhys pgDir).toNat + 4096 ≤ (virtToPhys kernelEnd).toNat) : DirApart t pgDir :=
  fun _ hb hbyte => setupLeaves_dirBelow h hdir hb (setupLeaves_bitmapByte h hbyte)

/-- The free pages after `setup_memory`. -/
theorem setupLeaves_freePages (h : SetupLeaves s e820 kernelEnd limits t) :
    t.freePages = (List.range (findMaxLowPfn (findMaxPfn e820)).toNat).filter fun p => SparePage e820 kernelEnd p := by
  rw [Boot.freePages, h.pages]
  refine List.filter_congr fun p hp => ?_
  have hp := List.mem_range.mp hp
  have hiff := h.free_iff p hp
  rw [h.reserveEnd, initNode_mapsize] at hiff
  have hreserved : t.reserved p = false ↔ SparePage e820 kernelEnd p := by
    rw [SparePage, and_iff_right hp, ← hiff, Boot.FreePage, h.pages, and_iff_right hp]
  by_cases hspare : SparePage e820 kernelEnd p
  · rw [hreserved.mpr hspare, decide_eq_true hspare]
    rfl
  · have hset : t.reserved p = true := by
      by_contra hclear
      exact hspare (hreserved.mp (by simpa using hclear))
    rw [hset, decide_eq_false hspare]
    rfl

end

/-- The first elements of an ascending list are small exactly when there are enough small ones or no others. -/
theorem forall_take_lt_iff {l : List Nat} (hl : l.Pairwise (· < ·)) (n m : Nat) :
    (∀ p ∈ l.take n, p < m) ↔ n ≤ l.countP (· < m) ∨ ∀ p ∈ l, p < m := by
  induction l generalizing n with
  | nil => simp
  | cons a l ih =>
      obtain ⟨hhead, htail⟩ := List.pairwise_cons.mp hl
      cases n with
      | zero => simp
      | succ n =>
          rw [List.take_succ_cons, List.forall_mem_cons, List.forall_mem_cons]
          by_cases ha : a < m
          · rw [ih htail, List.countP_cons_of_pos (by simpa using ha), Nat.succ_le_succ_iff, and_iff_right ha,
              and_iff_right ha]
          · have hnone : (a :: l).countP (· < m) = 0 := by
              rw [List.countP_eq_zero]
              intro p hp
              rcases List.mem_cons.mp hp with rfl | hp
              · simpa using ha
              · have := hhead p hp
                simp
                omega
            rw [hnone]
            exact iff_of_false (fun h => ha h.1) fun h => h.elim (Nat.not_succ_le_zero n) fun h => ha h.1

/-- A filtered range does not depend on its end when all that the filter takes lies below. -/
theorem filter_range_congr {f : Nat → Bool} {a b : Nat} (hab : a ≤ b) (hf : ∀ p, f p = true → p < a) :
    (List.range b).filter f = (List.range a).filter f := by
  obtain ⟨k, rfl⟩ := Nat.exists_eq_add_of_le hab
  have hnone : ((List.range k).map (a + ·)).filter f = [] := by
    rw [List.filter_eq_nil_iff]
    intro p hp hfp
    obtain ⟨q, -, rfl⟩ := List.mem_map.mp hp
    have := hf _ hfp
    omega
  rw [List.range_add, List.filter_append, hnone, List.append_nil]

section

variable {s t : Boot} {e820 : List E820Entry} {kernelEnd pgDir : Word} {limits : PfnLimits}

/-- The tables lie below 4 MB exactly when the second half of the condition holds. -/
theorem tables_low_iff (h : SetupLeaves s e820 kernelEnd limits t) :
    (∀ p ∈ t.freePages.take (tableCount (findMaxLowPfn (findMaxPfn e820))), p < 1024) ↔
      tableCount (findMaxLowPfn (findMaxPfn e820)) ≤
        ((List.range 1024).countP fun p => SparePage e820 kernelEnd p) ∨
      ∀ p, SparePage e820 kernelEnd p → p < 1024 := by
  have hfree := setupLeaves_freePages h
  have hsorted : t.freePages.Pairwise (· < ·) := by
    rw [hfree]
    exact List.pairwise_lt_range.filter _
  have hcount : t.freePages.countP (· < 1024) = (List.range 1024).countP fun p => SparePage e820 kernelEnd p := by
    obtain ⟨n, hn⟩ : ∃ n, (findMaxLowPfn (findMaxPfn e820)).toNat = n := ⟨_, rfl⟩
    have hlow : ∀ p, SparePage e820 kernelEnd p → p < n := fun p hp => hn ▸ hp.1
    rw [hfree, hn, List.countP_eq_length_filter, List.countP_eq_length_filter, List.filter_filter]
    rcases Nat.le_total n 1024 with hle | hle
    · rw [filter_range_congr hle fun p hp => hlow p (by simpa using hp)]
      refine congrArg List.length (List.filter_congr fun p hp => ?_)
      have hp := List.mem_range.mp hp
      simp only [decide_eq_true (show p < 1024 by omega), Bool.true_and]
    · rw [filter_range_congr hle fun p hp => by simp at hp; exact hp.1]
      refine congrArg List.length (List.filter_congr fun p hp => ?_)
      simp only [decide_eq_true (List.mem_range.mp hp), Bool.true_and]
  have hall : (∀ p ∈ t.freePages, p < 1024) ↔ ∀ p, SparePage e820 kernelEnd p → p < 1024 := by
    refine forall_congr' fun p => imp_congr_left ?_
    rw [hfree, List.mem_filter, List.mem_range, decide_eq_true_eq]
    exact and_iff_right_of_imp fun hp => hp.1
  rw [forall_take_lt_iff hsorted, hcount, hall]

/-- A range of bytes of the node lies below a physical address exactly when its end does. -/
theorem byteSet_low_iff {b : BootmemData} (hstart : b.nodeBootStart = 0) {x : Nat} {size : Word} {limit : Nat}
    (hsize : 1 ≤ size.toNat) (hfit : x + size.toNat ≤ 0x40000000) :
    (∀ a ∈ byteSet (b.va x) size, (virtToPhys a).toNat < limit) ↔ x + size.toNat ≤ limit := by
  have hphys : ∀ y, y < 0x40000000 → (virtToPhys (b.va y)).toNat = y := fun y hy => by
    have hzero : (0 : Word).toNat = 0 := rfl
    rw [toNat_virtToPhys_va (by rw [hstart, hzero]; omega), hstart, hzero, Nat.zero_add]
  constructor
  · intro hlow
    have hlast := hlow (b.va (x + size.toNat - 1))
      ((mem_byteSet_va (by omega)).mpr ⟨_, ⟨by omega, by omega⟩, rfl⟩)
    rw [hphys _ (by omega)] at hlast
    omega
  · intro hle a ha
    obtain ⟨y, ⟨hlo, hhi⟩, rfl⟩ := (mem_byteSet_va (by omega)).mp ha
    rw [hphys y (by omega)]
    omega

/-- All that is written early lies below 4 MB exactly when the memory map leaves room there. -/
theorem earlyWrites_fits_iff (hcursor : s.bdata.lastOffset = 0) (hhigh : highMemory ≤ virtToPhys kernelEnd)
    (hdir : (virtToPhys pgDir).toNat + 4096 ≤ (virtToPhys kernelEnd).toNat)
    (hsetup : setupMemory s e820 kernelEnd = .ret limits t) :
    (∀ a ∈ earlyWrites s e820 kernelEnd pgDir, (virtToPhys a).toNat < 0x400000) ↔
      FitsBootMapping e820 kernelEnd := by
  have hleaves := setupMemory_leaves hsetup
  obtain ⟨hinv, hoff⟩ := setupLeaves_inv hleaves hcursor hhigh
  have hmax := maxLow_le e820
  have hlow : limits.maxLowPfn = findMaxLowPfn (findMaxPfn e820) := by rw [hleaves.limits_eq]
  have hstart : t.bdata.nodeBootStart = 0 := by
    rw [hleaves.bdata]
    exact initNode_start
  have hpages : t.bdata.pages ≤ 0x38000 := hleaves.pages.trans_le hmax
  obtain ⟨u, hfinal, htables⟩ := pagetableInit_tables
    (show limits.maxLowPfn.toNat ≤ 0x38000 by rw [hlow]; exact hmax) hinv hoff hstart hpages
    (setupLeaves_dirApart hleaves hdir)
  have hend := hleaves.reserveEnd
  have hfits := hleaves.fits
  have hmapsize := initNode_mapsize s e820 kernelEnd
  have hbitmap : (∀ a ∈ byteSet (initNode s e820 kernelEnd).2.bdata.nodeBootmemMap (initNode s e820 kernelEnd).1,
      (virtToPhys a).toNat < 0x400000) ↔
        (pfnUp (virtToPhys kernelEnd)).toNat * 4096 + bootmapBytes e820 ≤ 0x400000 := by
    rw [initNode_map, ← hmapsize]
    refine byteSet_low_iff initNode_start ?_ (by omega)
    rw [hmapsize, bootmapBytes]
    omega
  have hpage : ∀ p ∈ t.freePages.take (tableCount (findMaxLowPfn (findMaxPfn e820))),
      ((∀ a ∈ byteSet (t.bdata.va (p * 4096)) pageSize, (virtToPhys a).toNat < 0x400000) ↔ p < 1024) := fun p hp => by
    have hfree := (Boot.mem_freePages.mp (List.mem_of_mem_take hp)).1
    have hsize : pageSize.toNat = 4096 := rfl
    rw [byteSet_low_iff hstart (by decide) (by omega), hsize]
    omega
  constructor
  · intro hwrites
    refine ⟨hbitmap.mp fun a ha => hwrites a (.inl ha), (tables_low_iff hleaves).mp fun p hp => ?_⟩
    refine (hpage p hp).mp fun a ha => hwrites a (.inr ⟨limits, t, u, hsetup, hfinal, t.bdata.va (p * 4096), ?_, ha⟩)
    rw [htables, hlow]
    exact List.mem_map.mpr ⟨p, hp, rfl⟩
  · rintro ⟨hmapLow, hspare⟩ a (ha | ⟨limits', t', u', hsetup', hfinal', q, hq, ha⟩)
    · exact hbitmap.mpr hmapLow a ha
    · rw [hsetup] at hsetup'
      cases hsetup'
      rw [hfinal] at hfinal'
      cases hfinal'
      rw [htables, hlow] at hq
      obtain ⟨p, hp, rfl⟩ := List.mem_map.mp hq
      exact (hpage p hp).mpr ((tables_low_iff hleaves).mpr hspare p hp) a ha

/-- **Early writes**: the boot page table maps the direct map of the first 4 MB and no more, and all that the kernel
writes there before it loads its own directory lies in these 4 MB exactly when the bitmap ends below and the
spare pages are as `FitsBootMapping` says. -/
theorem earlyWrites_low_iff {m : Mem 32} {pgd pte : Word} (hpgd : pgd.toNat % 4096 = 0) (hpte : pte.toNat % 4096 = 0)
    (hne : pgd ≠ pte) (hcursor : s.bdata.lastOffset = 0) (hhigh : highMemory ≤ virtToPhys kernelEnd)
    (hdir : (virtToPhys pgDir).toNat + 4096 ≤ (virtToPhys kernelEnd).toNat)
    (hsetup : setupMemory s e820 kernelEnd = .ret limits t) :
    (∀ a, (∃ e, walk (pageCreate m pgd pte) (physToVirt pgd) a = some e ∧ e.phys = virtToPhys a) ↔
      (virtToPhys a).toNat < 0x400000) ∧
    ((∀ a ∈ earlyWrites s e820 kernelEnd pgDir, (virtToPhys a).toNat < 0x400000) ↔
      FitsBootMapping e820 kernelEnd) :=
  ⟨pageCreate_maps_iff hpgd hpte hne, earlyWrites_fits_iff hcursor hhigh hdir hsetup⟩

end

/-- A kernel at 1 MB with its bitmap behind it, and one page of RAM below. -/
theorem earlyWrites_low_two_pages : ∃ limits t,
    setupMemory bootStart [⟨0, 0x2000, e820Ram⟩, ⟨0x100000, 0x10000, e820Ram⟩] 0xC0102800 = .ret limits t ∧
      ∀ a ∈ earlyWrites bootStart [⟨0, 0x2000, e820Ram⟩, ⟨0x100000, 0x10000, e820Ram⟩] 0xC0102800 0xC0101000,
        (virtToPhys a).toNat < 0x400000 := by
  have hrun : (setupMemory bootStart [⟨0, 0x2000, e820Ram⟩, ⟨0x100000, 0x10000, e820Ram⟩] 0xC0102800).returns
      (fun _ => true) = true := by decide +kernel
  obtain ⟨limits, t, hret, -⟩ := Outcome.exists_of_returns hrun
  have hiff := (@earlyWrites_low_iff bootStart t [⟨0, 0x2000, e820Ram⟩, ⟨0x100000, 0x10000, e820Ram⟩] 0xC0102800
    0xC0101000 limits (fun _ => 0) 0x100000 0x101000 (by decide) (by decide) (by decide) rfl (by decide) (by decide)
    hret).2
  exact ⟨limits, t, hret, hiff.mpr ⟨by decide +kernel, .inl (by decide +kernel)⟩⟩

/-- The second table is taken at 4 MB: there is one spare page below. -/
theorem earlyWrites_second_table : ∃ limits t,
    setupMemory bootStart [⟨0, 0x2000, e820Ram⟩, ⟨0x100000, 0x4000, e820Ram⟩, ⟨0x400000, 0x4000, e820Ram⟩]
        0xC0102800 = .ret limits t ∧
      ¬ ∀ a ∈ earlyWrites bootStart
        [⟨0, 0x2000, e820Ram⟩, ⟨0x100000, 0x4000, e820Ram⟩, ⟨0x400000, 0x4000, e820Ram⟩] 0xC0102800 0xC0101000,
        (virtToPhys a).toNat < 0x400000 := by
  have hrun : (setupMemory bootStart
      [⟨0, 0x2000, e820Ram⟩, ⟨0x100000, 0x4000, e820Ram⟩, ⟨0x400000, 0x4000, e820Ram⟩] 0xC0102800).returns
      (fun _ => true) = true := by decide +kernel
  obtain ⟨limits, t, hret, -⟩ := Outcome.exists_of_returns hrun
  refine ⟨limits, t, hret, fun hlow => ?_⟩
  obtain ⟨-, hcount | hall⟩ := (@earlyWrites_fits_iff bootStart t
    [⟨0, 0x2000, e820Ram⟩, ⟨0x100000, 0x4000, e820Ram⟩, ⟨0x400000, 0x4000, e820Ram⟩] 0xC0102800 0xC0101000 limits rfl
    (by decide) (by decide) hret).mp hlow
  · exact absurd hcount (by decide +kernel)
  · exact absurd (hall 0x400 (by decide +kernel)) (by decide)

end Paging

end XosKernel
