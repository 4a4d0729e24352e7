import XosKernel.BootmemRun
import XosKernel.BootmemSearch

/-! Single pages from a node that starts at address 0 and whose last block ended at the end of a page. The scan
then stops at the first free page, so the pages are handed out in ascending order: one call of
`__alloc_bootmem_core` takes the head of the list of the free pages. -/

namespace XosKernel.Bootmem

open Memory BootmemData

/-- What a caller makes of the pointer that `__alloc_bootmem_core` returns: `BUG` when it is `NULL`. -/
def orBug : Outcome Boot (Option Word) → Outcome Boot Word
  | .ret (some ptr) s => if ptr ≠ 0 then .ret ptr s else .bug s
  | .ret none s => .bug s
  | .bug s => .bug s
  | .hang => .hang

/-- `__alloc_bootmem`, with the one node on the list of the nodes. -/
def allocBootmem (s : Boot) (size align goal : Word) : Outcome Boot Word := orBug (allocBootmemCore s size align goal)

/-- `alloc_bootmem_low_pages`. -/
def allocBootmemLowPages (s : Boot) (x : Word) : Outcome Boot Word := allocBootmem s x pageSize 0

/-- The free pages in ascending order. -/
def Boot.freePages (s : Boot) : List Nat := (List.range s.bdata.pages).filter fun p => !s.reserved p

theorem Boot.mem_freePages {s : Boot} {p : Nat} : p ∈ s.freePages ↔ s.FreePage p := by
  simp [Boot.freePages, Boot.FreePage]

/-- Taking the first element of a filtered range out of it. -/
theorem filter_range_cons {n p : Nat} {f g : Nat → Bool} (hp : p < n) (hf : f p = true)
    (hbelow : ∀ q < p, f q = false) (hg : ∀ q < n, g q = (f q && q != p)) :
    (List.range n).filter f = p :: (List.range n).filter g := by
  obtain ⟨k, rfl⟩ := Nat.exists_eq_add_of_lt hp
  have hsplit : List.range (p + k + 1) = List.range p ++ p :: (List.range k).map (p + 1 + ·) := by
    rw [Nat.add_assoc, List.range_add, List.range_succ_eq_map, List.map_cons, List.map_map, Nat.add_zero]
    congr 2
    exact List.map_congr_left fun q _ => by simp only [Function.comp_apply]; omega
  have hnone (h : Nat → Bool) (hh : ∀ q < p, h q = false) : (List.range p).filter h = [] := by
    rw [List.filter_eq_nil_iff]
    intro q hq
    rw [hh q (List.mem_range.mp hq)]
    exact Bool.false_ne_true
  have hgp : ¬ g p = true := by rw [hg p hp]; simp
  rw [hsplit, List.filter_append, List.filter_append, hnone f hbelow,
    hnone g fun q hq => by rw [hg q (by omega), hbelow q hq, Bool.false_and], List.filter_cons_of_pos hf,
    List.filter_cons_of_neg hgp, List.nil_append, List.nil_append]
  congr 1
  refine List.filter_congr fun q hq => ?_
  obtain ⟨i, hi, rfl⟩ := List.mem_map.mp hq
  have hi := List.mem_range.mp hi
  have hne : (p + 1 + i != p) = true := by simp; omega
  rw [hg _ (by omega), hne, Bool.and_true]

section

variable {s t : Boot}

/-- What the scan for one page answers. -/
inductive FirstFit (s : Boot) : Option Word → Prop
  | full (hnone : ∀ p, ¬ s.FreePage p) : FirstFit s none
  | page (start : Word) (hfree : s.FreePage start.toNat) (hbelow : ∀ q < start.toNat, ¬ s.FreePage q) :
      FirstFit s (some start)

/-- A scan for one page would take the free pages. -/
theorem candidate_iff_freePage {eidx i : Word} (heidx : eidx.toNat = s.bdata.pages) :
    Candidate s eidx 1 1 0 i ↔ s.FreePage i.toNat := by
  have hfits : s.fits eidx 1 i = !s.reserved i.toNat := by
    rw [Boot.fits, passes, Nat.sub_self, restFree, Bool.and_true, Boot.testBit_eq, reserved_toNat]
  constructor
  · intro h
    have haccept := h.fits
    rw [hfits, Bool.not_eq_true'] at haccept
    exact ⟨heidx ▸ BitVec.lt_def.mp h.lt, haccept⟩
  · intro h
    refine ⟨(Loop.onWay_zero 1 i).mpr (one_dvd _), BitVec.lt_def.mpr (heidx ▸ h.1), ?_⟩
    rw [hfits, h.2]
    rfl

/-- The answers of the scan for one page from page 0 on. -/
theorem scanFrom_firstFit {eidx : Word} (heidx : eidx.toNat = s.bdata.pages) :
    ∃ r, scanFrom s eidx 1 1 0 = some r ∧ FirstFit s r := by
  have hcand (q : Nat) (hq : s.FreePage q) : Candidate s eidx 1 1 0 (BitVec.ofNat 32 q) := by
    have hvalue : (BitVec.ofNat 32 q : Word).toNat = q := by
      have hlt := hq.1
      rw [BitVec.toNat_ofNat]
      omega
    rw [candidate_iff_freePage heidx, hvalue]
    exact hq
  have hspec := @scanFrom_spec s eidx 1 1 0 0 Nat.one_pos (one_dvd _) (Loop.onWay_self 1 0)
  generalize scanFrom s eidx 1 1 0 = r at hspec
  cases hspec with
  | found start hchosen =>
      have hleast : IsLeast {i | Candidate s eidx 1 1 0 i} start := by
        rcases hchosen with hfrom | ⟨-, hfirst⟩
        · exact ⟨hfrom.1.1, fun i hi => hfrom.2 ⟨hi, BitVec.le_def.mpr (Nat.zero_le _)⟩⟩
        · exact hfirst
      refine ⟨some start, rfl, .page start ((candidate_iff_freePage heidx).mp hleast.1) fun q hq hfree => ?_⟩
      have hle := BitVec.le_def.mp (hleast.2 (hcand q hfree))
      have hpages := hfree.1
      rw [BitVec.toNat_ofNat] at hle
      omega
  | missed hnone _ =>
      exact ⟨none, rfl, .full fun q hq => BitVec.not_lt_zero (hnone _ (hcand q hq))⟩
  | hang _ hend =>
      exact absurd ⟨eidx, (Loop.onWay_zero 1 eidx).mpr (one_dvd _), BitVec.le_refl _⟩ hend

/-- A scan that starts at page 0 does not start again. -/
theorem scan_of_scanFrom {eidx areasize incr offset : Word} {r : Option Word}
    (h : scanFrom s eidx areasize incr 0 = some r) : scan s eidx areasize incr offset 0 = some r := by
  have hfuel : wordCount = 4294967295 + 1 := rfl
  rw [scan, hfuel, Loop.run_succ_done (r := some r)]
  · rfl
  · simp only [h]
    cases r with
    | none => rfl
    | some start => rfl

/-- The page `p` was allocated: it was the first free page. -/
structure TookPage (s t : Boot) (p : Nat) : Prop where
  placed : Placed s t (p * 4096) 4096
  offset : t.bdata.lastOffset = 0
  freePages : s.freePages = p :: t.freePages

/-- **First fit of single pages**: there is no free page and the call returns `NULL`, or it returns the first one. -/
theorem allocBootmemCore_page (hs : s.Inv) (hoff : s.bdata.lastOffset = 0) (hstart : s.bdata.nodeBootStart = 0) :
    (s.freePages = [] ∧ allocBootmemCore s pageSize pageSize 0 = .ret none s) ∨
      ∃ p t, allocBootmemCore s pageSize pageSize 0 = .ret (some (s.bdata.va (p * 4096))) t ∧ TookPage s t p := by
  have heidx := hs.node.toNat_eidx
  obtain ⟨hpages, -⟩ := hs.node.pages_le
  obtain ⟨eidx, heidxdef⟩ : ∃ eidx, s.bdata.nodeLowPfn - s.bdata.nodeBootStart >>> pageShift = eidx := ⟨_, rfl⟩
  have hgrid : gridOffset s.bdata pageSize >>> pageShift = 0 := by
    have hlow : (0 : Word) &&& (pageSize - 1) = 0 := by decide
    rw [gridOffset, hstart, hlow, if_neg fun h => h.2 rfl]
    decide
  have hpreferred : ((preferredByte s.bdata 0 + pageSize - 1) &&& ~~~(pageSize - 1)) >>> pageShift + (0 : Word) = 0 := by
    rw [preferredByte, if_neg fun h => h.1 rfl]
    decide
  have hstride : stride pageSize = 1 := by decide
  have hcount : (pageSize + pageSize - 1) / pageSize = 1 := by decide
  have hone : (1 : Word).toNat = 1 := rfl
  have hsize : pageSize.toNat = 4096 := rfl
  obtain ⟨r, hscan, hfirst⟩ := scanFrom_firstFit (s := s) (heidxdef ▸ heidx)
  rw [heidxdef] at heidx
  rw [allocBootmemCore_eq 0 (by decide) (by decide), heidxdef, hgrid, hpreferred, hstride, hcount,
    scan_of_scanFrom hscan]
  cases hfirst with
  | full hnone =>
      refine .inl ⟨List.eq_nil_iff_forall_not_mem.mpr fun p hp => hnone p (Boot.mem_freePages.mp hp), rfl⟩
  | page start hfree hbelow =>
      refine .inr ?_
      have hlt := hfree.1
      have hplace : placeBlock s pageSize pageSize eidx 1 start =
          reserveArea { s with bdata := { s.bdata with lastPos := start + 1 - 1, lastOffset := 0 } } start 1
            (s.bdata.va (start.toNat * 4096)) pageSize := by
        rw [placeBlock, if_neg (by rw [ge_iff_le, BitVec.le_def]; omega), if_neg fun h => h.2.1 hoff]
        simp only [va_pageStart]
        rfl
      have harea : Area s start 1 (start.toNat * 4096) pageSize.toNat := by
        refine ⟨by omega, by omega, fun nr h1 h2 => ?_⟩
        have hnr : nr = start := BitVec.eq_of_toNat_eq (by omega)
        rw [hnr, ← reserved_toNat]
        exact hfree.2
      obtain ⟨t, ht, hput⟩ := reserveArea_put (b := { s.bdata with lastPos := start + 1 - 1, lastOffset := 0 })
        hs.safe ⟨rfl, rfl, rfl⟩ (.page rfl) harea ⟨by
          show 0 = (start.toNat * 4096 + pageSize.toNat) % 4096
          omega, fun hend => absurd (by omega) hend⟩
      refine ⟨start.toNat, t, hplace.trans ht, hput.placed hs (by decide), ?_, ?_⟩
      · apply BitVec.eq_of_toNat_eq
        rw [hput.taken.cursor.offset]
        show (start.toNat * 4096 + pageSize.toNat) % 4096 = 0
        omega
      · rw [Boot.freePages, Boot.freePages, hput.taken.node.pages_eq]
        refine filter_range_cons hlt (by rw [hfree.2]; rfl) (fun q hq => ?_) fun q hq => ?_
        · have hset : s.reserved q = true := by
            by_contra hclear
            exact hbelow q hq ⟨by omega, by simpa using hclear⟩
          rw [hset]
          rfl
        · rw [hput.taken.reserved q hq]
          by_cases hqs : q = start.toNat
          · rw [if_pos (by omega), hqs]
            simp
          · rw [if_neg (by omega)]
            simp [hqs]

theorem toNat_va {b : BootmemData} (hstart : b.nodeBootStart = 0) {x : Nat} (hx : x < 0x40000000) :
    (b.va x).toNat = 0xC0000000 + x := by
  have hoff : pageOffset.toNat = 0xC0000000 := rfl
  have hzero : (0 : Word) + BitVec.ofNat 32 x = BitVec.ofNat 32 x := BitVec.zero_add _
  rw [va, physToVirt, hstart, hzero, BitVec.toNat_add, BitVec.toNat_ofNat, hoff]
  omega

/-- No address of the direct map is `NULL`. -/
theorem va_ne_zero {b : BootmemData} (hstart : b.nodeBootStart = 0) {x : Nat} (hx : x < 0x40000000) : b.va x ≠ 0 := by
  have hva := toNat_va hstart hx
  have hzero : (0 : Word).toNat = 0 := rfl
  intro h
  rw [h, hzero] at hva
  omega

/-- `__alloc_bootmem` on the pages that the kernel maps: it stops at `BUG` when there is no free page. -/
theorem allocBootmemLowPages_page (hs : s.Inv) (hoff : s.bdata.lastOffset = 0) (hstart : s.bdata.nodeBootStart = 0)
    (hpages : s.bdata.pages ≤ 0x38000) :
    (s.freePages = [] ∧ allocBootmemLowPages s pageSize = .bug s) ∨
      ∃ p t, allocBootmemLowPages s pageSize = .ret (s.bdata.va (p * 4096)) t ∧ TookPage s t p := by
  rcases allocBootmemCore_page hs hoff hstart with ⟨hnone, hret⟩ | ⟨p, t, hret, htook⟩
  · exact .inl ⟨hnone, by rw [allocBootmemLowPages, allocBootmem, hret, orBug]⟩
  · refine .inr ⟨p, t, ?_, htook⟩
    have hp : s.FreePage p := Boot.mem_freePages.mp (by rw [htook.freePages]; exact List.mem_cons_self)
    have hlt := hp.1
    have hne := va_ne_zero hstart (x := p * 4096) (by omega)
    rw [allocBootmemLowPages, allocBootmem, hret, orBug]
    exact if_pos hne

/-! ### Writes outside the bitmap -/

section

variable {m : Mem 32}

theorem reserved_of_mem (hm : ∀ a, s.BitmapByte a → m a = s.mem a) (hpages : s.bdata.pages ≤ 2 ^ 20) {p : Nat}
    (hp : p < s.bdata.pages) : Boot.reserved { s with mem := m } p = s.reserved p := by
  have hbyte : s.BitmapByte (bitByte s.bdata.nodeBootmemMap (BitVec.ofNat 32 p)) := by
    refine ⟨BitVec.ofNat 32 p, ?_, rfl⟩
    rw [BitVec.toNat_ofNat, Nat.mod_eq_of_lt (by omega)]
    exact hp
  show (m (bitByte s.bdata.nodeBootmemMap (BitVec.ofNat 32 p))).getLsbD _ = _
  rw [hm _ hbyte]
  rfl

theorem Boot.Inv.of_mem (hs : s.Inv) (hm : ∀ a, s.BitmapByte a → m a = s.mem a) :
    Boot.Inv { s with mem := m } := by
  have hreserved := fun p => reserved_of_mem hm hs.node.pages_le.1 (p := p)
  refine ⟨hs.node, hs.offset_lt, fun p hp => ?_, fun x hx => ?_⟩
  · obtain ⟨hlt, hset⟩ := hs.tail p hp
    exact ⟨hlt, by rw [hreserved p hlt, hset]⟩
  · refine hs.bitmap x (hx.imp_left fun hfree => ⟨hfree.1, ?_⟩)
    rw [← hreserved _ hfree.1]
    exact hfree.2

theorem freePages_of_mem (hs : s.Inv) (hm : ∀ a, s.BitmapByte a → m a = s.mem a) :
    Boot.freePages { s with mem := m } = s.freePages := by
  refine List.filter_congr fun p hp => ?_
  rw [reserved_of_mem hm hs.node.pages_le.1 (List.mem_range.mp hp)]

end

end

end XosKernel.Bootmem
