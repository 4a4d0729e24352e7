import XosKernel.BootmemEnds
import XosKernel.BootmemReserve

/-! Consecutive blocks. A merge puts the new block behind the last one, into the page that the last one ended in, by
rounding the cursor up to the alignment. The mask of the rounding is empty for the alignment 0, which the checks let
through, and the new block then starts where that page starts. The merge does not look at the bit of its page either:
after a free of the page the block lies in a page that the next call takes again. -/

namespace XosKernel.Bootmem

open Memory Loop BootmemData Carving

/-- The page behind the cursor's is the one that the scan chooses, so that the block is merged. -/
def Boot.MergesNext (s : Boot) (size align goal : Word) : Prop :=
  s.Merges align (s.bdata.lastPos + 1) ∧ Chosen s s.bdata.eidx (areaSize size) (stride align) (s.bdata.offset align)
    (s.bdata.preferred align goal) (s.bdata.lastPos + 1)

/-- The calls that keep consecutive blocks apart: an allocation whose number of pages does not wrap, that is merged
only with an alignment and into a reserved page, and that finds the bitmap outside the pages it can take. -/
def Boot.KeepsBehind (s : Boot) : Call → Prop
  | .alloc size align goal => size.toNat + 4095 < 2 ^ 32 ∧
      (s.MergesNext size align goal → align ≠ 0 ∧ s.reserved s.bdata.lastPos.toNat = true) ∧
        ∀ x, s.FreePage (x / 4096) ∨ s.TailPage (x / 4096) → ¬ s.BitmapByte (s.bdata.va x)
  | _ => True

/-- The bytes of a block, as physical addresses. -/
def physBlock (a size : Word) : Set Nat := blockSet (virtToPhys a).toNat size.toNat

/-- Two blocks share a page. -/
def SharesPage (a size a' size' : Word) : Prop :=
  ∃ y ∈ physBlock a size, ∃ y' ∈ physBlock a' size', y / 4096 = y' / 4096

/-- Nothing of the block is freed. -/
def NotFreed (b : BootmemData) (es : List Event) (a size : Word) : Prop :=
  ∀ addr z r, (Call.free addr z, r) ∈ es → Disjoint (byteSet a size) (freedAddr b addr z)

/-- A block starts at or behind the end of the block before it when it shares a page with it, and the two are apart,
unless the first one was freed in between. -/
def ConsecutiveApart (b : BootmemData) (es : List Event) : Prop :=
  ∀ late mid early size align goal a size' align' goal' a',
    es = late ++ (.alloc size' align' goal', some a') :: (mid ++ (.alloc size align goal, some a) :: early) →
    blocks mid = [] → NotFreed b mid a size →
      (SharesPage a size a' size' → (virtToPhys a).toNat + size.toNat ≤ (virtToPhys a').toNat) ∧
        Disjoint (byteSet a size) (byteSet a' size')

/-! ### One call -/

section

variable {s t : Boot} {size align goal a : Word}

/-- The scan with the alignment 0, which takes every page from page 0 on, and with the others. -/
theorem scan_spec_of_checked (halign : align &&& (align - 1) = 0) (goal areasize : Word) :
    ScanSpec s s.bdata.eidx areasize (stride align) (s.bdata.offset align) (s.bdata.preferred align goal)
      (scan s s.bdata.eidx areasize (stride align) (s.bdata.offset align) (s.bdata.preferred align goal)) := by
  rcases align_cases halign with rfl | hpow
  · have hone : (stride 0).toNat = 1 := rfl
    have hoffset : s.bdata.offset 0 = 0 := by
      rw [offset, gridOffset, if_neg fun h => h.1 rfl]
      rfl
    refine scan_spec (by rw [hone]; exact Nat.one_dvd _) (by rw [hoffset]; exact Nat.one_pos) ?_
    rw [OnWay, hone]
    exact Nat.one_dvd _
  · exact scan_spec (stride_dvd hpow) (offset_lt_stride hpow) (onWay_preferred hpow goal)

theorem Chosen.candidate {eidx areasize incr offset preferred start : Word}
    (h : Chosen s eidx areasize incr offset preferred start) : Candidate s eidx areasize incr offset start := by
  rcases h with h | h
  · exact h.1.1
  · exact h.2.1

/-- The run of free pages that a candidate starts. -/
theorem Candidate.found {areasize incr offset start : Word} (hnode : s.bdata.NodeOk)
    (harea : areasize.toNat ≤ 2 ^ 20) (h : Candidate s s.bdata.eidx areasize incr offset start) :
    Found s s.bdata.eidx areasize (fun _ => True) start := by
  have heidx := hnode.toNat_eidx
  have hpages := hnode.pages_le.1
  have hlt := BitVec.lt_def.mp h.lt
  rw [BootmemData.eidx, heidx] at hlt
  obtain ⟨hclear, hrest⟩ := (fits_iff h.lt).mp h.fits
  refine ⟨trivial, h.lt, fun nr hlo hhi => ?_⟩
  rcases Nat.eq_or_lt_of_le hlo with heq | hmore
  · rw [← BitVec.eq_of_toNat_eq heq]
    exact ⟨h.lt, hclear⟩
  · refine hrest nr (BitVec.lt_def.mpr hmore) (BitVec.lt_def.mpr ?_)
    rwa [BitVec.toNat_add, Nat.mod_eq_of_lt (by omega)]

/-- Where a call puts its block: at a page of the area, or behind the last block in a reserved page. -/
theorem alloc_behind (hs : s.Safe) (hkeeps : s.KeepsBehind (.alloc size align goal))
    (hret : allocBootmemCore s size align goal = .ret (some a) t) :
    ∃ x start areasize, a = s.bdata.va x ∧ Put s t start areasize x size.toNat ∧
      (x < start.toNat * 4096 → s.reserved s.bdata.lastPos.toNat = true ∧
        s.bdata.lastPos.toNat * 4096 + s.bdata.lastOffset.toNat ≤ x) := by
  obtain ⟨hsize, halign⟩ := allocBootmemCore_checks hret
  obtain ⟨hwrap, hmerge, -⟩ := hkeeps
  by_cases hnext : s.MergesNext size align goal
  · obtain ⟨hne, hreserved⟩ := hmerge hnext
    have hput := allocBootmemCore_put goal hs hsize hwrap halign
    obtain ⟨r, hr⟩ : ∃ r, r = some a := ⟨_, rfl⟩
    rw [hret, ← hr] at hput
    cases hput with
    | null => cases hr
    | block x _ start areasize put behind _ =>
        have hbehind := behind hne
        exact ⟨x, start, areasize, (Option.some.inj hr).symm, put, fun h => ⟨hreserved, hbehind h⟩⟩
  · have hzero : size ≠ 0 := fun h => by
      rw [h] at hsize
      exact absurd hsize (by decide)
    have hscan := scan_spec_of_checked (s := s) halign goal (areaSize size)
    rw [allocBootmemCore_scan goal hzero halign] at hret
    generalize scan s s.bdata.eidx (areaSize size) (stride align) (s.bdata.offset align)
      (s.bdata.preferred align goal) = r at hscan hret
    cases hscan with
    | hang => cases hret
    | null => cases hret
    | found start hchosen =>
        have hcount : (areaSize size).toNat = (size.toNat + 4095) / 4096 := toNat_pageCount hwrap
        have hfound := hchosen.candidate.found hs.node (by omega)
        have hin := hfound.inside
        rw [BootmemData.eidx, hs.node.toNat_eidx] at hin
        have hmerges : ¬ s.Merges align start := fun h => hnext (by
          obtain rfl := h.2.2
          exact ⟨h, hchosen⟩)
        obtain ⟨u, hu, hput⟩ := placeBlock_page hs hsize hwrap hcount hin fun nr h1 h2 => (hfound.free nr h1 h2).2
        rw [Boot.Merges] at hmerges
        have hret : placeBlock s size align s.bdata.eidx (areaSize size) start = .ret (some a) t := hret
        rw [placeBlock, if_neg (BitVec.not_le.mpr hfound.lt)] at hret
        simp only [if_neg hmerges, hu] at hret
        obtain ⟨haddr, rfl⟩ := Outcome.ret.inj hret
        exact ⟨_, start, areaSize size, (Option.some.inj haddr).symm, hput, fun h => absurd h (Nat.lt_irrefl _)⟩

end

/-! ### The block before -/

/-- The last block, when its pages are still reserved: the cursor is at its end. -/
structure HeldBlock (s : Boot) (a size : Word) (x : Nat) : Prop where
  addr : a = s.bdata.va x
  inside : x + size.toNat ≤ s.bdata.pages * 4096
  cursor : CursorAt s.bdata (x + size.toNat)
  reserved : ∀ y ∈ blockSet x size.toNat, s.reserved (y / 4096) = true

section

variable {s t : Boot} {start areasize a size size' : Word} {x x' : Nat}

/-- Bits that are set, and bits of other pages that are cleared, leave the block. -/
theorem HeldBlock.written {lo hi : Nat} {value : Bool} (h : HeldBlock s a size x) (hnode : s.bdata.NodeOk)
    (hwritten : BitsWritten s t lo hi value)
    (hkeeps : value = false → ∀ y ∈ blockSet x size.toNat, ¬ (lo ≤ y / 4096 ∧ y / 4096 < hi)) :
    HeldBlock t a size x := by
  have hbdata := hwritten.bdata
  have hpages := hnode.pages_le.1
  have hinside := h.inside
  refine ⟨hbdata ▸ h.addr, hbdata ▸ h.inside, hbdata ▸ h.cursor, fun y hy => ?_⟩
  have hlt := hy.2
  rw [hwritten.reserved (by omega)]
  split
  · rename_i hin
    by_contra hclear
    exact hkeeps (by simpa using hclear) y hy hin
  · exact h.reserved y hy

/-- The new block becomes the last one. -/
theorem Put.held (hput : Put s t start areasize x size.toNat)
    (htail : x < start.toNat * 4096 → s.reserved s.bdata.lastPos.toNat = true) :
    HeldBlock t (s.bdata.va x) size x := by
  have hinside := hput.inside
  refine ⟨(hput.taken.node.va_eq x).symm, hinside, hput.taken.cursor, fun y hy => ?_⟩
  have hlt := hy.2
  rw [hput.taken.node.pages_eq] at hinside
  rw [hput.taken.reserved _ (by omega)]
  split
  · rfl
  · rename_i hout
    rcases hput.area.block_page hput.begins hy with hin | ⟨htailPage, hbefore⟩
    · exact absurd hin hout
    · rw [htailPage.2]
      have hlo := hy.1
      exact htail (by omega)

/-- A block that is put into a page of the last one starts at or behind its end. -/
theorem HeldBlock.le_start (h : HeldBlock s a size x) (hnode : s.bdata.NodeOk)
    (hput : Put s t start areasize x' size'.toNat)
    (htail : x' < start.toNat * 4096 → s.bdata.lastPos.toNat * 4096 + s.bdata.lastOffset.toNat ≤ x') {y y' : Nat}
    (hy : y ∈ blockSet x size.toNat) (hy' : y' ∈ blockSet x' size'.toNat) (hpage : y / 4096 = y' / 4096) :
    x + size.toNat ≤ x' := by
  have hset := h.reserved y hy
  rcases hput.area.block_page hput.begins hy' with hin | ⟨htailPage, hbefore⟩
  · rw [hpage, (hput.area.freePage hnode hin.1 hin.2).2] at hset
    cases hset
  · -- the last block ends at the cursor
    have hlo := hy'.1
    have hend := htail (by omega)
    have hoffset := h.cursor.offset
    have hne : s.bdata.lastOffset.toNat ≠ 0 := fun hzero => htailPage.1 (BitVec.eq_of_toNat_eq hzero)
    have hpos := h.cursor.pos (by omega)
    omega

theorem HeldBlock.apart (h : HeldBlock s a size x) (hnode : s.bdata.NodeOk)
    (hput : Put s t start areasize x' size'.toNat)
    (htail : x' < start.toNat * 4096 → s.bdata.lastPos.toNat * 4096 + s.bdata.lastOffset.toNat ≤ x') :
    (SharesPage a size (s.bdata.va x') size' →
        (virtToPhys a).toNat + size.toNat ≤ (virtToPhys (s.bdata.va x')).toNat) ∧
      Disjoint (byteSet a size) (byteSet (s.bdata.va x') size') := by
  obtain ⟨hpages, hbytes⟩ := hnode.pages_le
  have hinside := h.inside
  have hinside' := hput.inside
  rw [hput.taken.node.pages_eq] at hinside'
  have hstart := hnode.aligned
  constructor
  · rintro ⟨y, hy, y', hy', hpage⟩
    have hlt := lt_of_le_of_lt hy.1 hy.2
    have hlt' := lt_of_le_of_lt hy'.1 hy'.2
    rw [h.addr] at hy hlt ⊢
    have hphys := @toNat_virtToPhys_va s.bdata x (by omega)
    have hphys' := @toNat_virtToPhys_va s.bdata x' (by omega)
    rw [physBlock, hphys] at hy
    rw [physBlock, hphys'] at hy'
    obtain ⟨hlo, hhi⟩ := hy
    obtain ⟨hlo', hhi'⟩ := hy'
    have hin : y - s.bdata.nodeBootStart.toNat ∈ blockSet x size.toNat := ⟨by omega, by omega⟩
    have hin' : y' - s.bdata.nodeBootStart.toNat ∈ blockSet x' size'.toNat := ⟨by omega, by omega⟩
    have hle := h.le_start hnode hput htail hin hin' (by omega)
    rw [hphys, hphys']
    omega
  · refine Set.disjoint_left.mpr fun c hc hc' => ?_
    rw [h.addr] at hc
    obtain ⟨y, hy, rfl⟩ := (mem_byteSet_va (by omega)).mp hc
    obtain ⟨y', hy', heq⟩ := (mem_byteSet_va (by omega)).mp hc'
    have hylt := hy.2
    have hylt' := hy'.2
    obtain rfl := va_injective (by omega) (by omega) heq
    have hle := h.le_start hnode hput htail hy hy' rfl
    have hlo := hy'.1
    omega

end

/-! ### Runs -/

/-- The last block of the run, if nothing of it was freed. -/
def LastHeld (b : BootmemData) (es : List Event) (s : Boot) : Prop :=
  ∀ mid early size align goal a, es = mid ++ (.alloc size align goal, some a) :: early → blocks mid = [] →
    NotFreed b mid a size → ∃ x, HeldBlock s a size x

/-- What holds after a run whose calls keep consecutive blocks apart. -/
structure BehindInv (b : BootmemData) (es : List Event) (s : Boot) : Prop where
  node : SameNode b s.bdata
  nodeOk : s.bdata.NodeOk
  offset_lt : s.bdata.lastOffset.toNat < 4096
  tail_lt : ∀ p, s.TailPage p → p < s.bdata.pages
  apart : ConsecutiveApart b es
  last : LastHeld b es s

section

variable {b : BootmemData} {s t : Boot} {es : List Event} {e : Event} {addr size align goal a : Word} {r : Option Word}

theorem ConsecutiveApart.quiet (h : ConsecutiveApart b es) (hquiet : e.block? = none) :
    ConsecutiveApart b (e :: es) := by
  intro late mid early size align goal a size' align' goal' a' heq hmid hfreed
  obtain ⟨late', rfl, hes⟩ := exists_late_of_cons heq (by rintro rfl; cases hquiet)
  exact h late' mid early size align goal a size' align' goal' a' hes hmid hfreed

theorem LastHeld.quiet (h : LastHeld b es s) (hquiet : e.block? = none)
    (hkeeps : ∀ a size x, NotFreed b [e] a size → HeldBlock s a size x → HeldBlock t a size x) :
    LastHeld b (e :: es) t := by
  intro mid early size align goal a heq hmid hfreed
  obtain ⟨mid', rfl, hes⟩ := exists_late_of_cons heq (by rintro rfl; cases hquiet)
  rw [blocks, List.filterMap_cons_none hquiet] at hmid
  obtain ⟨x, hheld⟩ := h mid' early size align goal a hes hmid fun addr z r hmem =>
    hfreed addr z r (List.mem_cons_of_mem _ hmem)
  refine ⟨x, hkeeps a size x (fun addr z r hmem => hfreed addr z r ?_) hheld⟩
  rw [List.mem_singleton.mp hmem]
  exact List.mem_cons_self

/-- A call that only writes bits. -/
theorem BehindInv.written (h : BehindInv b es s) {lo hi : Nat} {value : Bool} (hwritten : BitsWritten s t lo hi value)
    (hquiet : e.block? = none)
    (hkeeps : value = false → ∀ a size x, NotFreed b [e] a size → HeldBlock s a size x →
      ∀ y ∈ blockSet x size.toNat, ¬ (lo ≤ y / 4096 ∧ y / 4096 < hi)) : BehindInv b (e :: es) t := by
  have hbdata := hwritten.bdata
  refine ⟨hbdata ▸ h.node, hbdata ▸ h.nodeOk, hbdata ▸ h.offset_lt, fun p hp => ?_, h.apart.quiet hquiet, ?_⟩
  · rw [hbdata]
    rw [Boot.TailPage, hbdata] at hp
    exact h.tail_lt p hp
  · exact h.last.quiet hquiet fun a size x hfreed hheld =>
      hheld.written h.nodeOk hwritten fun hvalue => hkeeps hvalue a size x hfreed hheld

theorem BehindInv.free (h : BehindInv b es s) (hret : freeBootmemCore s addr size = .ret () t) :
    BehindInv b ((.free addr size, r) :: es) t := by
  refine h.written (freeBootmemCore_written hret) rfl fun _ a z x hfreed hheld y hy hin => ?_
  have hnode : freedPages s.bdata addr size = freedPages b addr size := by
    rw [freedPages, freedPages, freeSidx, freeSidx, freeEidx, freeEidx, h.node.start]
  have hpages := h.nodeOk.pages_le.1
  have hinside := hheld.inside
  have hblock : s.bdata.va y ∈ byteSet a z := by
    rw [hheld.addr]
    exact (mem_byteSet_va (by omega)).mpr ⟨y, hy, rfl⟩
  refine Set.disjoint_left.mp (hfreed addr size r List.mem_cons_self) hblock ⟨y, ?_, h.node.va_eq y⟩
  rw [← hnode]
  exact passes_range.mp hin

theorem BehindInv.reserve (h : BehindInv b es s) (hret : reserveBootmemCore s addr size = .ret () t) :
    BehindInv b ((.reserve addr size, r) :: es) t :=
  h.written (reserveBootmemCore_written hret) rfl fun hvalue => by cases hvalue

theorem BehindInv.safe (h : BehindInv b es s) (hkeeps : s.KeepsBehind (.alloc size align goal)) : s.Safe :=
  ⟨h.nodeOk, h.offset_lt, h.tail_lt, hkeeps.2.2⟩

/-- A new block is apart from the block before it and takes its place. -/
theorem BehindInv.block (h : BehindInv b es s) (hkeeps : s.KeepsBehind (.alloc size align goal))
    (hret : allocBootmemCore s size align goal = .ret (some a) t) :
    BehindInv b ((.alloc size align goal, some a) :: es) t := by
  have hs := h.safe hkeeps
  have hsize := (allocBootmemCore_checks hret).1
  obtain ⟨x, start, areasize, rfl, hput, htail⟩ := alloc_behind hs hkeeps hret
  have hsafe := hput.taken.safe hs hput.area hput.begins hsize
  refine ⟨h.node.trans hput.taken.node, hsafe.node, hsafe.offset_lt, hsafe.tail_lt, ?_, ?_⟩
  · intro late mid early z al g c z' al' g' c' heq hmid hfreed
    cases late with
    | nil =>
        rw [List.nil_append, List.cons.injEq, Prod.mk.injEq, Call.alloc.injEq, Option.some.injEq] at heq
        obtain ⟨⟨⟨rfl, rfl, rfl⟩, rfl⟩, hes⟩ := heq
        obtain ⟨y, hheld⟩ := h.last mid early z al g c hes hmid hfreed
        exact hheld.apart h.nodeOk hput fun hlt => (htail hlt).2
    | cons e late =>
        rw [List.cons_append, List.cons.injEq] at heq
        exact h.apart late mid early z al g c z' al' g' c' heq.2 hmid hfreed
  · intro mid early z al g c heq hmid hfreed
    cases mid with
    | nil =>
        rw [List.nil_append, List.cons.injEq, Prod.mk.injEq, Call.alloc.injEq, Option.some.injEq] at heq
        obtain ⟨⟨⟨rfl, rfl, rfl⟩, rfl⟩, -⟩ := heq
        exact ⟨x, hput.held fun hlt => (htail hlt).1⟩
    | cons e mid =>
        rw [List.cons_append, List.cons.injEq] at heq
        rw [← heq.1] at hmid
        cases hmid

/-- The step lemma: a call that keeps consecutive blocks apart keeps the invariant. -/
theorem BehindInv.step (h : BehindInv b es s) (hstep : s.Step Boot.KeepsBehind e t) : BehindInv b (e :: es) t := by
  obtain ⟨c, r⟩ := e
  obtain ⟨hkeeps, hret⟩ := hstep
  cases c with
  | free addr size => exact h.free (call_free hret)
  | reserve addr size => exact h.reserve (call_reserve hret)
  | alloc size align goal =>
      cases r with
      | some a => exact h.block hkeeps hret
      | none =>
          have hsame : t = s := by
            obtain ⟨hsize, halign⟩ := allocBootmemCore_checks hret
            have hput := allocBootmemCore_put goal (h.safe hkeeps) hsize hkeeps.1 halign
            rw [show allocBootmemCore s size align goal = .ret none t from hret] at hput
            cases hput
            rfl
          rw [hsame]
          exact ⟨h.node, h.nodeOk, h.offset_lt, h.tail_lt, h.apart.quiet rfl,
            h.last.quiet rfl fun _ _ _ _ hheld => hheld⟩

end

section

variable {s₀ s : Boot} {mapstart start endPfn : Word} {es : List Event}

theorem init_behindInv (hstart : start.toNat < 2 ^ 20) (hle : start.toNat ≤ endPfn.toNat)
    (hend : endPfn.toNat ≤ 2 ^ 20) (hcursor : s₀.bdata.lastOffset = 0) :
    BehindInv (initBootmemCore s₀ mapstart start endPfn).2.bdata [] (initBootmemCore s₀ mapstart start endPfn).2 := by
  have hsafe := (@init_cursorInv s₀ mapstart start endPfn hstart hle hend hcursor).inv.safe
  refine ⟨.refl _, hsafe.node, hsafe.offset_lt, hsafe.tail_lt, ?_, ?_⟩
  · intro late mid early size align goal a size' align' goal' a' heq
    simp at heq
  · intro mid early size align goal a heq
    simp at heq

/-- **Consecutive blocks**: from `init_bootmem_core` on, in every run whose calls keep consecutive blocks apart, a block
that shares a page with the block before it starts at or behind its end, and the two do not overlap, unless the first
one was freed in between. -/
theorem consecutive_run_apart (hstart : start.toNat < 2 ^ 20) (hle : start.toNat ≤ endPfn.toNat)
    (hend : endPfn.toNat ≤ 2 ^ 20) (hcursor : s₀.bdata.lastOffset = 0)
    (hrun : Run.Reaches (Boot.Step Boot.KeepsBehind) (initBootmemCore s₀ mapstart start endPfn).2 es s) :
    ConsecutiveApart (initBootmemCore s₀ mapstart start endPfn).2.bdata es :=
  (hrun.invariant (BehindInv _) (init_behindInv hstart hle hend hcursor)
    fun _ _ _ _ hprev hstep => hprev.step hstep).apart

end

/-- A node of eight pages whose bitmap lies in page 1 keeps blocks apart as long as the pages 1 and that of the cursor
are reserved. -/
theorem keepsBehind_of_reserved {s : Boot} {size align goal lastOffset lastPos : Word}
    (hbdata : s.bdata = ⟨0, 8, 0xC0001000, lastOffset, lastPos⟩) (hlast : lastPos.toNat = 0 ∨ lastPos.toNat = 2)
    (hone : s.reserved 1 = true) (hcursor : s.reserved lastPos.toNat = true) (hsize : size.toNat + 4095 < 2 ^ 32)
    (halign : align ≠ 0) : s.KeepsBehind (.alloc size align goal) := by
  have hpages : s.bdata.pages = 8 := by
    rw [hbdata]
    show (8 : Word).toNat - (0 : Word).toNat / 4096 = 8
    decide
  refine ⟨hsize, fun _ => ⟨halign, by rw [hbdata]; exact hcursor⟩, fun x hx => ?_⟩
  have hin : x / 4096 < 8 ∧ x / 4096 ≠ 1 := by
    rcases hx with ⟨hlt, hclear⟩ | ⟨-, hpos⟩
    · refine ⟨hpages ▸ hlt, fun h => ?_⟩
      rw [h, hone] at hclear
      cases hclear
    · rw [hbdata] at hpos
      have hpos : x / 4096 = lastPos.toNat := hpos
      omega
  exact not_bitmapByte_of_page_ne_one (by rw [hbdata]) (by rw [hbdata]) (by rw [hpages]; decide)
    (by rw [hpages]; exact hin.1) hin.2

theorem consecutive_run_apart_two_blocks : ∃ es s,
    es = [(.alloc 50 16 0, some 0xC0002070), (.alloc 100 16 0, some 0xC0002000), (.free 0x2000 0x6000, none)] ∧
      Run.Reaches (Boot.Step Boot.KeepsBehind) (initBootmemCore bootStart 1 0 8).2 es s ∧
        ConsecutiveApart (initBootmemCore bootStart 1 0 8).2.bdata es := by
  have hrun : ((initBootmemCore bootStart 1 0 8).2.replay [.alloc 50 16 0, .alloc 100 16 0, .free 0x2000 0x6000]).any
      (fun r => r.1 == [(.alloc 50 16 0, some 0xC0002070), (.alloc 100 16 0, some 0xC0002000),
        (.free 0x2000 0x6000, none)]) = true := by decide +kernel
  obtain ⟨⟨es, s⟩, hreplay, hvalues⟩ := (Option.any_eq_true _ _).mp hrun
  obtain ⟨es₂, s₂, r₂, hreplay₂, halloc₂, rfl⟩ := Boot.replay_cons hreplay
  obtain ⟨es₁, s₁, r₁, hreplay₁, halloc₁, rfl⟩ := Boot.replay_cons hreplay₂
  obtain ⟨es₀, s₀, r₀, hinit, hfree, rfl⟩ := Boot.replay_cons hreplay₁
  cases hinit
  have hafterFree : ((initBootmemCore bootStart 1 0 8).2.replay [.free 0x2000 0x6000]).any (fun r =>
      r.2.bdata == ⟨0, 8, 0xC0001000, 0, 0⟩ && r.2.reserved 1 && r.2.reserved 0) = true := by decide +kernel
  have hafterAlloc : ((initBootmemCore bootStart 1 0 8).2.replay [.alloc 100 16 0, .free 0x2000 0x6000]).any
      (fun r => r.2.bdata == ⟨0, 8, 0xC0001000, 100, 2⟩ && r.2.reserved 1 && r.2.reserved 2) = true := by
    decide +kernel
  rw [hreplay₁] at hafterFree
  rw [hreplay₂] at hafterAlloc
  simp only [Option.any_some, Bool.and_eq_true, beq_iff_eq] at hafterFree hafterAlloc
  obtain ⟨⟨hbdata₁, hone₁⟩, hcursor₁⟩ := hafterFree
  obtain ⟨⟨hbdata₂, hone₂⟩, hcursor₂⟩ := hafterAlloc
  have hkeeps₁ := @keepsBehind_of_reserved s₁ 100 16 0 0 0 hbdata₁ (.inl rfl) hone₁ hcursor₁ (by decide) (by decide)
  have hkeeps₂ := @keepsBehind_of_reserved s₂ 50 16 0 100 2 hbdata₂ (.inr rfl) hone₂ hcursor₂ (by decide) (by decide)
  have hreaches : Run.Reaches (Boot.Step Boot.KeepsBehind) (initBootmemCore bootStart 1 0 8).2
      [(.alloc 50 16 0, r₂), (.alloc 100 16 0, r₁), (.free 0x2000 0x6000, r₀)] s :=
    .next (.next (.next .start ⟨trivial, hfree⟩) ⟨hkeeps₁, halloc₁⟩) ⟨hkeeps₂, halloc₂⟩
  exact ⟨_, s, eq_of_beq hvalues, hreaches,
    @consecutive_run_apart bootStart s 1 0 8 _ (by decide) (by decide) (by decide) rfl hreaches⟩

/-- With the alignment 0 the second block lies on the first one. -/
theorem align_zero_overlaps : ∃ es s,
    Run.Reaches (Boot.Step fun _ _ => True) (initBootmemCore bootStart 0x100 0 8).2 es s ∧
      es = [(.alloc 100 0 0, some 0xC0000000), (.alloc 100 16 0, some 0xC0000000), (.free 0 0x8000, none)] ∧
        ¬ ConsecutiveApart (initBootmemCore bootStart 0x100 0 8).2.bdata es := by
  have hrun : ((initBootmemCore bootStart 0x100 0 8).2.replay [.alloc 100 0 0, .alloc 100 16 0, .free 0 0x8000]).any
      (fun r => r.1 == [(.alloc 100 0 0, some 0xC0000000), (.alloc 100 16 0, some 0xC0000000),
        (.free 0 0x8000, none)]) = true := by decide +kernel
  obtain ⟨⟨es, s⟩, hreplay, hvalues⟩ := (Option.any_eq_true _ _).mp hrun
  obtain rfl := eq_of_beq hvalues
  refine ⟨_, s, Boot.replay_reaches (fun _ _ _ => trivial) hreplay, rfl, fun hapart => ?_⟩
  obtain ⟨-, hdisjoint⟩ := hapart [] [] [(.free 0 0x8000, none)] 100 16 0 0xC0000000 100 0 0 0xC0000000 rfl rfl
    (fun _ _ _ hmem => absurd hmem List.not_mem_nil)
  have hmem : (0xC0000000 : Word) ∈ byteSet 0xC0000000 100 := by
    show (0xC0000000 - 0xC0000000 : Word).toNat < (100 : Word).toNat
    decide
  exact Set.disjoint_left.mp hdisjoint hmem hmem

end XosKernel.Bootmem
