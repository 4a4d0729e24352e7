import XosKernel.BootmemPlace

/-! The specification of one call of `__alloc_bootmem_core`: on a state that satisfies the invariant and a
size whose page count does not wrap, the call reaches no `BUG`, and a block that it returns is placed as
`Placed` says. With an alignment other than zero the block is also carved out of the available bytes and
starts at a multiple of the alignment. -/

namespace XosKernel.Bootmem

open BootmemData

/-- The alignments that the check at entry accepts. -/
theorem align_cases {align : Word} (h : align &&& (align - 1) = 0) :
    align = 0 ∨ align.toNat.isPowerOfTwo := (Word.and_sub_one_eq_zero_iff align).mp h

/-- Two powers of two: one divides the other. -/
theorem dvd_pageSize_or {a : Nat} (ha : a.isPowerOfTwo) : (a ∣ 4096 ∧ a ≤ 4096) ∨ (4096 ∣ a ∧ 4096 < a) := by
  obtain ⟨k, rfl⟩ := ha
  rcases Nat.lt_or_ge 12 k with hk | hk
  · refine .inr ⟨(Nat.pow_dvd_pow_iff_le_right (x := 2) (k := 12) (by decide)).mpr (by omega), ?_⟩
    exact Nat.pow_lt_pow_right (by decide : 1 < 2) hk
  · refine .inl ⟨(Nat.pow_dvd_pow_iff_le_right (x := 2) (l := 12) (by decide)).mpr hk, ?_⟩
    exact Nat.pow_le_pow_right (by decide) hk

theorem toNat_div_pageSize (a : Word) : (a / pageSize).toNat = a.toNat / 4096 := BitVec.toNat_udiv

theorem toNat_shift (a : Word) : (a >>> pageShift).toNat = a.toNat / 4096 := by
  rw [BitVec.toNat_ushiftRight, Nat.shiftRight_eq_div_pow]
  rfl

/-- The number of pages of a size. -/
theorem toNat_pageCount {size : Word} (h : size.toNat + 4095 < 2 ^ 32) :
    ((size + pageSize - 1) / pageSize).toNat = (size.toNat + 4095) / 4096 := by
  have hround : size + pageSize - 1 = size + 4095 := by
    rw [BitVec.sub_eq_add_neg, BitVec.add_assoc]
    rfl
  rw [toNat_div_pageSize, hround, BitVec.toNat_add]
  exact congrArg (· / 4096) (Nat.mod_eq_of_lt h)

theorem toNat_pageOffset (a : Word) : (a &&& ~~~pageMask).toNat = a.toNat % 4096 := by
  rw [BitVec.not_not]
  exact Word.toNat_and_sub_one (a := pageSize) ⟨12, rfl⟩ a

/-- The end of the node as the scan counts it. -/
theorem BootmemData.NodeOk.toNat_eidx {b : BootmemData} (h : b.NodeOk) :
    (b.nodeLowPfn - b.nodeBootStart >>> pageShift).toNat = b.pages := by
  have hle := h.start_le
  rw [BitVec.toNat_sub_of_le, toNat_shift, pages]
  rw [BitVec.le_def, toNat_shift]
  exact hle

/-- The pages whose physical address is a multiple of the alignment. -/
def OnGrid (b : BootmemData) (align i : Word) : Prop :=
  align ≠ 0 → align.toNat ∣ i.toNat * 4096 + b.nodeBootStart.toNat

section

variable {b : BootmemData} {align : Word}

theorem onGrid_of_dvd_pageSize (hb : b.nodeBootStart.toNat % 4096 = 0) (h : align.toNat ∣ 4096) (i : Word) :
    OnGrid b align i := by
  intro _
  have hstart : 4096 ∣ b.nodeBootStart.toNat := Nat.dvd_of_mod_eq_zero hb
  exact Nat.dvd_trans h (Nat.dvd_add (Nat.dvd_mul_left _ _) hstart)

theorem onGrid_of_le (hb : b.nodeBootStart.toNat % 4096 = 0) (halign : align &&& (align - 1) = 0)
    (hle : align ≤ pageSize) (i : Word) : OnGrid b align i := by
  intro hne
  have hle' : align.toNat ≤ 4096 := BitVec.le_def.mp hle
  rcases align_cases halign with hzero | hpow
  · exact absurd hzero hne
  · rcases dvd_pageSize_or hpow with h | h
    · exact onGrid_of_dvd_pageSize hb h.1 i hne
    · omega

/-- `incr`. -/
def stride (align : Word) : Word := if align >>> pageShift ≠ 0 then align >>> pageShift else 1

theorem onGrid_stride (hb : b.nodeBootStart.toNat % 4096 = 0) (halign : align.toNat.isPowerOfTwo) {i : Word}
    (hi : i.toNat < 2 ^ 20) (h : OnGrid b align i) : OnGrid b align (i + stride align) := by
  rcases dvd_pageSize_or halign with ⟨hdvd, -⟩ | ⟨hdvd, hgt⟩
  · exact onGrid_of_dvd_pageSize hb hdvd _
  · intro hne
    have hshift := toNat_shift align
    have hne0 : align >>> pageShift ≠ 0 := by
      intro hzero
      rw [hzero] at hshift
      have : (0 : Word).toNat = 0 := rfl
      omega
    obtain ⟨q, hq⟩ := hdvd
    have hstride : (stride align).toNat = q := by
      rw [stride, if_pos hne0, hshift, hq, Nat.mul_div_cancel_left q (by decide)]
    have hlt := align.isLt
    have hsum : (i + stride align).toNat = i.toNat + q := by
      rw [BitVec.toNat_add, hstride, Nat.mod_eq_of_lt (by omega)]
    rw [hsum, Nat.add_mul, Nat.add_right_comm]
    refine Nat.dvd_add (h hne) ?_
    rw [hq]
    exact ⟨1, by rw [Nat.mul_one, Nat.mul_comm]⟩

/-- `offset` before the shift: the distance to the next multiple of the alignment. -/
def gridOffset (b : BootmemData) (align : Word) : Word :=
  if align ≠ 0 ∧ b.nodeBootStart &&& (align - 1) ≠ 0 then align - (b.nodeBootStart &&& (align - 1)) else 0

theorem onGrid_offset (hb : b.nodeBootStart.toNat % 4096 = 0) (halign : align.toNat.isPowerOfTwo) :
    OnGrid b align (gridOffset b align >>> pageShift) := by
  rcases dvd_pageSize_or halign with ⟨hdvd, -⟩ | ⟨hdvd, hgt⟩
  · exact onGrid_of_dvd_pageSize hb hdvd _
  · intro hne
    have hmod := Word.toNat_and_sub_one halign b.nodeBootStart
    have hlt := Nat.mod_lt b.nodeBootStart.toNat (by omega : align.toNat > 0)
    rw [toNat_shift, gridOffset]
    split
    · rename_i hcond
      have hsub : (align - (b.nodeBootStart &&& (align - 1))).toNat =
          align.toNat - b.nodeBootStart.toNat % align.toNat := by
        rw [BitVec.toNat_sub_of_le (by rw [BitVec.le_def, hmod]; omega), hmod]
      have hpage : 4096 ∣ align.toNat - b.nodeBootStart.toNat % align.toNat := by
        refine Nat.dvd_sub hdvd ?_
        exact (Nat.dvd_mod_iff hdvd).mpr (Nat.dvd_of_mod_eq_zero hb)
      rw [hsub, Nat.div_mul_cancel hpage]
      have hdiv := Nat.div_add_mod b.nodeBootStart.toNat align.toNat
      refine ⟨b.nodeBootStart.toNat / align.toNat + 1, ?_⟩
      rw [Nat.mul_add, Nat.mul_one]
      omega
    · rename_i hcond
      have hzero : b.nodeBootStart &&& (align - 1) = 0 := by
        by_contra hnz
        exact hcond ⟨hne, hnz⟩
      rw [hzero] at hmod
      have h0 : (0 : Word).toNat = 0 := rfl
      rw [h0, Nat.zero_div, Nat.zero_mul, Nat.zero_add]
      exact Nat.dvd_of_mod_eq_zero (by omega)

theorem onGrid_preferred (hb : b.nodeBootStart.toNat % 4096 = 0) (halign : align.toNat.isPowerOfTwo) (p : Word) :
    OnGrid b align ((p &&& ~~~(align - 1)) >>> pageShift + gridOffset b align >>> pageShift) := by
  rcases dvd_pageSize_or halign with ⟨hdvd, -⟩ | ⟨hdvd, hgt⟩
  · exact onGrid_of_dvd_pageSize hb hdvd _
  · intro hne
    have hround := Word.toNat_and_not_sub_one halign p
    have hlt := (p &&& ~~~(align - 1)).isLt
    have hlt' := (gridOffset b align).isLt
    have hsum : ((p &&& ~~~(align - 1)) >>> pageShift + gridOffset b align >>> pageShift).toNat =
        (p &&& ~~~(align - 1)).toNat / 4096 + (gridOffset b align >>> pageShift).toNat := by
      rw [BitVec.toNat_add, toNat_shift, toNat_shift, Nat.mod_eq_of_lt (by omega)]
    have hpage : 4096 ∣ (p &&& ~~~(align - 1)).toNat := by
      rw [hround]
      exact Nat.dvd_trans hdvd (Nat.dvd_mul_left _ _)
    rw [hsum, Nat.add_mul, Nat.div_mul_cancel hpage, Nat.add_assoc]
    refine Nat.dvd_add ?_ (onGrid_offset hb halign hne)
    rw [hround]
    exact Nat.dvd_mul_left _ _

end

/-! ### The end of the call -/

theorem va_page (b : BootmemData) (p off : Word) :
    physToVirt (p * pageSize + off + b.nodeBootStart) = b.va (p.toNat * 4096 + off.toNat) := by
  have hpage : BitVec.ofNat 32 (p.toNat * 4096) = p * pageSize := by
    rw [BitVec.ofNat_mul, BitVec.ofNat_toNat, BitVec.setWidth_eq]
    rfl
  have hoff : BitVec.ofNat 32 off.toNat = off := by rw [BitVec.ofNat_toNat, BitVec.setWidth_eq]
  rw [va, BitVec.ofNat_add, hpage, hoff, BitVec.add_comm b.nodeBootStart]

theorem va_pageStart (b : BootmemData) (p : Word) :
    physToVirt (p * pageSize + b.nodeBootStart) = b.va (p.toNat * 4096) := by
  have hpage := va_page b p (0 : Word)
  have hzero : (0 : Word).toNat = 0 := rfl
  rwa [show p * pageSize + 0 = p * pageSize from BitVec.add_zero _, hzero, Nat.add_zero] at hpage

/-- The byte after the last block, rounded up to the alignment. -/
def nextOffset (b : BootmemData) (align : Word) : Word := (b.lastOffset + align - 1) &&& ~~~(align - 1)

theorem toNat_nextOffset {b : BootmemData} {align : Word} (hoff : b.lastOffset.toNat < 4096)
    (halign : align.toNat.isPowerOfTwo) (hle : align.toNat ≤ 4096) :
    (nextOffset b align).toNat = (b.lastOffset.toNat + (align.toNat - 1)) / align.toNat * align.toNat := by
  have hpos := Nat.pos_of_isPowerOfTwo halign
  have hone := Word.toNat_sub_one (a := align) (by omega)
  have hround : b.lastOffset + align - 1 = b.lastOffset + (align - 1) := by
    rw [BitVec.sub_eq_add_neg, BitVec.sub_eq_add_neg, BitVec.add_assoc]
  rw [nextOffset, Word.toNat_and_not_sub_one halign, hround, BitVec.toNat_add, hone,
    Nat.mod_eq_of_lt (by omega)]

/-- With a positive alignment of at most a page the next block starts behind the last one, in its page or
at the end of that page. -/
structure NextOk (b : BootmemData) (align : Word) : Prop where
  le : (nextOffset b align).toNat ≤ 4096
  ge : align ≠ 0 → b.lastOffset.toNat ≤ (nextOffset b align).toNat
  dvd : align ≠ 0 → align.toNat ∣ (nextOffset b align).toNat

theorem nextOffset_zero (b : BootmemData) : nextOffset b 0 = 0 := by
  have hmask : ~~~((0 : Word) - 1) = 0 := rfl
  rw [nextOffset, hmask]
  exact BitVec.and_zero

theorem nextOk {b : BootmemData} {align : Word} (hoff : b.lastOffset.toNat < 4096)
    (halign : align &&& (align - 1) = 0) (hle : align ≤ pageSize) : NextOk b align := by
  rcases align_cases halign with rfl | hpow
  · refine ⟨?_, fun h => absurd rfl h, fun h => absurd rfl h⟩
    rw [nextOffset_zero]
    exact Nat.zero_le _
  · have hle' : align.toNat ≤ 4096 := BitVec.le_def.mp hle
    have hpos := Nat.pos_of_isPowerOfTwo hpow
    have hnext := toNat_nextOffset hoff hpow hle'
    refine ⟨?_, fun _ => ?_, fun _ => ?_⟩
    · obtain ⟨q, hq⟩ : align.toNat ∣ 4096 := by
        rcases dvd_pageSize_or hpow with h | h
        · exact h.1
        · omega
      rw [hnext, hq, Nat.mul_comm]
      refine Nat.mul_le_mul_left _ (Nat.le_of_lt_succ ?_)
      rw [Nat.div_lt_iff_lt_mul hpos, Nat.succ_mul, Nat.mul_comm q, ← hq]
      omega
    · rw [hnext]
      have := Nat.div_add_mod' (b.lastOffset.toNat + (align.toNat - 1)) align.toNat
      have := Nat.mod_lt (b.lastOffset.toNat + (align.toNat - 1)) hpos
      omega
    · rw [hnext]
      exact Nat.dvd_mul_left _ _

/-- A block that was placed, with what an alignment other than zero adds. -/
structure Allocated (s t : Boot) (size align : Word) (x : Nat) : Prop where
  placed : Placed s t x size.toNat
  carves : align ≠ 0 → Carves s t x size.toNat
  aligned : align ≠ 0 → align.toNat ∣ s.bdata.nodeBootStart.toNat + x

/-- The ways a call can end. -/
inductive AllocSpec (s : Boot) (size align : Word) : Outcome Boot (Option Word) → Prop
  | null : AllocSpec s size align (.ret none s)
  | block (x : Nat) (t : Boot) (h : Allocated s t size align x) :
      AllocSpec s size align (.ret (some (s.bdata.va x)) t)
  | hang : AllocSpec s size align .hang

/-- The ways a call can end when the page of the cursor may be free. -/
inductive PutSpec (s : Boot) (size align : Word) : Outcome Boot (Option Word) → Prop
  | null : PutSpec s size align (.ret none s)
  | block (x : Nat) (t : Boot) (start areasize : Word) (put : Put s t start areasize x size.toNat)
      (behind : align ≠ 0 → x < start.toNat * 4096 →
        s.bdata.lastPos.toNat * 4096 + s.bdata.lastOffset.toNat ≤ x)
      (aligned : align ≠ 0 → align.toNat ∣ s.bdata.nodeBootStart.toNat + x)
      (count : areasize.toNat ≤ (size.toNat + 4095) / 4096) : PutSpec s size align (.ret (some (s.bdata.va x)) t)
  | hang : PutSpec s size align .hang

theorem PutSpec.allocSpec {s : Boot} {size align : Word} {o : Outcome Boot (Option Word)}
    (h : PutSpec s size align o) (hs : s.Inv) (hsize : 1 ≤ size.toNat) : AllocSpec s size align o := by
  cases h with
  | null => exact .null
  | hang => exact .hang
  | block x t start areasize put behind aligned count =>
      exact .block x t ⟨put.placed hs hsize,
        fun hne => put.taken.carves hs put.area put.begins hsize (behind hne), aligned⟩

/-- The run of free pages ends inside the node. -/
theorem Found.inside {s : Boot} {eidx areasize start : Word} {Grid : Word → Prop}
    (h : Found s eidx areasize Grid start) :
    start.toNat + areasize.toNat ≤ eidx.toNat := by
  have hlt := BitVec.lt_def.mp h.lt
  by_contra hout
  have hlast : (BitVec.ofNat 32 eidx.toNat).toNat = eidx.toNat := by
    rw [BitVec.ofNat_toNat, BitVec.setWidth_eq]
  have hfree := (h.free (BitVec.ofNat 32 eidx.toNat) (by omega) (by omega)).1
  rw [BitVec.lt_def, hlast] at hfree
  exact absurd hfree (Nat.lt_irrefl _)

section

variable {s : Boot} {b : BootmemData} {size align start areasize : Word} {x : Nat}

/-- A block whose area is free and whose cursor is right is put there. -/
theorem reserveArea_spec (hs : s.Safe) (hsame : SameNode s.bdata b)
    (hbegin : Begins s.bdata start x) (harea : Area s start areasize x size.toNat)
    (hcursor : CursorAt b (x + size.toNat))
    (hfrom : align ≠ 0 → x < start.toNat * 4096 →
      s.bdata.lastPos.toNat * 4096 + s.bdata.lastOffset.toNat ≤ x)
    (haligned : align ≠ 0 → align.toNat ∣ s.bdata.nodeBootStart.toNat + x)
    (hcount : areasize.toNat ≤ (size.toNat + 4095) / 4096) :
    PutSpec s size align (reserveArea { s with bdata := b } start areasize (s.bdata.va x) size) := by
  obtain ⟨t, ht, hput⟩ := reserveArea_put hs hsame hbegin harea hcursor
  rw [ht]
  exact .block x t start areasize hput hfrom haligned hcount

end

/-- The last page of an area. -/
theorem toNat_lastPage {start n : Word} (hn : 1 ≤ n.toNat) (hfit : start.toNat + n.toNat < 2 ^ 32) :
    (start + n - 1).toNat = start.toNat + n.toNat - 1 := by
  have hsum : (start + n).toNat = start.toNat + n.toNat := by rw [BitVec.toNat_add, Nat.mod_eq_of_lt hfit]
  rw [Word.toNat_sub_one (by omega), hsum]

/-- The last page of an area of just as many pages as the block needs is the page the block ends in. -/
theorem lastPage_eq {start n : Nat} (hend : (start * 4096 + n) % 4096 ≠ 0) :
    start + (n + 4095) / 4096 - 1 = (start * 4096 + n) / 4096 := by omega

/-- A block that is not merged starts at the page that the scan has found. -/
theorem placeBlock_page {s : Boot} {size areasize start : Word} (hs : s.Safe) (hsize : 1 ≤ size.toNat)
    (hwrap : size.toNat + 4095 < 2 ^ 32) (harea : areasize.toNat = (size.toNat + 4095) / 4096)
    (hin : start.toNat + areasize.toNat ≤ s.bdata.pages)
    (hclear : ∀ nr : Word, start.toNat ≤ nr.toNat → nr.toNat < start.toNat + areasize.toNat → s.oldBit nr = false) :
    ∃ t, reserveArea
        { s with bdata := { s.bdata with lastOffset := size &&& ~~~pageMask, lastPos := start + areasize - 1 } } start
        areasize (physToVirt (start * pageSize + s.bdata.nodeBootStart)) size =
          .ret (some (s.bdata.va (start.toNat * 4096))) t ∧ Put s t start areasize (start.toNat * 4096) size.toNat := by
  have hpages := hs.node.pages_le.1
  have hcover : start.toNat * 4096 + size.toNat ≤ (start.toNat + areasize.toNat) * 4096 := by omega
  have hcursor : CursorAt { s.bdata with lastOffset := size &&& ~~~pageMask, lastPos := start + areasize - 1 }
      (start.toNat * 4096 + size.toNat) := by
    refine ⟨?_, fun hend => ?_⟩
    · show (size &&& ~~~pageMask).toNat = _
      rw [toNat_pageOffset]
      omega
    · show (start + areasize - 1).toNat = _
      rw [toNat_lastPage (by omega) (by omega), harea]
      exact lastPage_eq hend
  have hput := fun hsame => reserveArea_put hs hsame (.page rfl) ⟨hin, hcover, hclear⟩ hcursor
  rw [va_pageStart]
  exact hput ⟨rfl, rfl, rfl⟩

section

variable {s : Boot} {size align off start : Word}

/-- A merged block that ends in the page of the cursor. -/
theorem reserveArea_tail (hs : s.Safe) (hsize : 1 ≤ size.toNat) (hle : off.toNat ≤ 4096)
    (hin : start.toNat ≤ s.bdata.pages) (hpos : s.bdata.lastPos.toNat + 1 = start.toNat)
    (hbegin : Begins s.bdata start (s.bdata.lastPos.toNat * 4096 + off.toNat))
    (hfrom : align ≠ 0 → s.bdata.lastPos.toNat * 4096 + off.toNat < start.toNat * 4096 →
      s.bdata.lastPos.toNat * 4096 + s.bdata.lastOffset.toNat ≤ s.bdata.lastPos.toNat * 4096 + off.toNat)
    (haligned : align ≠ 0 →
      align.toNat ∣ s.bdata.nodeBootStart.toNat + (s.bdata.lastPos.toNat * 4096 + off.toNat))
    (hfits : size.toNat < 4096 - off.toNat) :
    PutSpec s size align (reserveArea
      { s with bdata := { s.bdata with lastOffset := (off + size) &&& ~~~pageMask } } start 0
      (s.bdata.va (s.bdata.lastPos.toNat * 4096 + off.toNat)) size) := by
  have hsum : (off + size).toNat = off.toNat + size.toNat := by
    rw [BitVec.toNat_add, Nat.mod_eq_of_lt (by omega)]
  refine reserveArea_spec hs ⟨rfl, rfl, rfl⟩ hbegin ⟨?_, ?_, fun nr h1 h2 => absurd h2 (by simpa using h1)⟩
    ⟨?_, fun _ => ?_⟩ hfrom haligned (Nat.zero_le _)
  · show start.toNat + 0 ≤ _
    omega
  · show _ ≤ (start.toNat + 0) * 4096
    omega
  · show ((off + size) &&& ~~~pageMask).toNat = _
    rw [toNat_pageOffset, hsum]
    omega
  · show s.bdata.lastPos.toNat = _
    omega

/-- A merged block with `rest` bytes behind the page of the cursor. -/
theorem reserveArea_spills {rest : Word} (hs : s.Safe) (hwrap : size.toNat + 4095 < 2 ^ 32)
    (hle : off.toNat ≤ 4096) (hpos : s.bdata.lastPos.toNat + 1 = start.toNat)
    (hin : start.toNat + (size.toNat + 4095) / 4096 ≤ s.bdata.pages)
    (hclear : ∀ nr : Word, start.toNat ≤ nr.toNat → nr.toNat < start.toNat + (size.toNat + 4095) / 4096 →
      s.oldBit nr = false)
    (hbegin : Begins s.bdata start (s.bdata.lastPos.toNat * 4096 + off.toNat))
    (hfrom : align ≠ 0 → s.bdata.lastPos.toNat * 4096 + off.toNat < start.toNat * 4096 →
      s.bdata.lastPos.toNat * 4096 + s.bdata.lastOffset.toNat ≤ s.bdata.lastPos.toNat * 4096 + off.toNat)
    (haligned : align ≠ 0 →
      align.toNat ∣ s.bdata.nodeBootStart.toNat + (s.bdata.lastPos.toNat * 4096 + off.toNat))
    (hspills : 4096 - off.toNat ≤ size.toNat) (hrest : rest.toNat = size.toNat - (4096 - off.toNat)) :
    PutSpec s size align (reserveArea
      { s with bdata := { s.bdata with
        lastPos := start + (rest + pageSize - 1) / pageSize - 1
        lastOffset := rest &&& ~~~pageMask } } start ((rest + pageSize - 1) / pageSize)
      (s.bdata.va (s.bdata.lastPos.toNat * 4096 + off.toNat)) size) := by
  have hpages := hs.node.pages_le.1
  have hcount := @toNat_pageCount rest (by omega)
  have hsum : s.bdata.lastPos.toNat * 4096 + off.toNat + size.toNat = start.toNat * 4096 + rest.toNat := by omega
  refine reserveArea_spec hs ⟨rfl, rfl, rfl⟩ hbegin ⟨?_, ?_, fun nr h1 h2 => hclear nr h1 ?_⟩
    ⟨?_, fun hend => ?_⟩ hfrom haligned ?_
  · omega
  · omega
  · omega
  · show (rest &&& ~~~pageMask).toNat = _
    rw [toNat_pageOffset]
    omega
  · show (start + (rest + pageSize - 1) / pageSize - 1).toNat = _
    rw [hsum] at hend ⊢
    rw [toNat_lastPage (by omega) (by omega), hcount]
    exact lastPage_eq hend
  · omega

end

theorem placeBlock_spec {s : Boot} {size align eidx areasize start : Word} (hs : s.Safe)
    (hsize : 1 ≤ size.toNat) (hwrap : size.toNat + 4095 < 2 ^ 32) (halign : align &&& (align - 1) = 0)
    (heidx : eidx.toNat = s.bdata.pages) (harea : areasize.toNat = (size.toNat + 4095) / 4096)
    (hfound : Found s eidx areasize (OnGrid s.bdata align) start) :
    PutSpec s size align (placeBlock s size align eidx areasize start) := by
  obtain ⟨hpages, hbytes⟩ := hs.node.pages_le
  have hstart := BitVec.lt_def.mp hfound.lt
  have hin := hfound.inside
  have hclear := fun nr h1 h2 => (hfound.free nr h1 h2).2
  rw [placeBlock, if_neg (BitVec.not_le.mpr hfound.lt)]
  split
  · rename_i hmerge
    obtain ⟨hle, hoff, hnext⟩ := hmerge
    obtain ⟨hle4096, hge, hdvd⟩ := nextOk hs.offset_lt halign hle
    have htail := hs.tail_lt _ ⟨hoff, rfl⟩
    have hpos : s.bdata.lastPos.toNat + 1 = start.toNat := by rw [← hnext, toNat_succ (by omega)]
    obtain ⟨off, hoffset⟩ : ∃ off, nextOffset s.bdata align = off := ⟨_, rfl⟩
    rw [hoffset] at hle4096 hge hdvd
    rw [nextOffset] at hoffset
    simp only [hoffset, va_page]
    rw [if_neg (BitVec.not_lt.mpr (BitVec.le_def.mpr hle4096))]
    have hrem : (pageSize - off).toNat = 4096 - off.toNat := BitVec.toNat_sub_of_le (BitVec.le_def.mpr hle4096)
    have hbegin : Begins s.bdata start (s.bdata.lastPos.toNat * 4096 + off.toNat) :=
      .tail hoff hpos (by omega) (by omega)
    have hfrom : align ≠ 0 → s.bdata.lastPos.toNat * 4096 + off.toNat < start.toNat * 4096 →
        s.bdata.lastPos.toNat * 4096 + s.bdata.lastOffset.toNat ≤ s.bdata.lastPos.toNat * 4096 + off.toNat :=
      fun hne _ => Nat.add_le_add_left (hge hne) _
    have haligned : align ≠ 0 →
        align.toNat ∣ s.bdata.nodeBootStart.toNat + (s.bdata.lastPos.toNat * 4096 + off.toNat) := by
      intro hne
      have hpage := onGrid_of_le hs.node.aligned halign hle s.bdata.lastPos hne
      rw [Nat.add_left_comm, ← Nat.add_assoc]
      exact Nat.dvd_add hpage (hdvd hne)
    split
    · rename_i hfits
      rw [BitVec.lt_def, hrem] at hfits
      exact reserveArea_tail hs hsize hle4096 (by omega) hpos hbegin hfrom haligned hfits
    · rename_i hspills
      rw [BitVec.lt_def, hrem, Nat.not_lt] at hspills
      have hrest : (size - (pageSize - off)).toNat = size.toNat - (4096 - off.toNat) := by
        rw [BitVec.toNat_sub_of_le (BitVec.le_def.mpr (by rw [hrem]; exact hspills)), hrem]
      rw [heidx, harea] at hin
      rw [harea] at hclear
      exact reserveArea_spills hs hwrap hle4096 hpos hin hclear hbegin hfrom haligned hspills hrest
  · obtain ⟨t, ht, hput⟩ := placeBlock_page hs hsize hwrap harea (heidx ▸ hin) hclear
    simp only [ht]
    refine .block _ t start areasize hput (fun _ hlt => absurd hlt (Nat.lt_irrefl _)) (fun hne => ?_) harea.le
    rw [Nat.add_comm]
    exact hfound.grid hne

/-- `preferred` before it is rounded. -/
def preferredByte (b : BootmemData) (goal : Word) : Word :=
  if goal ≠ 0 ∧ goal ≥ b.nodeBootStart ∧ goal >>> pageShift < b.nodeLowPfn then goal - b.nodeBootStart else 0

/-- A call that passes the checks at entry, with the arguments of the scan named. -/
theorem allocBootmemCore_eq {s : Boot} {size align : Word} (goal : Word) (hne : size ≠ 0)
    (halign : align &&& (align - 1) = 0) :
    allocBootmemCore s size align goal =
      match scan s (s.bdata.nodeLowPfn - s.bdata.nodeBootStart >>> pageShift)
          ((size + pageSize - 1) / pageSize) (stride align) (gridOffset s.bdata align >>> pageShift)
          (((preferredByte s.bdata goal + align - 1) &&& ~~~(align - 1)) >>> pageShift +
            gridOffset s.bdata align >>> pageShift) with
      | none => .hang
      | some none => .ret none s
      | some (some start) => placeBlock s size align
          (s.bdata.nodeLowPfn - s.bdata.nodeBootStart >>> pageShift) ((size + pageSize - 1) / pageSize) start := by
  rw [allocBootmemCore, if_neg hne, if_neg (not_not_intro halign)]
  rfl

/-- One allocation when the page of the cursor may be free. -/
theorem allocBootmemCore_put {s : Boot} {size align : Word} (goal : Word) (hs : s.Safe)
    (hsize : 1 ≤ size.toNat) (hwrap : size.toNat + 4095 < 2 ^ 32) (halign : align &&& (align - 1) = 0) :
    PutSpec s size align (allocBootmemCore s size align goal) := by
  have hne : size ≠ 0 := fun h => by
    rw [h] at hsize
    exact absurd hsize (by decide)
  have heidx := hs.node.toNat_eidx
  have hcount := toNat_pageCount hwrap
  have hpages := hs.node.pages_le.1
  -- every page that the scan visits lies on the grid
  have hgrid : ∀ i, i < s.bdata.nodeLowPfn - s.bdata.nodeBootStart >>> pageShift →
      OnGrid s.bdata align i → OnGrid s.bdata align (i + stride align) := by
    intro i hi hon
    rw [BitVec.lt_def, heidx] at hi
    rcases align_cases halign with hzero | hpow
    · exact fun hne => absurd hzero hne
    · exact onGrid_stride hs.node.aligned hpow (by omega) hon
  have hoffset : OnGrid s.bdata align (gridOffset s.bdata align >>> pageShift) := by
    rcases align_cases halign with hzero | hpow
    · exact fun hne => absurd hzero hne
    · exact onGrid_offset hs.node.aligned hpow
  have hpreferred : OnGrid s.bdata align (((preferredByte s.bdata goal + align - 1) &&& ~~~(align - 1)) >>>
      pageShift + gridOffset s.bdata align >>> pageShift) := by
    rcases align_cases halign with hzero | hpow
    · exact fun hne => absurd hzero hne
    · exact onGrid_preferred hs.node.aligned hpow _
  rw [allocBootmemCore_eq goal hne halign]
  split
  · exact .hang
  · exact .null
  · rename_i start hscan
    refine placeBlock_spec hs hsize hwrap halign heidx hcount ?_
    exact scan_found (by omega) (by omega) hgrid hpreferred hoffset hscan

/-- **One allocation**: no `BUG` is reached, and a block that is returned is placed, carved and aligned. -/
theorem allocBootmemCore_spec {s : Boot} {size align : Word} (goal : Word) (hs : s.Inv)
    (hsize : 1 ≤ size.toNat) (hwrap : size.toNat + 4095 < 2 ^ 32) (halign : align &&& (align - 1) = 0) :
    AllocSpec s size align (allocBootmemCore s size align goal) :=
  (allocBootmemCore_put goal hs.safe hsize hwrap halign).allocSpec hs hsize

end XosKernel.Bootmem
