import XosKernel.BootmemScan

/-! Where a block is put. The block starts at the page the scan found, or in the page before it when that is
the page the last block ended in; it takes the pages of the area and leaves the cursor at its end. One
lemma covers the three ways through the end of `__alloc_bootmem_core`. -/

namespace XosKernel.Bootmem

open Memory BootmemData

/-- The block of `size` bytes from `x` on. -/
def blockSet (x size : Nat) : Set Nat := {y | x ≤ y ∧ y < x + size}

/-- What a call that returns a block has done. -/
structure Placed (s t : Boot) (x size : Nat) : Prop where
  node : SameNode s.bdata t.bdata
  inv : t.Inv
  inside : x + size ≤ t.bdata.pages * 4096
  /-- Pages are only taken, and the pages of the block are not free afterwards. -/
  free : ∀ p, t.FreePage p → s.FreePage p ∧ ∀ y ∈ blockSet x size, y / 4096 ≠ p
  cleared : ∀ y ∈ blockSet x size, t.mem (s.bdata.va y) = 0
  frame : ∀ a, (∀ y ∈ blockSet x size, a ≠ s.bdata.va y) → ¬ s.BitmapByte a → t.mem a = s.mem a

/-- The block comes out of the bytes that were available, and they are not available any more. -/
structure Carves (s t : Boot) (x size : Nat) : Prop where
  block : blockSet x size ⊆ s.avail
  rest : t.avail ⊆ s.avail \ blockSet x size

/-- Clearing a block writes its bytes. -/
theorem fill_block {b : BootmemData} {m : Mem 32} {x size : Nat} {v : BitVec 8} (hin : x + size ≤ 2 ^ 32) :
    (∀ y ∈ blockSet x size, fill m (b.va x) v size (b.va y) = v) ∧
      ∀ a, (∀ y ∈ blockSet x size, a ≠ b.va y) → fill m (b.va x) v size a = m a := by
  refine ⟨fun y hy => ?_, fun a ha => ?_⟩
  · obtain ⟨h1, h2⟩ := hy
    rw [fill_apply, va_toNat_sub h1 (by omega), if_pos (by omega)]
  · rw [fill_apply, if_neg]
    intro hlt
    refine ha (x + (a - b.va x).toNat) ⟨by omega, by omega⟩ ?_
    rw [va_add, BitVec.ofNat_toNat, BitVec.setWidth_eq, BitVec.add_comm, BitVec.sub_add_cancel]

/-- The start of a block against the page that the scan found. -/
inductive Begins (b : BootmemData) (start : Word) (x : Nat) : Prop
  | page (hx : x = start.toNat * 4096)
  | tail (hoff : b.lastOffset ≠ 0) (hpos : b.lastPos.toNat + 1 = start.toNat)
      (hlo : b.lastPos.toNat * 4096 ≤ x) (hhi : x ≤ start.toNat * 4096)

/-- The cursor after a block that ends at `e`. -/
structure CursorAt (b : BootmemData) (e : Nat) : Prop where
  offset : b.lastOffset.toNat = e % 4096
  pos : e % 4096 ≠ 0 → b.lastPos.toNat = e / 4096

section

variable {s : Boot} {b : BootmemData} {start areasize : Word} {x size : Nat}

/-- The area that is taken for a block: free pages inside the node up to the end of the block. -/
structure Area (s : Boot) (start areasize : Word) (x size : Nat) : Prop where
  inside : start.toNat + areasize.toNat ≤ s.bdata.pages
  cover : x + size ≤ (start.toNat + areasize.toNat) * 4096
  clear : ∀ nr : Word, start.toNat ≤ nr.toNat → nr.toNat < start.toNat + areasize.toNat → s.oldBit nr = false

theorem Area.freePage (h : Area s start areasize x size) (hs : s.bdata.NodeOk) {p : Nat}
    (h1 : start.toNat ≤ p) (h2 : p < start.toNat + areasize.toNat) : s.FreePage p := by
  have hp : (BitVec.ofNat 32 p).toNat = p := by
    have := hs.pages_le.1
    have := h.inside
    rw [BitVec.toNat_ofNat, Nat.mod_eq_of_lt (by omega)]
  refine ⟨lt_of_lt_of_le h2 h.inside, h.clear _ ?_ ?_⟩ <;> rw [hp] <;> assumption

/-- A byte of the block lies in the area or in the page the last block ended in. -/
theorem Area.block_page (h : Area s start areasize x size) (hbegin : Begins s.bdata start x) {y : Nat}
    (hy : y ∈ blockSet x size) :
    (start.toNat ≤ y / 4096 ∧ y / 4096 < start.toNat + areasize.toNat) ∨
      (s.TailPage (y / 4096) ∧ y / 4096 < start.toNat) := by
  obtain ⟨h1, h2⟩ := hy
  have hcover := h.cover
  by_cases hpage : start.toNat ≤ y / 4096
  · exact .inl ⟨hpage, by omega⟩
  · cases hbegin with
    | page hx => omega
    | tail hoff hpos hlo hhi => exact .inr ⟨⟨hoff, by omega⟩, by omega⟩

/-- So does the end of the block, when it is inside a page. -/
theorem Area.end_page (h : Area s start areasize x size) (hbegin : Begins s.bdata start x)
    (hsize : 1 ≤ size) (hend : (x + size) % 4096 ≠ 0) :
    (start.toNat ≤ (x + size) / 4096 ∧ (x + size) / 4096 < start.toNat + areasize.toNat) ∨
      (s.TailPage ((x + size) / 4096) ∧ (x + size) / 4096 < start.toNat) := by
  have hcover := h.cover
  by_cases hpage : start.toNat ≤ (x + size) / 4096
  · exact .inl ⟨hpage, by omega⟩
  · cases hbegin with
    | page hx => omega
    | tail hoff hpos hlo hhi => exact .inr ⟨⟨hoff, by omega⟩, by omega⟩

/-- The area is reserved in the bitmap and the cursor is at the end of the block. -/
structure Taken (s t : Boot) (start areasize : Word) (x size : Nat) : Prop where
  node : SameNode s.bdata t.bdata
  reserved : ∀ p, p < s.bdata.pages → t.reserved p =
    if start.toNat ≤ p ∧ p < start.toNat + areasize.toNat then true else s.reserved p
  cursor : CursorAt t.bdata (x + size)

theorem Taken.free {t : Boot} (h : Taken s t start areasize x size) {p : Nat} (hp : t.FreePage p) :
    s.FreePage p ∧ ¬ (start.toNat ≤ p ∧ p < start.toNat + areasize.toNat) := by
  obtain ⟨hlt, hbit⟩ := hp
  rw [h.node.pages_eq] at hlt
  rw [h.reserved p hlt] at hbit
  split at hbit
  · cases hbit
  · rename_i hout
    exact ⟨⟨hlt, hbit⟩, hout⟩

theorem Taken.tail {t : Boot} (h : Taken s t start areasize x size) (harea : Area s start areasize x size)
    (hbegin : Begins s.bdata start x) (hsize : 1 ≤ size) {p : Nat} (hp : t.TailPage p) :
    p = (x + size) / 4096 ∧ (x + size) % 4096 ≠ 0 ∧
      ((start.toNat ≤ p ∧ p < start.toNat + areasize.toNat) ∨ (s.TailPage p ∧ p < start.toNat)) := by
  obtain ⟨hoff, hpos⟩ := hp
  have hend : (x + size) % 4096 ≠ 0 := fun hzero => hoff <| BitVec.eq_of_toNat_eq <| by
    rw [h.cursor.offset, hzero]
    rfl
  rw [h.cursor.pos hend] at hpos
  refine ⟨hpos, hend, ?_⟩
  rw [hpos]
  exact harea.end_page hbegin hsize hend

theorem Taken.bitmapByte {t : Boot} (h : Taken s t start areasize x size) {a : Word} :
    t.BitmapByte a ↔ s.BitmapByte a := by
  simp only [Boot.BitmapByte, h.node.pages_eq, h.node.map]

theorem Taken.safe {t : Boot} (h : Taken s t start areasize x size) (hs : s.Safe)
    (harea : Area s start areasize x size) (hbegin : Begins s.bdata start x) (hsize : 1 ≤ size) : t.Safe := by
  have htail := fun p hp => h.tail (p := p) harea hbegin hsize hp
  refine ⟨h.node.nodeOk hs.node, ?_, fun p hp => ?_, fun y hy => ?_⟩
  · rw [h.cursor.offset]
    exact Nat.mod_lt _ (by decide)
  · rw [h.node.pages_eq]
    obtain ⟨-, -, hin | ⟨hold, -⟩⟩ := htail p hp
    · exact lt_of_lt_of_le hin.2 harea.inside
    · exact hs.tail_lt p hold
  · rw [h.node.va_eq, h.bitmapByte]
    refine hs.bitmap y ?_
    rcases hy with hfree | hp
    · exact .inl (h.free hfree).1
    · obtain ⟨-, -, hin | ⟨hold, -⟩⟩ := htail _ hp
      · exact .inl (harea.freePage hs.node hin.1 hin.2)
      · exact .inr hold

theorem Taken.inv {t : Boot} (h : Taken s t start areasize x size) (hs : s.Inv)
    (harea : Area s start areasize x size) (hbegin : Begins s.bdata start x) (hsize : 1 ≤ size) : t.Inv := by
  have hsafe := h.safe hs.safe harea hbegin hsize
  refine ⟨hsafe.node, hsafe.offset_lt, fun p hp => ⟨hsafe.tail_lt p hp, ?_⟩, hsafe.bitmap⟩
  have hpage := hsafe.tail_lt p hp
  rw [h.node.pages_eq] at hpage
  rw [h.reserved p hpage]
  obtain ⟨-, -, hin | ⟨hold, hlt⟩⟩ := h.tail harea hbegin hsize hp
  · rw [if_pos hin]
  · rw [if_neg (by omega)]
    exact (hs.tail p hold).2

/-- The block comes out of the bytes that were available, and no byte becomes available. -/
theorem Taken.draws {t : Boot} (h : Taken s t start areasize x size) (hs : s.Safe)
    (harea : Area s start areasize x size) (hbegin : Begins s.bdata start x) (hsize : 1 ≤ size)
    (hfrom : x < start.toNat * 4096 → s.bdata.lastPos.toNat * 4096 + s.bdata.lastOffset.toNat ≤ x) :
    blockSet x size ⊆ s.avail ∧ t.avail ⊆ s.avail := by
  refine ⟨fun y hy => ?_, fun y hy => ?_⟩
  · rcases harea.block_page hbegin hy with hin | ⟨htail, hlt⟩
    · exact .inl (harea.freePage hs.node hin.1 hin.2)
    · have hpos := htail.2
      have := hfrom (by have := hy.1; omega)
      exact .inr ⟨htail, by have := hy.1; omega⟩
  · rcases hy with hfree | ⟨htail, hoff⟩
    · exact .inl (h.free hfree).1
    · rw [h.cursor.offset] at hoff
      obtain ⟨hp, -, hcase⟩ := h.tail harea hbegin hsize htail
      rcases hcase with hin | ⟨hold, hlt⟩
      · exact .inl (harea.freePage hs.node hin.1 hin.2)
      · have hpos := hold.2
        have := hfrom (by omega)
        exact .inr ⟨hold, by omega⟩

theorem Taken.carves {t : Boot} (h : Taken s t start areasize x size) (hs : s.Inv)
    (harea : Area s start areasize x size) (hbegin : Begins s.bdata start x) (hsize : 1 ≤ size)
    (hfrom : x < start.toNat * 4096 → s.bdata.lastPos.toNat * 4096 + s.bdata.lastOffset.toNat ≤ x) :
    Carves s t x size := by
  obtain ⟨hblock, hsub⟩ := h.draws hs.safe harea hbegin hsize hfrom
  refine ⟨hblock, fun y hy => ⟨hsub hy, fun hmem => ?_⟩⟩
  rcases hy with hfree | ⟨htail, hoff⟩
  · obtain ⟨hold, hout⟩ := h.free hfree
    rcases harea.block_page hbegin hmem with hin | ⟨htail, -⟩
    · exact hout hin
    · have hbit := (hs.tail _ htail).2
      rw [hold.2] at hbit
      cases hbit
  · rw [h.cursor.offset] at hoff
    have hp := (h.tail harea hbegin hsize htail).1
    have hend := hmem.2
    omega

/-- A block that was put at `x`, with its area reserved and cleared, whatever the page of the cursor was. -/
structure Put (s t : Boot) (start areasize : Word) (x size : Nat) : Prop where
  begins : Begins s.bdata start x
  area : Area s start areasize x size
  taken : Taken s t start areasize x size
  cleared : ∀ y ∈ blockSet x size, t.mem (s.bdata.va y) = 0
  frame : ∀ a, (∀ y ∈ blockSet x size, a ≠ s.bdata.va y) → ¬ s.BitmapByte a → t.mem a = s.mem a

theorem Put.inside {t : Boot} (h : Put s t start areasize x size) : x + size ≤ t.bdata.pages * 4096 := by
  rw [h.taken.node.pages_eq]
  exact h.area.cover.trans (Nat.mul_le_mul_right _ h.area.inside)

theorem Put.placed {t : Boot} (h : Put s t start areasize x size) (hs : s.Inv) (hsize : 1 ≤ size) :
    Placed s t x size := by
  refine ⟨h.taken.node, h.taken.inv hs h.area h.begins hsize, h.inside, fun p hp => ?_, h.cleared, h.frame⟩
  obtain ⟨hfree, hout⟩ := h.taken.free hp
  refine ⟨hfree, fun y hy hyp => ?_⟩
  rcases h.area.block_page h.begins hy with hpage | ⟨htail, -⟩
  · exact hout (hyp ▸ hpage)
  · have hset := (hs.tail _ htail).2
    rw [hyp, hfree.2] at hset
    cases hset

/-- The reserve loop and the clearing of the block. -/
theorem reserveArea_put (hs : s.Safe) (hsame : SameNode s.bdata b) (hbegin : Begins s.bdata start x)
    {sizeW : Word} (harea : Area s start areasize x sizeW.toNat) (hcursor : CursorAt b (x + sizeW.toNat)) :
    ∃ t, reserveArea { s with bdata := b } start areasize (s.bdata.va x) sizeW = .ret (some (s.bdata.va x)) t ∧
      Put s t start areasize x sizeW.toNat := by
  obtain ⟨hpages, hbytes⟩ := hs.node.pages_le
  have hin := harea.inside
  have hcover := harea.cover
  have hend : (start + areasize).toNat = start.toNat + areasize.toNat := by
    rw [BitVec.toNat_add, Nat.mod_eq_of_lt (by omega)]
  have hpasses : passes start (start + areasize) = areasize.toNat := by
    rw [passes, hend]
    omega
  -- the bits of the area are written first
  have hold : ∀ nr, Boot.oldBit { s with bdata := b } nr = s.oldBit nr := fun nr => by
    simp only [Boot.oldBit, hsame.map]
  obtain ⟨u, hu, hwritten⟩ := takeBits_ret { s with bdata := b } start areasize.toNat (by omega)
    fun nr h1 h2 => (hold nr).trans (harea.clear nr h1 h2)
  have hub : u.bdata = b := hwritten.bdata
  -- then the block is cleared, away from the bitmap
  obtain ⟨hcleared, hkept⟩ := @fill_block s.bdata u.mem x sizeW.toNat 0 (by omega)
  have hnotBitmap : ∀ a, s.BitmapByte a → ∀ y ∈ blockSet x sizeW.toNat, a ≠ s.bdata.va y := by
    rintro a hbyte y hy rfl
    refine hs.bitmap y ?_ hbyte
    rcases harea.block_page hbegin hy with hpage | ⟨htail, -⟩
    · exact .inl (harea.freePage hs.node hpage.1 hpage.2)
    · exact .inr htail
  obtain ⟨t, ht⟩ : ∃ t, u.memset (s.bdata.va x) 0 sizeW = t := ⟨_, rfl⟩
  have htmem : t.mem = fill u.mem (s.bdata.va x) 0 sizeW.toNat := by rw [← ht]; rfl
  have htb : t.bdata = b := by rw [← ht]; exact hub
  rw [← htmem] at hcleared hkept
  have htaken : Taken s t start areasize x sizeW.toNat := by
    refine ⟨htb ▸ hsame, fun p hp => ?_, htb ▸ hcursor⟩
    have hbyte : s.BitmapByte (bitByte s.bdata.nodeBootmemMap (BitVec.ofNat 32 p)) := by
      refine ⟨BitVec.ofNat 32 p, ?_, rfl⟩
      rw [BitVec.toNat_ofNat, Nat.mod_eq_of_lt (by omega)]
      exact hp
    have hbits : t.reserved p = u.reserved p := by
      rw [Boot.reserved, Boot.oldBit, bitAt, htb, hsame.map, hkept _ (hnotBitmap _ hbyte), Boot.reserved,
        Boot.oldBit, bitAt, hub, hsame.map]
    rw [hbits, hwritten.reserved (by omega), Boot.reserved, hold, ← Boot.reserved]
  refine ⟨t, by rw [reserveArea, hpasses, hu, ← ht], hbegin, harea, htaken, hcleared, fun a hblock hbit => ?_⟩
  refine (hkept a hblock).trans (hwritten.frame a fun nr h1 h2 hbyte => hbit ⟨nr, by omega, ?_⟩)
  rw [hbyte]
  simp only [hsame.map]

end

end XosKernel.Bootmem
