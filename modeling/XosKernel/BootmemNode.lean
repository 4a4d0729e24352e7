import XosKernel.BootmemBits
import XosKernel.WordAlign

/-! The node of the boot-time allocator in natural numbers. Pages and bytes are counted from the start of
the node, so page `p` holds the bytes `4096 * p` to `4096 * p + 4095`; `va` is the virtual address of a
byte. `avail` is what the allocator may still hand out: the free pages and the tail of the page that
the last block ended in. `Inv` is the invariant that every allocation keeps. -/

namespace XosKernel.Bootmem

open Memory

namespace BootmemData

/-- The node is a range of pages of the 32-bit physical address space. -/
structure NodeOk (b : BootmemData) : Prop where
  aligned : b.nodeBootStart.toNat % 4096 = 0
  start_le : b.nodeBootStart.toNat / 4096 ≤ b.nodeLowPfn.toNat
  low_le : b.nodeLowPfn.toNat ≤ 2 ^ 20

/-- The number of pages of the node. -/
def pages (b : BootmemData) : Nat := b.nodeLowPfn.toNat - b.nodeBootStart.toNat / 4096

/-- The virtual address of a byte of the node. -/
def va (b : BootmemData) (x : Nat) : Word := physToVirt (b.nodeBootStart + BitVec.ofNat 32 x)

/-- Two states of one node, which may differ in the cursor. -/
structure SameNode (b c : BootmemData) : Prop where
  start : c.nodeBootStart = b.nodeBootStart
  low : c.nodeLowPfn = b.nodeLowPfn
  map : c.nodeBootmemMap = b.nodeBootmemMap

theorem SameNode.refl (b : BootmemData) : SameNode b b := ⟨rfl, rfl, rfl⟩

theorem SameNode.trans {b c d : BootmemData} (hbc : SameNode b c) (hcd : SameNode c d) : SameNode b d :=
  ⟨hcd.start.trans hbc.start, hcd.low.trans hbc.low, hcd.map.trans hbc.map⟩

theorem SameNode.nodeOk {b c : BootmemData} (h : SameNode b c) (hb : b.NodeOk) : c.NodeOk := by
  refine ⟨?_, ?_, ?_⟩
  · rw [h.start]
    exact hb.aligned
  · rw [h.start, h.low]
    exact hb.start_le
  · rw [h.low]
    exact hb.low_le

theorem SameNode.pages_eq {b c : BootmemData} (h : SameNode b c) : c.pages = b.pages := by
  rw [pages, pages, h.start, h.low]

theorem SameNode.va_eq {b c : BootmemData} (h : SameNode b c) (x : Nat) : c.va x = b.va x := by
  rw [va, va, h.start]

theorem NodeOk.pages_le {b : BootmemData} (h : b.NodeOk) :
    b.pages ≤ 2 ^ 20 ∧ b.nodeBootStart.toNat + b.pages * 4096 ≤ 2 ^ 32 := by
  have := h.aligned
  have := h.start_le
  have := h.low_le
  rw [pages]
  omega

/-- The last page of a node ends where the node ends. -/
theorem NodeOk.pages_end {b : BootmemData} (h : b.NodeOk) :
    b.pages * 4096 + b.nodeBootStart.toNat = b.nodeLowPfn.toNat * 4096 := by
  have haligned := h.aligned
  have hstart := h.start_le
  rw [pages]
  omega

theorem va_add (b : BootmemData) (x k : Nat) : b.va (x + k) = b.va x + BitVec.ofNat 32 k := by
  rw [va, va, physToVirt, physToVirt, BitVec.ofNat_add]
  ac_rfl

theorem va_sub {b : BootmemData} {x y : Nat} (hxy : x ≤ y) : b.va y - b.va x = BitVec.ofNat 32 (y - x) := by
  obtain ⟨k, rfl⟩ := Nat.exists_eq_add_of_le hxy
  rw [va_add, BitVec.add_comm, BitVec.add_sub_cancel, Nat.add_sub_cancel_left]

theorem va_toNat_sub {b : BootmemData} {x y : Nat} (hxy : x ≤ y) (hy : y < 2 ^ 32) :
    (b.va y - b.va x).toNat = y - x := by
  rw [va_sub hxy, BitVec.toNat_ofNat, Nat.mod_eq_of_lt (lt_of_le_of_lt (Nat.sub_le y x) hy)]

theorem va_toNat_sub_of_lt {b : BootmemData} {x y : Nat} (hxy : x < y) (hy : y < 2 ^ 32) :
    (b.va x - b.va y).toNat = 2 ^ 32 - (y - x) := by
  have hneg : b.va x - b.va y = -(b.va y - b.va x) := by
    rw [BitVec.neg_sub, BitVec.add_comm, BitVec.sub_eq_add_neg]
  rw [hneg, BitVec.toNat_neg, va_toNat_sub (Nat.le_of_lt hxy) hy, Nat.mod_eq_of_lt (by omega)]

theorem va_injective {b : BootmemData} {x y : Nat} (hx : x < 2 ^ 32) (hy : y < 2 ^ 32)
    (h : b.va x = b.va y) : x = y := by
  have hzero : (b.va x - b.va x).toNat = 0 := by rw [BitVec.sub_self]; rfl
  rcases Nat.le_total x y with hxy | hyx
  · have hsub := va_toNat_sub (b := b) hxy hy
    rw [← h, hzero] at hsub
    omega
  · have hsub := va_toNat_sub (b := b) hyx hx
    rw [← h, hzero] at hsub
    omega

end BootmemData

/-- The bit of a page. -/
def Boot.reserved (s : Boot) (p : Nat) : Bool := s.oldBit (BitVec.ofNat 32 p)

/-- The page is free in the bitmap. -/
def Boot.FreePage (s : Boot) (p : Nat) : Prop := p < s.bdata.pages ∧ s.reserved p = false

/-- The last block ended inside this page. -/
def Boot.TailPage (s : Boot) (p : Nat) : Prop := s.bdata.lastOffset ≠ 0 ∧ p = s.bdata.lastPos.toNat

/-- The bytes that can still be handed out. -/
def Boot.avail (s : Boot) : Set Nat :=
  {x | s.FreePage (x / 4096) ∨ (s.TailPage (x / 4096) ∧ s.bdata.lastOffset.toNat ≤ x % 4096)}

/-- The address holds a part of the bitmap. -/
def Boot.BitmapByte (s : Boot) (a : Word) : Prop :=
  ∃ nr : Word, nr.toNat < s.bdata.pages ∧ a = bitByte s.bdata.nodeBootmemMap nr

/-- The invariant: the cursor is in a reserved page of the node, and no page that a block can be put in
holds a part of the bitmap. -/
structure Boot.Inv (s : Boot) : Prop where
  node : s.bdata.NodeOk
  offset_lt : s.bdata.lastOffset.toNat < 4096
  tail : ∀ p, s.TailPage p → p < s.bdata.pages ∧ s.reserved p = true
  bitmap : ∀ x, s.FreePage (x / 4096) ∨ s.TailPage (x / 4096) → ¬ s.BitmapByte (s.bdata.va x)

/-- The part of the invariant that does not say what the cursor's page is: it may have been freed. -/
structure Boot.Safe (s : Boot) : Prop where
  node : s.bdata.NodeOk
  offset_lt : s.bdata.lastOffset.toNat < 4096
  tail_lt : ∀ p, s.TailPage p → p < s.bdata.pages
  bitmap : ∀ x, s.FreePage (x / 4096) ∨ s.TailPage (x / 4096) → ¬ s.BitmapByte (s.bdata.va x)

theorem Boot.Inv.safe {s : Boot} (h : s.Inv) : s.Safe :=
  ⟨h.node, h.offset_lt, fun p hp => (h.tail p hp).1, h.bitmap⟩

theorem reserved_toNat (s : Boot) (nr : Word) : s.reserved nr.toNat = s.oldBit nr := by
  rw [Boot.reserved, BitVec.ofNat_toNat, BitVec.setWidth_eq]

theorem BitsWritten.reserved {s t : Boot} {lo hi : Nat} {value : Bool} (h : BitsWritten s t lo hi value)
    {p : Nat} (hp : p < 2 ^ 32) :
    t.reserved p = if lo ≤ p ∧ p < hi then value else s.reserved p := by
  rw [Boot.reserved, h.bits, BitVec.toNat_ofNat, Nat.mod_eq_of_lt hp, Boot.reserved]

end XosKernel.Bootmem
