import XosKernel.BootmemBehind
import XosKernel.BootmemGoal

/-! Where a block lies, for every node, cursor, bitmap and size. The number of pages is computed in words: a size less
than a page below the word limit needs no page at all, and the block that is returned lies in pages that nobody has
reserved. A merge takes the rest of the cursor's page as it is, and the clearing of the block can reach the bits of
its own pages. -/

namespace XosKernel.Bootmem

open Memory Loop BootmemData

/-- The page of the node that holds a physical address. -/
def BootmemData.pageOf (b : BootmemData) (y : Nat) : Nat := y / 4096 - b.nodeBootStart.toNat / 4096

/-- A block that does not wrap, lies in the node and has its pages marked reserved. -/
structure Sound (s t : Boot) (a size : Word) : Prop where
  noWrap : a.toNat + size.toNat ≤ 2 ^ 32
  start_le : s.bdata.nodeBootStart.toNat ≤ (virtToPhys a).toNat
  end_le : (virtToPhys a).toNat + size.toNat ≤ s.bdata.nodeLowPfn.toNat * 4096
  reserved : ∀ y ∈ physBlock a size, t.reserved (s.bdata.pageOf y) = true

/-- The page of the cursor is a reserved page of the node that holds the start of the block. A cursor before page 0
is at the last page of the address space. -/
def Boot.CursorHolds (s : Boot) (size align : Word) : Prop :=
  (s.bdata.lastPos + 1 = 0 → s.bdata.nodeBootStart = 0 ∧ s.bdata.nodeLowPfn.toNat = 2 ^ 20 ∧
    (nextOffset s.bdata align).toNat + size.toNat ≤ 4096) ∧ s.reserved (s.bdata.lastPos.toNat % 2 ^ 20) = true

/-- What a block at the chosen page needs: a size whose pages do not wrap, a cursor's page that holds the start of a
merged block, a bitmap that is not cleared with the block, and an end below the addresses that are not mapped. -/
structure Boot.Holds (s : Boot) (size align start : Word) : Prop where
  fits : size.toNat + 4095 < 2 ^ 32
  cursor : s.Merges align start → nextOffset s.bdata align < pageSize → s.CursorHolds size align
  bitmap : ∀ y ∈ physBlock (s.blockAddr align start) size,
    bitByte s.bdata.nodeBootmemMap (BitVec.ofNat 32 (s.bdata.pageOf y)) ∉ byteSet (s.blockAddr align start) size
  mapped : (virtToPhys (s.blockAddr align start)).toNat < 2 ^ 30 →
    (virtToPhys (s.blockAddr align start)).toNat + size.toNat ≤ 2 ^ 30

/-- The block lies in the node, in pages that are reserved already or taken for it. -/
structure Boot.Inside (s : Boot) (size align start : Word) : Prop where
  start_le : s.bdata.nodeBootStart.toNat ≤ (virtToPhys (s.blockAddr align start)).toNat
  end_le : (virtToPhys (s.blockAddr align start)).toNat + size.toNat ≤ s.bdata.nodeLowPfn.toNat * 4096
  pages : ∀ y ∈ physBlock (s.blockAddr align start) size,
    (start.toNat ≤ s.bdata.pageOf y ∧ s.bdata.pageOf y < start.toNat + (s.takenArea size align start).toNat) ∨
      s.reserved (s.bdata.pageOf y) = true

section

variable {s t : Boot} {size align goal start : Word}

theorem fill_of_mem {m : Mem 32} {a c : Word} {v : BitVec 8} (h : c ∈ byteSet a size) :
    fill m a v size.toNat c = v := by
  rw [fill_apply]
  exact if_pos h

theorem fill_of_not_mem {m : Mem 32} {a c : Word} {v : BitVec 8} (h : c ∉ byteSet a size) :
    fill m a v size.toNat c = m c := by
  rw [fill_apply]
  exact if_neg h

/-- The bits after a block is returned. -/
theorem Ret.reserved_iff (h : Ret s t size align start) {p : Nat} (hp : p < 2 ^ 32)
    (hfit : start.toNat + (s.takenArea size align start).toNat < 2 ^ 32) : t.reserved p = true ↔
      bitByte s.bdata.nodeBootmemMap (BitVec.ofNat 32 p) ∉ byteSet (s.blockAddr align start) size ∧
        ((start.toNat ≤ p ∧ p < start.toNat + (s.takenArea size align start).toNat) ∨ s.reserved p = true) := by
  obtain ⟨u, hmap, hbits, hmem⟩ := h.reserved
  have hsum : (start + s.takenArea size align start).toNat = start.toNat + (s.takenArea size align start).toNat := by
    rw [BitVec.toNat_add, Nat.mod_eq_of_lt hfit]
  have hu := hbits (BitVec.ofNat 32 p)
  simp only [BitVec.le_def, BitVec.lt_def, hsum, ofNat_toNat_of_lt hp, Boot.oldBit, hmap] at hu
  rw [Boot.reserved, Boot.oldBit, bitAt, hmem, h.node.map]
  by_cases hin : bitByte s.bdata.nodeBootmemMap (BitVec.ofNat 32 p) ∈ byteSet (s.blockAddr align start) size
  · rw [fill_of_mem hin]
    refine iff_of_false (fun hbit => ?_) fun hnot => hnot.1 hin
    simp at hbit
  · rw [fill_of_not_mem hin, and_iff_right hin]
    rw [bitAt] at hu
    rw [hu, Boot.reserved]
    split
    · rename_i htaken
      exact iff_of_true rfl (.inl htaken)
    · rename_i htaken
      rw [or_iff_right htaken, Boot.oldBit]

/-- The number of pages that are taken for a merged block. -/
theorem toNat_takenArea_merged (hsize : size ≠ 0) (hwrap : size.toNat + 4095 < 2 ^ 32)
    (hmerges : s.Merges align start) (hoff : (nextOffset s.bdata align).toNat ≤ 4096) :
    (s.takenArea size align start).toNat = (size.toNat + (nextOffset s.bdata align).toNat + 4095) / 4096 - 1 := by
  have hne : size.toNat ≠ 0 := fun h => hsize (BitVec.eq_of_toNat_eq h)
  have hpage : pageSize.toNat = 4096 := rfl
  have hrest : (pageSize - nextOffset s.bdata align).toNat = 4096 - (nextOffset s.bdata align).toNat :=
    BitVec.toNat_sub_of_le (BitVec.le_def.mpr (by omega))
  rw [Boot.takenArea, if_pos hmerges]
  split
  · rename_i hless
    rw [BitVec.lt_def, hrest] at hless
    have hzero : (0 : Word).toNat = 0 := rfl
    rw [hzero]
    omega
  · rename_i hspills
    rw [BitVec.lt_def, hrest, Nat.not_lt] at hspills
    have hsub : (size - (pageSize - nextOffset s.bdata align)).toNat =
        size.toNat - (4096 - (nextOffset s.bdata align).toNat) := by
      rw [BitVec.toNat_sub_of_le (BitVec.le_def.mpr (by omega)), hrest]
    rw [spillArea, toNat_pageCount (by omega), hsub]
    omega

/-- A block that starts at the chosen page lies in the node. -/
theorem inside_of_page (hnode : s.bdata.NodeOk) (hsize : size ≠ 0) (hwrap : size.toNat + 4095 < 2 ^ 32)
    (hrun : s.FreeRun size start.toNat)
    (hpage : s.Merges align start → (nextOffset s.bdata align).toNat = 4096) :
    s.Inside size align start ∧ start.toNat + (s.takenArea size align start).toNat ≤ s.bdata.pages := by
  obtain ⟨hpages, hbytes⟩ := hnode.pages_le
  have hone := one_le_pageCount hsize
  have hin := hrun.1
  have haligned := hnode.aligned
  have hstart := hnode.start_le
  have hcount : pageCount size = (size.toNat + 4095) / 4096 := rfl
  have hlow := hnode.pages_end
  have haddr : (virtToPhys (s.blockAddr align start)).toNat = start.toNat * 4096 + s.bdata.nodeBootStart.toNat := by
    by_cases hmerges : s.Merges align start
    · rw [toNat_mergedAddr_mod hmerges, hpage hmerges]
      have hsum : 4096 + (2 ^ 32 - 4096) = 2 ^ 32 := rfl
      rw [Nat.add_assoc _ 4096, hsum, Nat.add_mod_right, Nat.mod_eq_of_lt (by omega)]
    · exact toNat_pageAddr hnode (by omega) hmerges
  have htaken : (s.takenArea size align start).toNat = pageCount size := by
    by_cases hmerges : s.Merges align start
    · rw [toNat_takenArea_merged hsize hwrap hmerges (hpage hmerges).le, hpage hmerges, hcount]
      omega
    · rw [Boot.takenArea, if_neg hmerges]
      exact toNat_pageCount hwrap
  refine ⟨⟨?_, ?_, fun y hy => .inl ?_⟩, by omega⟩
  · omega
  · omega
  · obtain ⟨hlo, hhi⟩ := hy
    rw [htaken, BootmemData.pageOf]
    omega

/-- A merged block whose cursor is before page 0 starts in the last page of the address space. -/
theorem inside_iff_of_wraps (hsize : size ≠ 0) (hwrap : size.toNat + 4095 < 2 ^ 32) (hnode : s.bdata.NodeOk)
    (hrun : s.FreeRun size start.toNat) (hmerges : s.Merges align start)
    (hless : (nextOffset s.bdata align).toNat < 4096) (hlast : s.bdata.lastPos + 1 = 0) :
    s.Inside size align start ↔ s.CursorHolds size align := by
  obtain ⟨hpages, hbytes⟩ := hnode.pages_le
  have hone := one_le_pageCount hsize
  have hin := hrun.1
  have haligned := hnode.aligned
  have hnodeStart := hnode.start_le
  have hne : size.toNat ≠ 0 := fun h => hsize (BitVec.eq_of_toNat_eq h)
  have hcount : pageCount size = (size.toNat + 4095) / 4096 := rfl
  have htaken := toNat_takenArea_merged hsize hwrap hmerges hless.le
  have haddr := toNat_mergedAddr_mod hmerges
  have hlow := hnode.pages_end
  have hzero : start.toNat = 0 := by rw [← hmerges.2.2, hlast]; rfl
  have hposMod : s.bdata.lastPos.toNat % 2 ^ 20 = 2 ^ 20 - 1 := by
    have hsum := congrArg BitVec.toNat hlast
    rw [BitVec.toNat_add, show (1 : Word).toNat = 1 from rfl, show (0 : Word).toNat = 0 from rfl] at hsum
    have hlt := s.bdata.lastPos.isLt
    omega
  rw [hzero, Nat.zero_mul, Nat.zero_add] at haddr
  rw [Boot.CursorHolds, imp_iff_right hlast, hposMod]
  constructor
  · rintro ⟨hge, hend, hall⟩
    have hstart : s.bdata.nodeBootStart.toNat = 0 := by
      rcases Nat.lt_or_ge s.bdata.nodeBootStart.toNat 4096 with hsmall | hbig
      · omega
      · have hsum : s.bdata.nodeBootStart.toNat + (nextOffset s.bdata align).toNat + (2 ^ 32 - 4096) =
            s.bdata.nodeBootStart.toNat - 4096 + (nextOffset s.bdata align).toNat + 2 ^ 32 := by omega
        rw [hsum, Nat.add_mod_right, Nat.mod_eq_of_lt (by omega)] at haddr
        omega
    rw [hstart, Nat.zero_add, Nat.mod_eq_of_lt (by omega)] at haddr
    have hpage := hall _ ⟨le_rfl, Nat.lt_add_of_pos_right (Nat.pos_of_ne_zero hne)⟩
    have hpageOf : s.bdata.pageOf (virtToPhys (s.blockAddr align start)).toNat = 2 ^ 20 - 1 := by
      rw [BootmemData.pageOf, hstart, haddr]
      omega
    rw [hpageOf, hzero, htaken] at hpage
    exact ⟨⟨BitVec.eq_of_toNat_eq hstart, by omega, by omega⟩, hpage.resolve_left (by omega)⟩
  · rintro ⟨⟨hstart, hall, hfit⟩, hset⟩
    have hstart : s.bdata.nodeBootStart.toNat = 0 := by rw [hstart]; rfl
    rw [hstart, Nat.zero_add, Nat.mod_eq_of_lt (by omega)] at haddr
    refine ⟨by omega, by omega, fun y hy => .inr ?_⟩
    obtain ⟨hlo, hhi⟩ := hy
    have hpageOf : s.bdata.pageOf y = 2 ^ 20 - 1 := by
      rw [BootmemData.pageOf, hstart]
      omega
    rw [hpageOf]
    exact hset

/-- Any other merged block starts in the page before the chosen one. -/
theorem inside_iff_of_next (hsize : size ≠ 0) (hwrap : size.toNat + 4095 < 2 ^ 32) (hnode : s.bdata.NodeOk)
    (hrun : s.FreeRun size start.toNat) (hmerges : s.Merges align start)
    (hless : (nextOffset s.bdata align).toNat < 4096) (hlast : s.bdata.lastPos + 1 ≠ 0) :
    s.Inside size align start ↔ s.CursorHolds size align := by
  obtain ⟨hpages, hbytes⟩ := hnode.pages_le
  have hin := hrun.1
  have haligned := hnode.aligned
  have hnodeStart := hnode.start_le
  have hne : size.toNat ≠ 0 := fun h => hsize (BitVec.eq_of_toNat_eq h)
  have hcount : pageCount size = (size.toNat + 4095) / 4096 := rfl
  have htaken := toNat_takenArea_merged hsize hwrap hmerges hless.le
  have hlow := hnode.pages_end
  have hnext : start.toNat = s.bdata.lastPos.toNat + 1 := by
    rw [← hmerges.2.2]
    refine toNat_succ (Nat.lt_of_le_of_ne s.bdata.lastPos.isLt fun hmax => hlast (BitVec.eq_of_toNat_eq ?_))
    rw [BitVec.toNat_add, show (1 : Word).toNat = 1 from rfl, hmax]
    rfl
  have hposMod : s.bdata.lastPos.toNat % 2 ^ 20 = s.bdata.lastPos.toNat := Nat.mod_eq_of_lt (by omega)
  have haddr := toNat_mergedAddr hnode (by omega) hmerges hless.le (by omega)
  rw [Boot.CursorHolds, hposMod]
  constructor
  · rintro ⟨-, -, hall⟩
    have hpage := hall _ ⟨le_rfl, Nat.lt_add_of_pos_right (Nat.pos_of_ne_zero hne)⟩
    have hpageOf : s.bdata.pageOf (virtToPhys (s.blockAddr align start)).toNat = s.bdata.lastPos.toNat := by
      rw [BootmemData.pageOf, haddr]
      omega
    rw [hpageOf] at hpage
    exact ⟨fun h => absurd h hlast, hpage.resolve_left (by omega)⟩
  · rintro ⟨-, hset⟩
    refine ⟨by omega, by omega, fun y hy => ?_⟩
    obtain ⟨hlo, hhi⟩ := hy
    by_cases hpage : s.bdata.pageOf y = s.bdata.lastPos.toNat
    · rw [hpage]
      exact .inr hset
    · rw [BootmemData.pageOf] at hpage ⊢
      exact .inl (by omega)

/-- A merged block that starts in the page of the cursor. -/
theorem inside_iff_of_merges (hnode : s.bdata.NodeOk) (hsize : size ≠ 0) (hwrap : size.toNat + 4095 < 2 ^ 32)
    (hrun : s.FreeRun size start.toNat) (hmerges : s.Merges align start)
    (hless : (nextOffset s.bdata align).toNat < 4096) : (s.Inside size align start ↔ s.CursorHolds size align) ∧
      start.toNat + (s.takenArea size align start).toNat ≤ s.bdata.pages := by
  have htaken := toNat_takenArea_merged hsize hwrap hmerges hless.le
  have hcount : pageCount size = (size.toNat + 4095) / 4096 := rfl
  have hin := hrun.1
  refine ⟨?_, by omega⟩
  by_cases hlast : s.bdata.lastPos + 1 = 0
  · exact inside_iff_of_wraps hsize hwrap hnode hrun hmerges hless hlast
  · exact inside_iff_of_next hsize hwrap hnode hrun hmerges hless hlast

/-- Where the block lies depends on the page of the cursor only. -/
theorem inside_iff (hnode : s.bdata.NodeOk) (hsize : size ≠ 0) (hwrap : size.toNat + 4095 < 2 ^ 32)
    (hrun : s.FreeRun size start.toNat) (hoff : s.Merges align start → (nextOffset s.bdata align).toNat ≤ 4096) :
    (s.Inside size align start ↔
        (s.Merges align start → nextOffset s.bdata align < pageSize → s.CursorHolds size align)) ∧
      start.toNat + (s.takenArea size align start).toNat ≤ s.bdata.pages := by
  have hpage : pageSize.toNat = 4096 := rfl
  by_cases hcursor : s.Merges align start ∧ nextOffset s.bdata align < pageSize
  · obtain ⟨hmerges, hless⟩ := hcursor
    rw [imp_iff_right hmerges, imp_iff_right hless]
    exact inside_iff_of_merges hnode hsize hwrap hrun hmerges (BitVec.lt_def.mp hless)
  · have hfull : s.Merges align start → (nextOffset s.bdata align).toNat = 4096 := fun hmerges => by
      have hge := BitVec.le_def.mp (BitVec.not_lt.mp fun hless => hcursor ⟨hmerges, hless⟩)
      have hle := hoff hmerges
      omega
    obtain ⟨hinside, hfit⟩ := inside_of_page hnode hsize hwrap hrun hfull
    exact ⟨iff_of_true hinside fun hmerges hless => absurd ⟨hmerges, hless⟩ hcursor, hfit⟩

/-- The virtual address that a physical address has. -/
theorem toNat_eq_phys (a : Word) : a.toNat = ((virtToPhys a).toNat + 0xC0000000) % 2 ^ 32 := by
  have hback : a = virtToPhys a + pageOffset := by rw [virtToPhys, BitVec.sub_add_cancel]
  have hoffset : pageOffset.toNat = 0xC0000000 := rfl
  conv_lhs => rw [hback]
  rw [BitVec.toNat_add, hoffset]

/-- A block in the node wraps just when it reaches from the addresses that are mapped into those that are not. -/
theorem noWrap_iff {a : Word} (h : (virtToPhys a).toNat + size.toNat ≤ 2 ^ 32) : a.toNat + size.toNat ≤ 2 ^ 32 ↔
    ((virtToPhys a).toNat < 2 ^ 30 → (virtToPhys a).toNat + size.toNat ≤ 2 ^ 30) := by
  have haddr := toNat_eq_phys a
  rcases Nat.lt_or_ge (virtToPhys a).toNat (2 ^ 30) with hlow | hhigh
  · rw [Nat.mod_eq_of_lt (by omega)] at haddr
    rw [haddr, imp_iff_right hlow]
    omega
  · have hlt := (virtToPhys a).isLt
    have hsum : (virtToPhys a).toNat + 0xC0000000 = (virtToPhys a).toNat - 2 ^ 30 + 2 ^ 32 := by omega
    rw [hsum, Nat.add_mod_right, Nat.mod_eq_of_lt (by omega)] at haddr
    exact iff_of_true (by omega) fun hlow => absurd hlow (Nat.not_lt.mpr hhigh)

/-- A block that does not wrap is too small for its pages to wrap. -/
theorem Sound.fits {a : Word} (h : Sound s t a size) (hnode : s.bdata.NodeOk) : size.toNat + 4095 < 2 ^ 32 := by
  by_contra hbig
  have haddr := toNat_eq_phys a
  have hwrap := h.noWrap
  have hend := h.end_le
  have hlow := hnode.low_le
  have hlt := size.isLt
  rcases Nat.lt_or_ge ((virtToPhys a).toNat + 0xC0000000) (2 ^ 32) with hmapped | hunmapped
  · rw [Nat.mod_eq_of_lt hmapped] at haddr
    omega
  · omega

theorem pageOf_lt (b : BootmemData) {y : Nat} (hy : y < 2 ^ 32) : b.pageOf y < 2 ^ 32 := by
  rw [BootmemData.pageOf]
  omega

/-- A block that is returned is as it should be just when it finds what it needs. -/
theorem Ret.sound_iff (h : Ret s t size align start) (hnode : s.bdata.NodeOk) (hsize : size ≠ 0)
    (hsuits : s.Suits size align start) (hstops : ¬ s.MergeStops size align start) :
    Sound s t (s.blockAddr align start) size ↔ s.Holds size align start := by
  have hoff : s.Merges align start → (nextOffset s.bdata align).toNat ≤ 4096 := fun hmerges => by
    by_contra hover
    exact hstops ⟨hmerges, .inl (BitVec.lt_def.mpr (Nat.not_le.mp hover))⟩
  have hlow := hnode.low_le
  -- both sides say that the pages of the size do not wrap
  suffices hiff : size.toNat + 4095 < 2 ^ 32 →
      (Sound s t (s.blockAddr align start) size ↔ s.Holds size align start) by
    exact ⟨fun hsound => (hiff (hsound.fits hnode)).mp hsound, fun hholds => (hiff hholds.fits).mpr hholds⟩
  intro hwrap
  have hrun := (fits_iff_freeRun hnode.nodeRange hsize hwrap start).mp ⟨hsuits.2.1, hsuits.2.2⟩
  obtain ⟨hinside, hfit⟩ := inside_iff hnode hsize hwrap hrun hoff
  have hpages := hnode.pages_le.1
  constructor
  · intro hsound
    have hend := hsound.end_le
    have hbits : ∀ y ∈ physBlock (s.blockAddr align start) size, _ := fun y hy =>
      (h.reserved_iff (pageOf_lt s.bdata (by have hlt := hy.2; omega)) (by omega)).mp (hsound.reserved y hy)
    refine ⟨hwrap, hinside.mp ⟨hsound.start_le, hend, fun y hy => (hbits y hy).2⟩, fun y hy => (hbits y hy).1, ?_⟩
    exact (noWrap_iff (by omega)).mp hsound.noWrap
  · intro hholds
    have hin := hinside.mpr hholds.cursor
    have hend := hin.end_le
    refine ⟨(noWrap_iff (by omega)).mpr hholds.mapped, hin.start_le, hend, fun y hy => ?_⟩
    exact (h.reserved_iff (pageOf_lt s.bdata (by have hlt := hy.2; omega)) (by omega)).mpr
      ⟨hholds.bitmap y hy, hin.pages y hy⟩

/-- **Where a block lies**: every block that is returned does not wrap, lies in the node and has its pages reserved just
when the page that is chosen, unless a merge at it comes to a `BUG`, gives the block what it needs. -/
theorem allocBootmemCore_sound_iff (hnode : s.bdata.NodeOk) (hsize : size ≠ 0) (halign : align.toNat.isPowerOfTwo)
    (goal : Word) :
    (∀ a t, allocBootmemCore s size align goal = .ret (some a) t → Sound s t a size) ↔
      ∀ start, s.Chooses size align goal start → ¬ s.MergeStops size align start → s.Holds size align start := by
  have hspec := allocBootmemCore_callSpec (s := s) goal hsize halign (.inl hnode.aligned)
  generalize allocBootmemCore s size align goal = o at hspec
  cases hspec with
  | block start t hchooses hret hstops =>
      have hiff := hret.sound_iff hnode hsize hchooses.suits hstops
      constructor
      · intro hsound start' hchooses' _
        rw [hchooses'.unique hchooses]
        exact hiff.mp (hsound _ t rfl)
      · intro hholds a t' heq
        obtain ⟨haddr, rfl⟩ := Outcome.ret.inj heq
        rw [← Option.some.inj haddr]
        exact hiff.mpr (hholds start hchooses hstops)
  | bug start t hchooses hstops =>
      refine iff_of_true (fun a t h => by cases h) fun start' hchooses' hnot => absurd ?_ hnot
      rw [hchooses'.unique hchooses]
      exact hstops
  | null hnone => exact iff_of_true (fun a t h => by cases h) fun start hchooses => absurd hchooses.suits (hnone start)
  | hang hnone => exact iff_of_true (fun a t h => by cases h) fun start hchooses => absurd hchooses.suits (hnone start)

end

/-- A block in the first page of eight free ones, whose bitmap lies behind them. -/
theorem allocBootmemCore_sound_page_zero : ∃ s,
    (initBootmemCore bootStart 0x100 0 8).2.call (.free 0 0x8000) = .ret none s ∧
      ∀ a t, allocBootmemCore s 100 16 0 = .ret (some a) t → Sound s t a 100 := by
  obtain ⟨s, hfree, hbdata, hclear⟩ := exists_freeNode
  have hpages : s.bdata.pages = 8 := by rw [hbdata]; rfl
  have hstart : s.bdata.nodeBootStart = 0 := by rw [hbdata]; rfl
  have hnode : s.bdata.NodeOk := by rw [hbdata]; exact ⟨by decide, by decide, by decide⟩
  have hmerges : ¬ s.Merges 16 0 := fun h => h.2.1 (by rw [hbdata]; rfl)
  have hrun : s.FreeRun 100 0 := ⟨by rw [hpages]; decide, fun p _ hhi => hclear p (lt_of_lt_of_le hhi (by decide))⟩
  have hfirst : s.Chooses 100 16 0 0 := by
    have hsuits := (fits_iff_freeRun hnode.nodeRange (by decide) (by decide) 0).mpr hrun
    have hpreferred : s.bdata.preferred 16 0 = 0 := by rw [hbdata]; rfl
    refine .inl ⟨⟨⟨?_, hsuits⟩, BitVec.le_def.mpr (by rw [hpreferred])⟩, fun i _ => BitVec.le_def.mpr (Nat.zero_le _)⟩
    rw [hstart]
    exact Nat.dvd_zero _
  refine ⟨s, hfree, (allocBootmemCore_sound_iff hnode (by decide) ⟨4, rfl⟩ 0).mpr fun start hchooses _ => ?_⟩
  rw [hchooses.unique hfirst]
  have haddr : s.blockAddr 16 0 = 0xC0000000 := by
    rw [Boot.blockAddr, if_neg hmerges, hstart]
    rfl
  refine ⟨by decide, fun h => absurd h hmerges, ?_, ?_⟩
  · rw [haddr]
    rintro y ⟨-, hhi⟩
    have hphys : (virtToPhys 0xC0000000).toNat + (100 : Word).toNat = 100 := rfl
    have hpage : s.bdata.pageOf y = 0 := by
      rw [BootmemData.pageOf]
      omega
    rw [hpage, hbdata]
    show ¬ (bitByte 0xC0100000 0 - 0xC0000000 : Word).toNat < (100 : Word).toNat
    decide
  · rw [haddr]
    decide

/-- A size less than a page below the word limit: no page is taken for a block that is longer than the node. -/
theorem allocBootmemCore_size_wraps : ∃ s t,
    (initBootmemCore bootStart 0x100 0 8).2.call (.free 0 0x8000) = .ret none s ∧
      allocBootmemCore s 0xFFFFF001 16 0 = .ret (some 0xC0000000) t ∧ ¬ Sound s t 0xC0000000 0xFFFFF001 := by
  have hrun : ((initBootmemCore bootStart 0x100 0 8).2.replay [.free 0 0x8000]).any (fun r =>
      r.1 == [(.free 0 0x8000, none)] && r.2.bdata.nodeLowPfn == 8 &&
        (allocBootmemCore r.2 0xFFFFF001 16 0).returns (fun a => a == some 0xC0000000)) = true := by decide +kernel
  obtain ⟨⟨es, s⟩, hreplay, hvalues⟩ := (Option.any_eq_true _ _).mp hrun
  simp only [Bool.and_eq_true, beq_iff_eq] at hvalues
  obtain ⟨⟨hes, hlow⟩, hreturns⟩ := hvalues
  obtain ⟨es', u, r, hinit, hfree, heq⟩ := Boot.replay_cons hreplay
  cases hinit
  rw [heq, List.cons.injEq, Prod.mk.injEq] at hes
  rw [hes.1.2] at hfree
  obtain ⟨a, t, halloc, hvalue⟩ := Outcome.exists_of_returns hreturns
  obtain rfl := eq_of_beq hvalue
  refine ⟨s, t, hfree, halloc, fun hsound => ?_⟩
  have hend := hsound.end_le
  rw [hlow] at hend
  exact absurd hend (by decide)

end XosKernel.Bootmem
