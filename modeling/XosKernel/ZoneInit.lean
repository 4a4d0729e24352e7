import XosKernel.WordAlign
import XosKernel.ZonePages

/-! `free_area_init_core` on a node that starts at page 0, with any allocator that hands out blocks apart from one
another. The loop over the zones is followed zone by zone, and in each zone the loop over its free areas. -/

namespace XosKernel.Zone

open Memory Loop

variable {σ : Type}

/-! ### The allocator -/

/-- A byte of a block, which is given by its address and its size. -/
def InBlock (block : Word × Word) (b : Word) : Prop := (b - block.1).toNat < block.2.toNat

/-- A block of `size` bytes at `a` is handed out, after `blocks`. -/
structure Grants (m : Mem 32) (blocks : List (Word × Word)) (size a : Word) (m' : Mem 32) : Prop where
  fits : a.toNat + size.toNat ≤ 2 ^ 32
  apart : ∀ block ∈ blocks, ∀ b, InBlock (a, size) b → ¬ InBlock block b
  zeroed : ∀ b, InBlock (a, size) b → m' b = 0
  kept : ∀ block ∈ blocks, ∀ b, InBlock block b → m' b = m b

/-- An allocator that returns disjoint zeroed blocks. `Owns` says which blocks it has handed out. -/
def Serves (alloc : NodeAllocator σ) (Owns : σ → List (Word × Word) → Prop) : Prop :=
  ∀ m boot blocks size a m' boot', Owns boot blocks → alloc m boot size = some (a, m', boot') →
    Owns boot' ((a, size) :: blocks) ∧ Grants m blocks size a m'

/-- From `m` to `m'` only the blocks and the bytes of the allocator are written. -/
def KeptOutside (Private : Word → Prop) (blocks : List (Word × Word)) (m m' : Mem 32) : Prop :=
  ∀ b, ¬ Private b → (∀ block ∈ blocks, ¬ InBlock block b) → m' b = m b

/-- An allocator that may keep its data in the memory and, for a size whose number of pages does not wrap, returns
disjoint zeroed blocks. `Owns` is a statement about the memory, which a write into the blocks does not disturb. -/
structure ServesFrom (alloc : NodeAllocator σ) (Owns : Mem 32 → σ → List (Word × Word) → Prop)
    (Private : Word → Prop) : Prop where
  grant : ∀ m boot blocks size a m' boot', size.toNat + 4095 < 2 ^ 32 → Owns m boot blocks →
    alloc m boot size = some (a, m', boot') →
      Owns m' boot' ((a, size) :: blocks) ∧ Grants m blocks size a m' ∧ KeptOutside Private ((a, size) :: blocks) m m'
  write : ∀ m m' boot blocks, Owns m boot blocks → (∀ b, (∀ block ∈ blocks, ¬ InBlock block b) → m' b = m b) →
    Owns m' boot blocks

/-- The only stop is an allocation that does not succeed. -/
abbrev OutOfMemory (e : Stop) : Prop := e = .noMemory

/-- The allocation that does not succeed is one of a list of sizes, the last one first, and the blocks before it were
handed out. -/
def Refuses (alloc : NodeAllocator σ) (Owns : Mem 32 → σ → List (Word × Word) → Prop) (sizes : List Word) (e : Stop) :
    Prop :=
  OutOfMemory e ∧ ∃ m boot blocks size, Owns m boot blocks ∧ alloc m boot size = none ∧
    size :: blocks.map Prod.snd <:+ sizes

section

variable {Private : Word → Prop} {blocks blocks' : List (Word × Word)} {m m' m'' : Mem 32}

theorem KeptOutside.refl (Private : Word → Prop) (blocks : List (Word × Word)) (m : Mem 32) :
    KeptOutside Private blocks m m := fun _ _ _ => rfl

theorem KeptOutside.trans (h : KeptOutside Private blocks m m') (h' : KeptOutside Private blocks' m' m'')
    (hgrown : ∀ block ∈ blocks, block ∈ blocks') : KeptOutside Private blocks' m m'' := fun b hb hout =>
  (h' b hb hout).trans (h b hb fun block hblock => hout block (hgrown block hblock))

end

section

variable {alloc : NodeAllocator σ} {Owns : Mem 32 → σ → List (Word × Word) → Prop} {Private : Word → Prop}
  {blocks : List (Word × Word)} {s : Kernel σ} {size : Word} {sizes : List Word}

/-- An allocator whose data are not in the memory. -/
theorem Serves.servesFrom {Owns : σ → List (Word × Word) → Prop} (h : Serves alloc Owns) :
    ServesFrom alloc (fun _ => Owns) fun _ => True := by
  refine ⟨fun m boot blocks size a m' boot' _ howns halloc => ?_, fun _ _ _ _ howns _ => howns⟩
  obtain ⟨howns', hgrants⟩ := h m boot blocks size a m' boot' howns halloc
  exact ⟨howns', hgrants, fun _ hb => absurd trivial hb⟩

theorem allocBootmemNode_ends (hserves : ServesFrom alloc Owns Private) (howns : Owns s.mem s.boot blocks)
    (hsize : size.toNat + 4095 < 2 ^ 32) (hnext : size :: blocks.map Prod.snd <:+ sizes) :
    Ends (Refuses alloc Owns sizes) (fun r => ∃ m' boot', alloc s.mem s.boot size = some (r.1, m', boot') ∧
      r.2 = { s with mem := m', boot := boot' } ∧ Owns m' boot' ((r.1, size) :: blocks) ∧
      Grants s.mem blocks size r.1 m' ∧ KeptOutside Private ((r.1, size) :: blocks) s.mem m')
      (allocBootmemNode alloc s size) := by
  unfold allocBootmemNode
  cases halloc : alloc s.mem s.boot size with
  | none => exact ⟨rfl, s.mem, s.boot, blocks, size, howns, halloc, hnext⟩
  | some r =>
      obtain ⟨a, m', boot'⟩ := r
      exact ⟨m', boot', rfl, rfl, hserves.grant _ _ _ _ _ _ _ hsize howns halloc⟩

end

/-! ### The free areas of a zone -/

/-- `LONG_ALIGN` rounds up to words. -/
theorem toNat_longAlign {x : Word} (hx : x.toNat + 3 < 2 ^ 32) : (longAlign x).toNat = (x.toNat + 3) / 4 * 4 := by
  have hfour : (4 : Word).toNat.isPowerOfTwo := ⟨2, rfl⟩
  have hsum : (x + 4 - 1).toNat = x.toNat + 3 := by
    rw [BitVec.sub_eq_add_neg, BitVec.add_assoc, BitVec.toNat_add]
    exact Nat.mod_eq_of_lt hx
  rw [longAlign, Word.toNat_and_not_sub_one hfour, hsum]
  rfl

/-- The bytes of a bitmap before they are rounded up. -/
theorem toNat_bitmapBytes (size : Word) (i : Nat) :
    ((size - 1) >>> (i + 4) + 1).toNat = (size - 1).toNat / 2 ^ (i + 4) + 1 ∧
      (size - 1).toNat / 2 ^ (i + 4) < 2 ^ 28 := by
  have hlt := (size - 1).isLt
  have hpages : (size - 1).toNat / 2 ^ (i + 4) < 2 ^ 28 :=
    calc (size - 1).toNat / 2 ^ (i + 4) ≤ (size - 1).toNat / 2 ^ 4 :=
          Nat.div_le_div_left (Nat.pow_le_pow_right (by decide) (by omega)) (by decide)
      _ < 2 ^ 28 := by omega
  refine ⟨?_, hpages⟩
  rw [BitVec.toNat_add, BitVec.toNat_ushiftRight, Nat.shiftRight_eq_div_pow]
  exact Nat.mod_eq_of_lt (Nat.add_lt_add_right hpages 1 |>.trans (by decide))

theorem toNat_bitmapSize (size : Word) (i : Nat) :
    (bitmapSize size i).toNat = ((size - 1).toNat / 2 ^ (i + 4) + 4) / 4 * 4 := by
  obtain ⟨hbytes, hlt⟩ := toNat_bitmapBytes size i
  rw [bitmapSize, toNat_longAlign (by omega), hbytes]

/-- The bitmaps are small. -/
theorem bitmapSize_lt (size : Word) (i : Nat) : (bitmapSize size i).toNat + 4095 < 2 ^ 32 := by
  have hlt := (toNat_bitmapBytes size i).2
  rw [toNat_bitmapSize]
  omega

/-- The sizes of the bitmaps of a zone before order `i`, the last one first. -/
def areaSizes (size : Word) : Nat → List Word
  | 0 => []
  | i + 1 => if i = maxOrder - 1 then areaSizes size i else bitmapSize size i :: areaSizes size i

theorem areaSizes_suffix (size : Word) {i n : Nat} (h : i ≤ n) : areaSizes size i <:+ areaSizes size n := by
  induction h with
  | refl => exact List.suffix_rfl
  | @step n _ ih =>
      refine ih.trans ?_
      rw [areaSizes]
      split
      · exact List.suffix_rfl
      · exact List.suffix_cons _ _

/-- The loop over the free areas of zone `j` before order `i`, from `s` on. -/
structure AreasDone (Owns : Mem 32 → σ → List (Word × Word) → Prop) (Private : Word → Prop) (s : Kernel σ)
    (blocks : List (Word × Word)) (j : Nat) (size : Word) (i : Nat) (t : Kernel σ) (blocks' : List (Word × Word)) :
    Prop where
  owns : Owns t.mem t.boot blocks'
  sizes : blocks'.map Prod.snd = areaSizes size i ++ blocks.map Prod.snd
  grown : ∀ block ∈ blocks, block ∈ blocks'
  table : t.zoneTable = s.zoneTable
  memMap : t.memMap = s.memMap
  others : ∀ k, k ≠ j → t.zone k = s.zone k
  zone : t.zone j = { s.zone j with freeArea := (t.zone j).freeArea }
  kept : ∀ block ∈ blocks, ∀ b, InBlock block b → t.mem b = s.mem b
  outside : KeptOutside Private blocks' s.mem t.mem
  maps : ∀ k < i, k < maxOrder - 1 → ∃ a, ((t.zone j).freeArea k).map = some a ∧ (a, bitmapSize size k) ∈ blocks'

section

variable {alloc : NodeAllocator σ} {Owns : Mem 32 → σ → List (Word × Word) → Prop} {Private : Word → Prop}
  {blocks blocks' : List (Word × Word)} {s t : Kernel σ} {j i : Nat} {size : Word} {sizes : List Word}

@[simp] theorem Kernel.zone_setZone (s : Kernel σ) (j : Nat) (z : ZoneStruct) : (s.setZone j z).zone j = z :=
  Function.update_self _ _ _

theorem Kernel.zone_setZone_of_ne (s : Kernel σ) {j k : Nat} (z : ZoneStruct) (h : k ≠ j) :
    (s.setZone j z).zone k = s.zone k := Function.update_of_ne h _ _

/-- A new free area, after what the allocator has done for it. -/
theorem AreasDone.set (h : AreasDone Owns Private s blocks j size i t blocks') {area : FreeArea}
    {blocks'' : List (Word × Word)} {m : Mem 32} {boot : σ} (howns : Owns m boot blocks'')
    (hsizes : blocks''.map Prod.snd = areaSizes size (i + 1) ++ blocks.map Prod.snd)
    (hgrown : ∀ block ∈ blocks', block ∈ blocks'') (hkept : ∀ block ∈ blocks', ∀ b, InBlock block b → m b = t.mem b)
    (houtside : KeptOutside Private blocks'' t.mem m)
    (harea : i < maxOrder - 1 → ∃ a, area.map = some a ∧ (a, bitmapSize size i) ∈ blocks'') :
    AreasDone Owns Private s blocks j size (i + 1)
      ({ t with mem := m, boot := boot }.setZone j
        { t.zone j with freeArea := Function.update (t.zone j).freeArea i area }) blocks'' := by
  refine ⟨howns, hsizes, fun block hblock => hgrown _ (h.grown _ hblock), h.table, h.memMap, fun k hk => ?_, ?_,
    fun block hblock b hb => ?_, h.outside.trans houtside hgrown, fun k hk hlast => ?_⟩
  · rw [Kernel.zone_setZone_of_ne _ _ hk]
    exact h.others k hk
  · rw [Kernel.zone_setZone]
    conv_lhs => rw [h.zone]
  · exact (hkept block (h.grown _ hblock) b hb).trans (h.kept block hblock b hb)
  · rw [Kernel.zone_setZone]
    by_cases hki : k = i
    · subst hki
      show ∃ a, (Function.update (t.zone j).freeArea k area k).map = some a ∧ _
      rw [Function.update_self]
      exact harea hlast
    · show ∃ a, (Function.update (t.zone j).freeArea i area k).map = some a ∧ _
      rw [Function.update_of_ne hki]
      obtain ⟨a, ha, hmem⟩ := h.maps k (by omega) hlast
      exact ⟨a, ha, hgrown _ hmem⟩

theorem AreasDone.step (hserves : ServesFrom alloc Owns Private)
    (hsizes : areaSizes size maxOrder ++ blocks.map Prod.snd <:+ sizes) (hi : i < maxOrder)
    (h : AreasDone Owns Private s blocks j size i t blocks') :
    Ends (Refuses alloc Owns sizes) (fun u => ∃ blocks'', AreasDone Owns Private s blocks j size (i + 1) u blocks'')
      (initFreeArea alloc j size i t) := by
  unfold initFreeArea
  by_cases hlast : i = maxOrder - 1
  · rw [if_pos hlast]
    have hlist : areaSizes size (i + 1) = areaSizes size i := if_pos hlast
    exact ⟨blocks', h.set h.owns (hlist.symm ▸ h.sizes) (fun _ hb => hb) (fun _ _ _ _ => rfl) (.refl _ _ _)
      fun hlt => absurd hlast (by omega)⟩
  · rw [if_neg hlast]
    have hlist : areaSizes size (i + 1) = bitmapSize size i :: areaSizes size i := if_neg hlast
    have hmap : bitmapSize size i :: blocks'.map Prod.snd = areaSizes size (i + 1) ++ blocks.map Prod.snd := by
      rw [h.sizes, hlist, List.cons_append]
    have hnext : bitmapSize size i :: blocks'.map Prod.snd <:+ sizes := by
      rw [hmap]
      exact (List.suffix_append_self_iff.mpr (areaSizes_suffix size hi)).trans hsizes
    refine (allocBootmemNode_ends hserves h.owns (bitmapSize_lt size i) hnext).bind fun r hr => ?_
    obtain ⟨m', boot', -, hkernel, howns, hgrants, houtside⟩ := hr
    obtain ⟨a, u⟩ := r
    dsimp only at hkernel
    subst hkernel
    exact ⟨(a, bitmapSize size i) :: blocks', h.set howns hmap (fun _ hb => List.mem_cons_of_mem _ hb) hgrants.kept
      houtside fun _ => ⟨a, rfl, List.mem_cons_self⟩⟩

/-- The whole loop. -/
theorem freeAreas_done (hserves : ServesFrom alloc Owns Private)
    (hsizes : areaSizes size maxOrder ++ blocks.map Prod.snd <:+ sizes) (howns : Owns s.mem s.boot blocks) :
    Ends (Refuses alloc Owns sizes) (fun u => ∃ blocks', AreasDone Owns Private s blocks j size maxOrder u blocks')
      (forUpE (initFreeArea alloc j size) maxOrder s) := by
  refine forUpE_inv (fun i u => ∃ blocks', AreasDone Owns Private s blocks j size i u blocks') ?_ fun i u hi hu => ?_
  · exact ⟨blocks, howns, rfl, fun _ hb => hb, rfl, rfl, fun _ _ => rfl, rfl, fun _ _ _ _ => rfl, .refl _ _ _,
      fun k hk => absurd hk (Nat.not_lt_zero k)⟩
  · obtain ⟨blocks', h⟩ := hu
    exact h.step hserves hsizes hi

end

/-! ### The loop over the zones -/

/-- The number of the first page of zone `j`. -/
def firstPage (zonesSize : Nat → Word) : Nat → Nat
  | 0 => 0
  | j + 1 => firstPage zonesSize j + (zonesSize j).toNat

theorem firstPage_mono (zonesSize : Nat → Word) {j k : Nat} (h : j ≤ k) :
    firstPage zonesSize j ≤ firstPage zonesSize k := by
  induction h with
  | refl => exact Nat.le_refl _
  | step _ ih => exact ih.trans (Nat.le_add_right _ _)

/-- A zone that has pages, once its pass is over. -/
structure ZonePlaced (s : Kernel σ) (blocks : List (Word × Word)) (zonesSize : Nat → Word) (k : Nat) : Prop where
  mapnr : (s.zone k).zoneStartMapnr.toNat = firstPage zonesSize k
  memMap : (s.zone k).zoneMemMap = pageNr s.memMap (firstPage zonesSize k)
  paddr : (s.zone k).zoneStartPaddr = BitVec.ofNat 32 (firstPage zonesSize k) * pageSize
  pages : ∀ l, firstPage zonesSize k ≤ l → l < firstPage zonesSize (k + 1) →
    PageReady s.mem (pageNr s.memMap l) (BitVec.ofNat 32 k)
  bitmaps : ∀ i < maxOrder - 1, ∃ a, ((s.zone k).freeArea i).map = some a ∧ (a, bitmapSize (zonesSize k) i) ∈ blocks

/-- A zone once its pass is over. -/
structure ZoneReady (s : Kernel σ) (blocks : List (Word × Word)) (zonesSize : Nat → Word) (k : Nat) : Prop where
  table : s.zoneTable k = some k
  size : (s.zone k).size = zonesSize k
  placed : zonesSize k ≠ 0 → ZonePlaced s blocks zonesSize k

/-- What keeps a zone as it is. -/
theorem ZoneReady.frame {s t : Kernel σ} {blocks blocks' : List (Word × Word)} {zonesSize : Nat → Word} {k : Nat}
    (h : ZoneReady s blocks zonesSize k) (htable : t.zoneTable k = s.zoneTable k) (hzone : t.zone k = s.zone k)
    (hmap : t.memMap = s.memMap) (hgrown : ∀ block ∈ blocks, block ∈ blocks')
    (hmem : ∀ l, firstPage zonesSize k ≤ l → l < firstPage zonesSize (k + 1) →
      ∀ b, InStruct (pageNr s.memMap l) b → t.mem b = s.mem b) : ZoneReady t blocks' zonesSize k := by
  refine ⟨htable.trans h.table, hzone ▸ h.size, fun hne => ?_⟩
  have hplaced := h.placed hne
  refine ⟨hzone ▸ hplaced.mapnr, ?_, hzone ▸ hplaced.paddr, fun l hlo hhi => ?_, fun i hi => ?_⟩
  · rw [hzone, hmap]
    exact hplaced.memMap
  · rw [hmap]
    exact (hplaced.pages l hlo hhi).congr (hmem l hlo hhi)
  · obtain ⟨a, ha, hblock⟩ := hplaced.bitmaps i hi
    exact ⟨a, hzone ▸ ha, hgrown _ hblock⟩

/-- The first `n` entries of the array lie in the block. -/
structure Holds (block : Word × Word) (memMap : Word) (n : Nat) : Prop where
  start : block.1.toNat ≤ memMap.toNat
  stop : memMap.toNat + 36 * n ≤ block.1.toNat + block.2.toNat
  fits : block.1.toNat + block.2.toNat ≤ 2 ^ 32

theorem Holds.inBlock {block : Word × Word} {memMap b : Word} {n : Nat} (h : Holds block memMap n)
    (hb : (b - memMap).toNat < 36 * n) : InBlock block b := by
  obtain ⟨hstart, hstop, hfits⟩ := h
  simp only [InBlock, BitVec.toNat_sub] at hb ⊢
  omega

/-- The pages of a zone lie in the block of the array. -/
theorem PagesDone.outside_blocks {m m' : Mem 32} {memMap zoneNum : Word} {lo n total : Nat} {block : Word × Word}
    {blocks : List (Word × Word)} (h : PagesDone m memMap lo n zoneNum m') (hholds : Holds block memMap total)
    (hblock : block ∈ blocks) (hle : lo + n ≤ total) {b : Word} (hb : ∀ block ∈ blocks, ¬ InBlock block b) :
    m' b = m b :=
  h.outside b fun hin => hb block hblock (hholds.inBlock (by omega))

/-- The sizes of the bitmaps of the zones before zone `j`, the last one first. -/
def zoneSizes (zonesSize : Nat → Word) : Nat → List Word
  | 0 => []
  | j + 1 =>
      if zonesSize j = 0 then zoneSizes zonesSize j else areaSizes (zonesSize j) maxOrder ++ zoneSizes zonesSize j

theorem zoneSizes_suffix (zonesSize : Nat → Word) {j n : Nat} (h : j ≤ n) :
    zoneSizes zonesSize j <:+ zoneSizes zonesSize n := by
  induction h with
  | refl => exact List.suffix_rfl
  | @step n _ ih =>
      refine ih.trans ?_
      rw [zoneSizes]
      split
      · exact List.suffix_rfl
      · exact List.suffix_append _ _

/-- The loop over the zones before zone `j`, with the allocator at work since the memory was `m`. -/
structure ZonesDone (Owns : Mem 32 → σ → List (Word × Word) → Prop) (Private : Word → Prop) (m : Mem 32)
    (zonesSize : Nat → Word) (memMap : Word) (block : Word × Word) (j : Nat) (t : ZoneLoop σ)
    (blocks : List (Word × Word)) : Prop where
  owns : Owns t.kernel.mem t.kernel.boot blocks
  sizes : blocks.map Prod.snd = zoneSizes zonesSize j ++ [block.2]
  outside : KeptOutside Private blocks m t.kernel.mem
  mapBlock : block ∈ blocks
  memMap : t.kernel.memMap = memMap
  offset : t.offset.toNat = firstPage zonesSize j
  paddr : t.zoneStartPaddr = BitVec.ofNat 32 (firstPage zonesSize j) * pageSize
  ready : ∀ k < j, ZoneReady t.kernel blocks zonesSize k

/-- The kernel when the fields that every zone gets are there. -/
def Kernel.enterZone (s : Kernel σ) (nid j : Nat) (size : Word) : Kernel σ :=
  let s := { s with zoneTable := Function.update s.zoneTable (nid * maxNrZones + j) (some j) }
  s.setZone j ((s.zone j).named j size)

/-- The kernel when the fields of a zone that has pages are there. -/
def Kernel.startZone (s : Kernel σ) (nid j : Nat) (size mask offset zoneStartPaddr : Word) : Kernel σ :=
  let s := s.enterZone nid j size
  let s := { s with pgdat := { s.pgdat with nrZones := j + 1 } }
  s.setZone j ((s.zone j).placed mask s.memMap offset zoneStartPaddr)

section

variable {alloc : NodeAllocator σ} {Owns : Mem 32 → σ → List (Word × Word) → Prop} {Private : Word → Prop} {m : Mem 32}
  {zonesSize : Nat → Word} {memMap : Word} {block : Word × Word} {blocks : List (Word × Word)} {sizes : List Word}
  {j : Nat} {t : ZoneLoop σ}

theorem initZone_of_empty (hsize : zonesSize j = 0) :
    initZone alloc 0 zonesSize none j t = .ok { t with kernel := t.kernel.enterZone 0 j 0 } := by
  unfold initZone
  rw [hsize]
  rfl

theorem initZone_of_pages (hsize : zonesSize j ≠ 0)
    (halign : t.zoneStartPaddr >>> pageShift &&& (zoneRequiredAlignment - 1) = 0) :
    initZone alloc 0 zonesSize none j t =
      (let s := t.kernel.startZone 0 j (zonesSize j) (balanceMask (zonesSize j)) t.offset t.zoneStartPaddr
       let p := initPages s.memMap t.offset (BitVec.ofNat 32 (0 * maxNrZones + j)) (zonesSize j) s.mem t.zoneStartPaddr
       forUpE (initFreeArea alloc j (zonesSize j)) maxOrder { s with mem := p.1 } >>= fun u =>
        .ok { kernel := u, offset := t.offset + zonesSize j, zoneStartPaddr := p.2 }) := by
  unfold initZone
  dsimp only
  rw [if_neg hsize, if_neg (not_not.mpr halign)]
  rfl

/-- A page number that fits in memory is read back from its address. -/
theorem toNat_paddr_shift {l : Nat} (hl : l < 2 ^ 20) :
    ((BitVec.ofNat 32 l * pageSize : Word) >>> pageShift).toNat = l := by
  rw [BitVec.toNat_ushiftRight, BitVec.toNat_mul, BitVec.toNat_ofNat, show pageSize.toNat = 4096 from rfl,
    show pageShift = 12 from rfl, Nat.shiftRight_eq_div_pow]
  omega

/-- A zone whose first page has a number that the largest buddy block divides is aligned. -/
theorem aligned_of_mod {l : Nat} (hl : l < 2 ^ 20) (hmod : l % 512 = 0) :
    (BitVec.ofNat 32 l * pageSize : Word) >>> pageShift &&& (zoneRequiredAlignment - 1) = 0 := by
  apply BitVec.eq_of_toNat_eq
  rw [BitVec.toNat_and, toNat_paddr_shift hl, show (zoneRequiredAlignment - 1).toNat = 2 ^ 9 - 1 from rfl,
    Nat.and_two_pow_sub_one_eq_mod]
  exact hmod

theorem Kernel.zoneTable_enterZone (s : Kernel σ) (j k : Nat) (size : Word) :
    (s.enterZone 0 j size).zoneTable k = if k = j then some j else s.zoneTable k := by
  show Function.update s.zoneTable (0 * maxNrZones + j) (some j) k = _
  rw [Nat.zero_mul, Nat.zero_add, Function.update_apply]

theorem Kernel.zone_startZone (s : Kernel σ) (j : Nat) (size mask offset paddr : Word) :
    (s.startZone 0 j size mask offset paddr).zone j = ((s.zone j).named j size).placed mask s.memMap offset paddr := by
  rw [Kernel.startZone, Kernel.zone_setZone]
  show ((s.enterZone 0 j size).zone j).placed mask s.memMap offset paddr = _
  rw [Kernel.enterZone, Kernel.zone_setZone]
  rfl

theorem Kernel.zone_startZone_of_ne (s : Kernel σ) {j k : Nat} (size mask offset paddr : Word) (h : k ≠ j) :
    (s.startZone 0 j size mask offset paddr).zone k = s.zone k := by
  rw [Kernel.startZone, Kernel.zone_setZone_of_ne _ _ h]
  show (s.enterZone 0 j size).zone k = _
  rw [Kernel.enterZone, Kernel.zone_setZone_of_ne _ _ h]
  rfl

theorem ZonesDone.step_empty (h : ZonesDone Owns Private m zonesSize memMap block j t blocks) (hsize : zonesSize j = 0) :
    ZonesDone Owns Private m zonesSize memMap block (j + 1) { t with kernel := t.kernel.enterZone 0 j 0 } blocks := by
  have hfirst : firstPage zonesSize (j + 1) = firstPage zonesSize j := by
    rw [firstPage, hsize]
    rfl
  refine ⟨h.owns, ?_, h.outside, h.mapBlock, h.memMap, hfirst ▸ h.offset, hfirst ▸ h.paddr, fun k hk => ?_⟩
  · rw [zoneSizes, if_pos hsize]
    exact h.sizes
  by_cases hkj : k = j
  · subst hkj
    refine ⟨?_, ?_, fun hne => absurd hsize hne⟩
    · rw [Kernel.zoneTable_enterZone, if_pos rfl]
    · rw [hsize, Kernel.enterZone, Kernel.zone_setZone]
      rfl
  · refine (h.ready k (by omega)).frame ?_ ?_ rfl (fun _ hb => hb) fun _ _ _ _ _ => rfl
    · rw [Kernel.zoneTable_enterZone, if_neg hkj]
    · rw [Kernel.enterZone, Kernel.zone_setZone_of_ne _ _ hkj]
      rfl

/-- What the pages and the free areas of zone `j` leave is a pass of the loop. -/
theorem ZonesDone.placed {total : Nat} (h : ZonesDone Owns Private m zonesSize memMap block j t blocks)
    (hholds : Holds block memMap total) (hnext : firstPage zonesSize (j + 1) ≤ total) (htotal : total ≤ 2 ^ 20)
    (hsize : zonesSize j ≠ 0) {mask paddr : Word} {m' : Mem 32} {s u : Kernel σ} {blocks' : List (Word × Word)}
    (hs : s = t.kernel.startZone 0 j (zonesSize j) mask t.offset t.zoneStartPaddr)
    (hpages : PagesDone s.mem s.memMap t.offset.toNat (zonesSize j).toNat (BitVec.ofNat 32 j) m')
    (hpaddr : paddr = t.zoneStartPaddr + zonesSize j * pageSize)
    (hareas : AreasDone Owns Private { s with mem := m' } blocks j (zonesSize j) maxOrder u blocks') :
    ZonesDone Owns Private m zonesSize memMap block (j + 1)
      { kernel := u, offset := t.offset + zonesSize j, zoneStartPaddr := paddr } blocks' := by
  have hsum : firstPage zonesSize (j + 1) = firstPage zonesSize j + (zonesSize j).toNat := rfl
  have hmem : s.mem = t.kernel.mem := by rw [hs]; rfl
  have hmap : s.memMap = memMap := by rw [hs, ← h.memMap]; rfl
  have hoffset : (t.offset + zonesSize j).toNat = firstPage zonesSize (j + 1) := by
    rw [BitVec.toNat_add, h.offset, hsum]
    omega
  have htable (k : Nat) : u.zoneTable k = if k = j then some j else t.kernel.zoneTable k := by
    rw [← Kernel.zoneTable_enterZone t.kernel j k (zonesSize j), hareas.table, hs]
    rfl
  have hkept (l : Nat) (hl : l < total) (b : Word) (hb : InStruct (pageNr memMap l) b) : u.mem b = m' b := by
    rw [inStruct_pageNr (by omega)] at hb
    exact hareas.kept block h.mapBlock b (hholds.inBlock (by omega))
  rw [hmap, hmem, h.offset] at hpages
  refine ⟨hareas.owns, ?_, ?_, hareas.grown _ h.mapBlock, hareas.memMap.trans hmap, hoffset, ?_, fun k hk => ?_⟩
  · rw [hareas.sizes, h.sizes, zoneSizes, if_neg hsize, List.append_assoc]
  · have hzone : KeptOutside Private blocks t.kernel.mem m' := fun b _ hb =>
      hpages.outside_blocks hholds h.mapBlock hnext hb
    exact (h.outside.trans hzone fun _ hb => hb).trans hareas.outside hareas.grown
  · rw [hpaddr, h.paddr, hsum, BitVec.ofNat_add, BitVec.ofNat_toNat, BitVec.setWidth_eq, BitVec.add_mul]
  by_cases hkj : k = j
  · subst hkj
    have hzone : u.zone k =
        { (((t.kernel.zone k).named k (zonesSize k)).placed mask memMap t.offset t.zoneStartPaddr) with
          freeArea := (u.zone k).freeArea } := by
      rw [← h.memMap, ← Kernel.zone_startZone, ← hs]
      exact hareas.zone
    refine ⟨?_, ?_, fun hne => ⟨?_, ?_, ?_, ?_, ?_⟩⟩
    · rw [htable, if_pos rfl]
    · rw [hzone]
      rfl
    · rw [hzone]
      exact h.offset
    · rw [hzone, hareas.memMap.trans hmap, ← h.offset, pageNr, BitVec.ofNat_toNat, BitVec.setWidth_eq]
      rfl
    · rw [hzone]
      exact h.paddr
    · intro l hlo hhi
      rw [hareas.memMap.trans hmap]
      exact (hpages.ready l hlo (by omega)).congr (hkept l (by omega))
    · exact fun i hi => hareas.maps i (by omega) hi
  · have hother : u.zone k = t.kernel.zone k := by
      rw [hareas.others k hkj, ← Kernel.zone_startZone_of_ne t.kernel _ _ _ _ hkj, ← hs]
      rfl
    refine (h.ready k (by omega)).frame ?_ hother ?_ hareas.grown ?_
    · rw [htable, if_neg hkj]
    · rw [h.memMap]
      exact hareas.memMap.trans hmap
    · intro l hlo hhi b hb
      have hbefore : firstPage zonesSize (k + 1) ≤ firstPage zonesSize j := firstPage_mono zonesSize (by omega)
      rw [h.memMap] at hb
      rw [hkept l (by omega) b hb]
      rw [inStruct_pageNr (by omega)] at hb
      exact hpages.outside b (by omega)

/-- A pass of the loop. -/
theorem ZonesDone.step {total : Nat} (hserves : ServesFrom alloc Owns Private)
    (hsizes : zoneSizes zonesSize (j + 1) ++ [block.2] <:+ sizes)
    (h : ZonesDone Owns Private m zonesSize memMap block j t blocks) (hholds : Holds block memMap total)
    (hnext : firstPage zonesSize (j + 1) ≤ total) (htotal : total ≤ 2 ^ 20) (hj : j < 256)
    (halign : zonesSize j ≠ 0 → firstPage zonesSize j % 512 = 0) :
    Ends (Refuses alloc Owns sizes)
      (fun u => ∃ blocks', ZonesDone Owns Private m zonesSize memMap block (j + 1) u blocks')
      (initZone alloc 0 zonesSize none j t) := by
  by_cases hsize : zonesSize j = 0
  · rw [initZone_of_empty hsize]
    exact ⟨blocks, h.step_empty hsize⟩
  have hpos : 0 < (zonesSize j).toNat := by
    rw [Nat.pos_iff_ne_zero]
    exact fun hzero => hsize (BitVec.eq_of_toNat_eq hzero)
  have hsum : firstPage zonesSize (j + 1) = firstPage zonesSize j + (zonesSize j).toNat := rfl
  have hpaddr : t.zoneStartPaddr >>> pageShift &&& (zoneRequiredAlignment - 1) = 0 := by
    rw [h.paddr]
    exact aligned_of_mod (by omega) (halign hsize)
  have hoffset := h.offset
  rw [initZone_of_pages hsize hpaddr]
  dsimp only
  generalize hs : t.kernel.startZone 0 j (zonesSize j) (balanceMask (zonesSize j)) t.offset t.zoneStartPaddr = s
  have hmem : s.mem = t.kernel.mem := by rw [← hs]; rfl
  have hboot : s.boot = t.kernel.boot := by rw [← hs]; rfl
  have hmap : s.memMap = memMap := by rw [← hs, ← h.memMap]; rfl
  have hnum : (BitVec.ofNat 32 j : Word).toNat < 256 := by
    rw [BitVec.toNat_ofNat]
    omega
  obtain ⟨hpages, hnextPaddr⟩ := @initPages_done s.memMap t.offset (BitVec.ofNat 32 j) (zonesSize j) s.mem
    t.zoneStartPaddr hnum (by omega)
  rw [Nat.zero_mul, Nat.zero_add]
  have howns : Owns _ t.kernel.boot blocks := hserves.write _ _ _ _ h.owns fun b hb =>
    (hpages.outside_blocks (hmap ▸ hholds) h.mapBlock (by omega) hb).trans (congrFun hmem b)
  rw [← hboot] at howns
  have hareas : areaSizes (zonesSize j) maxOrder ++ blocks.map Prod.snd <:+ sizes := by
    rwa [h.sizes, ← List.append_assoc, ← show zoneSizes zonesSize (j + 1) = _ from if_neg hsize]
  refine Ends.bind (freeAreas_done hserves hareas howns) ?_
  rintro u ⟨blocks', hdone⟩
  exact ⟨blocks', h.placed hholds hnext htotal hsize hs.symm hpages hnextPaddr hdone⟩

end

/-! ### The node -/

theorem firstZone_cases (i : Nat) : firstZone i = zoneDma ∨ firstZone i = zoneHighmem ∨ firstZone i = zoneNormal := by
  unfold firstZone
  split
  · exact Or.inl rfl
  · split
    · exact Or.inr (Or.inl rfl)
    · exact Or.inr (Or.inr rfl)

theorem zonelistFrom_ok {s : Kernel σ} (hhigh : (s.zone zoneHighmem).size = 0) (i : Nat) :
    ∃ zones, zonelistFrom s (firstZone i) = .ok zones := by
  rcases firstZone_cases i with hk | hk | hk <;> rw [hk, zonelistFrom]
  · exact ⟨_, rfl⟩
  · rw [if_pos rfl, if_neg (not_not.mpr hhigh)]
    exact ⟨_, rfl⟩
  · exact ⟨_, rfl⟩

/-- Without pages in high memory the zone lists are built without a `BUG`, and nothing else changes. -/
theorem buildZonelists_eq {s : Kernel σ} (hhigh : (s.zone zoneHighmem).size = 0) :
    ∃ lists, buildZonelists s = .ok { s with pgdat := { s.pgdat with nodeZonelists := lists } } := by
  have hends : Ends (fun _ => False)
      (fun u => ∃ lists, u = { s with pgdat := { s.pgdat with nodeZonelists := lists } }) (buildZonelists s) := by
    refine forUpE_inv (fun _ u => ∃ lists, u = { s with pgdat := { s.pgdat with nodeZonelists := lists } })
      ⟨s.pgdat.nodeZonelists, rfl⟩ ?_
    rintro i u - ⟨lists, rfl⟩
    obtain ⟨zones, hzones⟩ := zonelistFrom_ok
      (s := { s with pgdat := { s.pgdat with nodeZonelists := lists } }) hhigh i
    rw [hzones]
    exact ⟨_, rfl⟩
  cases hrun : buildZonelists s with
  | error e =>
      rw [hrun] at hends
      exact hends.elim
  | ok u =>
      rw [hrun] at hends
      obtain ⟨lists, rfl⟩ := hends
      exact ⟨lists, rfl⟩

theorem toNat_mapSize {total : Nat} (htotal : total ≤ 2 ^ 20) :
    ((BitVec.ofNat 32 total + 1) * sizeofPage).toNat = 36 * (total + 1) := by
  rw [BitVec.toNat_mul, BitVec.toNat_add, BitVec.toNat_ofNat, show sizeofPage.toNat = 36 from rfl,
    show (1 : Word).toNat = 1 from rfl]
  omega

/-- The array lies in the block that it was allocated in. -/
theorem holds_mapAlign {a : Word} {total : Nat} (htotal : total ≤ 2 ^ 20)
    (hfits : a.toNat + 36 * (total + 1) ≤ 2 ^ 32) :
    Holds (a, (BitVec.ofNat 32 total + 1) * sizeofPage) (pageOffset + mapAlign (a - pageOffset)) total := by
  have hpad : ∃ pad : Word, pad.toNat < 36 ∧ pageOffset + mapAlign (a - pageOffset) = a + pad := by
    have hback : pageOffset + (a - pageOffset) = a := by rw [BitVec.add_comm, BitVec.sub_add_cancel]
    unfold mapAlign
    split
    · exact ⟨0, by decide, hback.trans (BitVec.add_zero a).symm⟩
    · rename_i hmod
      refine ⟨sizeofPage - (a - pageOffset) % sizeofPage, ?_, ?_⟩
      · have hrem : ((a - pageOffset) % sizeofPage).toNat ≠ 0 := fun hzero => hmod (BitVec.eq_of_toNat_eq hzero)
        rw [BitVec.toNat_umod, show sizeofPage.toNat = 36 from rfl] at hrem
        rw [BitVec.toNat_sub, BitVec.toNat_umod, show sizeofPage.toNat = 36 from rfl]
        omega
      · rw [BitVec.sub_eq_add_neg, BitVec.add_assoc, ← BitVec.add_assoc pageOffset, hback,
          BitVec.sub_eq_add_neg sizeofPage]
  obtain ⟨pad, hlt, hpad⟩ := hpad
  have hto : (a + pad).toNat = a.toNat + pad.toNat := by
    rw [BitVec.toNat_add]
    omega
  refine ⟨?_, ?_, ?_⟩
  · rw [hpad, hto]
    exact Nat.le_add_right _ _
  · rw [hpad, hto, toNat_mapSize htotal]
    dsimp only
    omega
  · rw [toNat_mapSize htotal]
    exact hfits

theorem freeAreaInit_eq (alloc : NodeAllocator σ) (zonesSize : Nat → Word) (s : Kernel σ) :
    freeAreaInit alloc zonesSize s =
      (let total := forUp (fun i total => total + zonesSize i) maxNrZones 0
       allocBootmemNode alloc s ((total + 1) * sizeofPage) >>= fun r =>
        let memMap := pageOffset + mapAlign (r.1 - pageOffset)
        let pgdat :=
          { r.2.pgdat with
            nodeMemMap := memMap
            nodeSize := total
            nodeStartPaddr := 0
            nodeStartMapnr := pageIndex memMap memMap
            nrZones := 0 }
        forUpE (initZone alloc 0 zonesSize none) maxNrZones
          { kernel := { r.2 with memMap, pgdat }, offset := pageIndex memMap memMap, zoneStartPaddr := 0 } >>= fun t =>
            buildZonelists t.kernel) := by
  rw [freeAreaInit, freeAreaInitCore]
  rw [if_neg (by decide)]
  dsimp only
  rw [if_pos rfl]
  cases allocBootmemNode alloc s ((forUp (fun i total => total + zonesSize i) maxNrZones 0 + 1) * sizeofPage) with
  | error e => rfl
  | ok r => rfl

/-- The whole loop over the zones. -/
theorem zones_done {alloc : NodeAllocator σ} {Owns : Mem 32 → σ → List (Word × Word) → Prop} {Private : Word → Prop}
    {m : Mem 32} {zonesSize : Nat → Word} {memMap : Word} {block : Word × Word} {t : ZoneLoop σ}
    (hserves : ServesFrom alloc Owns Private) (hholds : Holds block memMap (firstPage zonesSize maxNrZones))
    (htotal : firstPage zonesSize maxNrZones ≤ 2 ^ 20)
    (halign : ∀ j, zonesSize j ≠ 0 → firstPage zonesSize j % 512 = 0) (howns : Owns t.kernel.mem t.kernel.boot [block])
    (houtside : KeptOutside Private [block] m t.kernel.mem) (hmap : t.kernel.memMap = memMap) (hoffset : t.offset = 0)
    (hpaddr : t.zoneStartPaddr = 0) :
    Ends (Refuses alloc Owns (zoneSizes zonesSize maxNrZones ++ [block.2]))
      (fun u => ∃ blocks, ZonesDone Owns Private m zonesSize memMap block maxNrZones u blocks)
      (forUpE (initZone alloc 0 zonesSize none) maxNrZones t) := by
  refine forUpE_inv (fun j u => ∃ blocks, ZonesDone Owns Private m zonesSize memMap block j u blocks) ?_ ?_
  · refine ⟨[block], howns, rfl, houtside, List.mem_cons_self, hmap, ?_, ?_, fun k hk => absurd hk (Nat.not_lt_zero k)⟩
    · rw [hoffset]
      rfl
    · rw [hpaddr]
      exact (BitVec.zero_mul).symm
  · rintro j u hj ⟨blocks, h⟩
    exact h.step hserves (List.suffix_append_self_iff.mpr (zoneSizes_suffix zonesSize hj)) hholds
      (firstPage_mono zonesSize hj) htotal (lt_trans hj (by decide)) (halign j)

/-- A node as `free_area_init` leaves it. -/
structure NodeReady (alloc : NodeAllocator σ) (zonesSize : Nat → Word) (s u : Kernel σ) (blocks : List (Word × Word)) :
    Prop where
  map : ∃ a m boot, alloc s.mem s.boot ((BitVec.ofNat 32 (firstPage zonesSize maxNrZones) + 1) * sizeofPage) =
    some (a, m, boot) ∧ Holds (a, (BitVec.ofNat 32 (firstPage zonesSize maxNrZones) + 1) * sizeofPage) u.memMap
      (firstPage zonesSize maxNrZones)
  zones : ∀ k < maxNrZones, ZoneReady u blocks zonesSize k

/-- The sizes of all blocks of a node, the array of `struct page` at the end of the list. -/
def nodeSizes (zonesSize : Nat → Word) : List Word :=
  zoneSizes zonesSize maxNrZones ++ [(BitVec.ofNat 32 (firstPage zonesSize maxNrZones) + 1) * sizeofPage]

theorem totalPages_eq (zonesSize : Nat → Word) :
    forUp (fun i total => total + zonesSize i) maxNrZones 0 = BitVec.ofNat 32 (firstPage zonesSize maxNrZones) := by
  refine forUp_inv (fun i total => total = BitVec.ofNat 32 (firstPage zonesSize i)) rfl ?_
  rintro i total - rfl
  rw [firstPage, BitVec.ofNat_add, BitVec.ofNat_toNat, BitVec.setWidth_eq]

theorem freeAreaInit_ends {alloc : NodeAllocator σ} {Owns : Mem 32 → σ → List (Word × Word) → Prop}
    {Private : Word → Prop} {zonesSize : Nat → Word} {s : Kernel σ} (hserves : ServesFrom alloc Owns Private)
    (howns : Owns s.mem s.boot []) (htotal : firstPage zonesSize maxNrZones ≤ 2 ^ 20)
    (hhigh : zonesSize zoneHighmem = 0) (halign : ∀ j, zonesSize j ≠ 0 → firstPage zonesSize j % 512 = 0) :
    Ends (Refuses alloc Owns (nodeSizes zonesSize)) (fun u => ∃ blocks, Owns u.mem u.boot blocks ∧
      NodeReady alloc zonesSize s u blocks ∧ KeptOutside Private blocks s.mem u.mem) (freeAreaInit alloc zonesSize s) := by
  have hfits := toNat_mapSize htotal
  rw [freeAreaInit_eq, totalPages_eq, nodeSizes]
  dsimp only
  generalize hsize : (BitVec.ofNat 32 (firstPage zonesSize maxNrZones) + 1) * sizeofPage = mapSize at hfits ⊢
  refine (allocBootmemNode_ends hserves howns (by omega) (List.suffix_append _ _)).bind ?_
  rintro ⟨a, v⟩ ⟨m, boot, halloc, hkernel, hboot, hgrants, houtside⟩
  dsimp only at hkernel halloc hboot hgrants houtside
  subst hkernel
  have hholds := holds_mapAlign (a := a) htotal (by rw [← hfits]; exact hgrants.fits)
  rw [hsize] at hholds
  have hindex (p : Word) : pageIndex p p = 0 := by
    rw [pageIndex, BitVec.sub_self]
    rfl
  refine Ends.bind (zones_done hserves hholds htotal halign hboot houtside rfl (hindex _) rfl) ?_
  rintro t ⟨blocks, h⟩
  have hsizeHigh : (t.kernel.zone zoneHighmem).size = 0 := by
    rw [(h.ready zoneHighmem (by decide)).size, hhigh]
  obtain ⟨lists, hlists⟩ := buildZonelists_eq hsizeHigh
  rw [hlists]
  refine ⟨blocks, h.owns, ⟨⟨a, m, boot, hsize ▸ halloc, ?_⟩, fun k hk => ?_⟩, h.outside⟩
  · rw [hsize]
    show Holds (a, mapSize) t.kernel.memMap _
    rw [h.memMap]
    exact hholds
  · exact (h.ready k hk).frame rfl rfl rfl (fun _ hb => hb) fun _ _ _ _ _ => rfl

end XosKernel.Zone
