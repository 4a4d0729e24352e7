import XosKernel.ZoneInit

/-! The layout of the zones that `zone_sizes_init` leaves, for every number of low memory pages: the zones tile the
array of `struct page`, every page knows its zone and its address, and the bitmaps of a zone have a bit for every pair
of buddies. -/

namespace XosKernel.Zone

open Memory Loop E820

variable {σ : Type}

/-! ### Page numbers -/

section

variable {memMap : Word} {k l : Nat}

/-- The difference of the pointers to two pages. -/
theorem pageIndex_pageNr (hkl : k ≤ l) (hl : l ≤ 2 ^ 20) :
    pageIndex (pageNr memMap k) (pageNr memMap l) = BitVec.ofNat 32 (l - k) := by
  have hsplit : BitVec.ofNat 32 l = BitVec.ofNat 32 k + BitVec.ofNat 32 (l - k) := by
    rw [← BitVec.ofNat_add, Nat.add_sub_cancel' hkl]
  have hdiff : pageNr memMap l - pageNr memMap k = sizeofPage * BitVec.ofNat 32 (l - k) := by
    rw [pageNr, pageNr, pageAt, pageAt, hsplit, BitVec.mul_add, ← BitVec.add_assoc, BitVec.add_comm,
      BitVec.add_sub_cancel]
  have hvalue : (sizeofPage * BitVec.ofNat 32 (l - k)).toNat = 36 * (l - k) := by
    rw [BitVec.toNat_mul, BitVec.toNat_ofNat, show sizeofPage.toNat = 36 from rfl]
    omega
  have hmsb : (sizeofPage * BitVec.ofNat 32 (l - k)).msb = false := by
    rw [BitVec.msb_eq_false_iff_two_mul_lt, hvalue]
    omega
  rw [pageIndex, hdiff, BitVec.sdiv_eq, hmsb, show sizeofPage.msb = false from rfl]
  apply BitVec.eq_of_toNat_eq
  rw [BitVec.udiv_eq, BitVec.toNat_udiv, hvalue, BitVec.toNat_ofNat, show sizeofPage.toNat = 36 from rfl]
  omega

theorem pageNr_zero : pageNr memMap 0 = memMap := by
  rw [pageNr, pageAt]
  exact BitVec.add_zero memMap

end

/-! ### Bitmaps -/

/-- The bitmap of order `i` has a bit for every pair of buddies. -/
theorem pair_lt_bitmapSize {size p : Word} (i : Nat) (hp : p < size) :
    (p >>> (i + 1)).toNat < 8 * (bitmapSize size i).toNat := by
  rw [BitVec.lt_def] at hp
  have hlast : (size - 1).toNat = size.toNat - 1 := by
    rw [BitVec.toNat_sub, show (1 : Word).toNat = 1 from rfl]
    omega
  have hround : (size.toNat - 1) / 2 ^ (i + 4) + 1 ≤ (bitmapSize size i).toNat := by
    rw [toNat_bitmapSize, hlast]
    omega
  calc (p >>> (i + 1)).toNat = p.toNat / 2 ^ (i + 1) := by
        rw [BitVec.toNat_ushiftRight, Nat.shiftRight_eq_div_pow]
    _ ≤ (size.toNat - 1) / 2 ^ (i + 1) := Nat.div_le_div_right (by omega)
    _ < 8 * ((size.toNat - 1) / 2 ^ (i + 1) / 8 + 1) := by omega
    _ = 8 * ((size.toNat - 1) / 2 ^ (i + 4) + 1) := by
        rw [Nat.div_div_eq_div_mul, show (8 : Nat) = 2 ^ 3 from rfl, ← Nat.pow_add]
    _ ≤ 8 * (bitmapSize size i).toNat := Nat.mul_le_mul_left 8 hround

/-! ### Pages and zones -/

/-- A page of zone `j`, number `l` of the array. -/
structure PageOk (s : Kernel σ) (j l : Nat) : Prop where
  zone : s.pageZone (pageNr s.memMap l) = some j
  range : ¬ s.badRange j (pageNr s.memMap l)
  reserved : pageReserved s.mem (pageNr s.memMap l) = true
  count : load32 s.mem (countField (pageNr s.memMap l)) = 0
  next : load32 s.mem (pageNr s.memMap l) = pageNr s.memMap l
  prev : load32 s.mem (pageNr s.memMap l + 4) = pageNr s.memMap l
  address : s.pageAddress (pageNr s.memMap l) = some (physToVirt (BitVec.ofNat 32 l * pageSize))
  back : (s.pageAddress (pageNr s.memMap l)).map s.virtToPage = some (pageNr s.memMap l)

/-- Intervals, given by their first number and their length, that make up the numbers from `lo` to `hi` in order. -/
def Tiles : List (Nat × Nat) → Nat → Nat → Prop
  | [], lo, hi => lo = hi
  | interval :: rest, lo, hi => interval.1 = lo ∧ Tiles rest (lo + interval.2) hi

theorem Tiles.snoc : ∀ {intervals : List (Nat × Nat)} {lo mid : Nat} (count : Nat), Tiles intervals lo mid →
    Tiles (intervals ++ [(mid, count)]) lo (mid + count)
  | [], _, _, _, h => by
      cases h
      exact ⟨rfl, rfl⟩
  | _ :: _, _, _, count, h => ⟨h.1, h.2.snoc count⟩

/-- The intervals `[zone_start_mapnr, zone_start_mapnr + size)` of the zones before zone `n` that are not empty. -/
def zoneIntervals (s : Kernel σ) : Nat → List (Nat × Nat)
  | 0 => []
  | n + 1 =>
      if (s.zone n).size = 0 then zoneIntervals s n
      else zoneIntervals s n ++ [((s.zone n).zoneStartMapnr.toNat, (s.zone n).size.toNat)]

/-- The zones of a node with `low` pages, after `zone_sizes_init` in the state `s`. -/
structure ZoneLayout (alloc : NodeAllocator σ) (s u : Kernel σ) (blocks : List (Word × Word)) (low : Word) : Prop where
  map : ∃ a m boot, alloc s.mem s.boot ((low + 1) * sizeofPage) = some (a, m, boot) ∧
    Holds (a, (low + 1) * sizeofPage) u.memMap low.toNat
  tiles : Tiles (zoneIntervals u maxNrZones) 0 low.toNat
  pages : ∀ j < maxNrZones, ∀ l, (u.zone j).zoneStartMapnr.toNat ≤ l →
    l < (u.zone j).zoneStartMapnr.toNat + (u.zone j).size.toNat → PageOk u j l
  bitmaps : ∀ j < maxNrZones, (u.zone j).size ≠ 0 → ∀ k < maxOrder - 1, ∃ a bytes,
    ((u.zone j).freeArea k).map = some a ∧ (a, bytes) ∈ blocks ∧
      ∀ p < (u.zone j).size, (p >>> (k + 1)).toNat < 8 * bytes.toNat

section

variable {s : Kernel σ} {blocks : List (Word × Word)} {zonesSize : Nat → Word} {j l : Nat}

theorem PageOk.of_ready (h : ZoneReady s blocks zonesSize j) (hj : j < 256)
    (htotal : firstPage zonesSize (j + 1) ≤ 2 ^ 20) (hlo : firstPage zonesSize j ≤ l) (hhi : l < firstPage zonesSize (j + 1)) : PageOk s j l := by
  have hsum : firstPage zonesSize (j + 1) = firstPage zonesSize j + (zonesSize j).toNat := rfl
  have hne : zonesSize j ≠ 0 := by
    intro hzero
    rw [hzero] at hsum
    have hnone : (0 : Word).toNat = 0 := rfl
    omega
  have hplaced := h.placed hne
  have hready := hplaced.pages l hlo hhi
  have hnum : (BitVec.ofNat 32 j : Word).toNat = j := by
    rw [BitVec.toNat_ofNat]
    omega
  have hvalue : (BitVec.ofNat 32 l : Word).toNat = l := by
    rw [BitVec.toNat_ofNat]
    omega
  have hzone : s.pageZone (pageNr s.memMap l) = some j := by
    rw [Kernel.pageZone, hready.zone, hnum, h.table]
  have hindex : pageIndex s.memMap (pageNr s.memMap l) = BitVec.ofNat 32 l := by
    have hdiff := @pageIndex_pageNr s.memMap 0 l (Nat.zero_le l) (by omega)
    rwa [pageNr_zero, Nat.sub_zero] at hdiff
  have haddress : s.pageAddress (pageNr s.memMap l) = some (physToVirt (BitVec.ofNat 32 l * pageSize)) := by
    rw [Kernel.pageAddress, hzone, Option.map_some, Kernel.pageAddressIn, hplaced.memMap, hplaced.paddr,
      pageIndex_pageNr hlo (by omega), BitVec.shiftLeft_eq_mul_twoPow,
      show BitVec.twoPow 32 pageShift = pageSize from rfl, ← BitVec.add_mul, ← BitVec.ofNat_add, Nat.sub_add_cancel hlo]
  refine ⟨hzone, ?_, hready.reserved, hready.count, hready.next, hready.prev, haddress, ?_⟩
  · rintro (hge | hlt | hother)
    · have hend : ((s.zone j).zoneStartMapnr + (s.zone j).size).toNat = firstPage zonesSize (j + 1) := by
        rw [BitVec.toNat_add, hplaced.mapnr, h.size, hsum]
        omega
      rw [hindex, ge_iff_le, BitVec.le_def, hend, hvalue] at hge
      omega
    · rw [hindex, BitVec.lt_def, hplaced.mapnr, hvalue] at hlt
      omega
    · exact hother hzone.symm
  · rw [haddress, Option.map_some, Kernel.virtToPage, virtToPhys, physToVirt, BitVec.add_sub_cancel, pageNr]
    congr 2
    apply BitVec.eq_of_toNat_eq
    rw [toNat_paddr_shift (by omega), hvalue]

/-- The zones before zone `n` tile the pages before its first page. -/
theorem tiles_of_ready : ∀ {n : Nat}, (∀ k < n, ZoneReady s blocks zonesSize k) →
    Tiles (zoneIntervals s n) 0 (firstPage zonesSize n)
  | 0, _ => rfl
  | n + 1, h => by
      have hn := h n (Nat.lt_succ_self n)
      have ih := tiles_of_ready fun k hk => h k (Nat.lt_succ_of_lt hk)
      rw [zoneIntervals, firstPage, hn.size]
      by_cases hzero : zonesSize n = 0
      · rw [if_pos hzero, hzero]
        exact ih
      · rw [if_neg hzero, (hn.placed hzero).mapnr]
        exact ih.snoc _

end

/-! ### `zone_sizes_init` -/

section

variable {low : Word}

theorem toNat_maxDma : (virtToPhys maxDmaAddress >>> pageShift).toNat = 4096 := by decide

theorem toNat_zonesSizeOf_dma (low : Word) : (zonesSizeOf low zoneDma).toNat = min low.toNat 4096 := by
  unfold zonesSizeOf
  dsimp only
  split
  · rename_i hlt
    rw [BitVec.lt_def, toNat_maxDma] at hlt
    rw [if_pos rfl, Nat.min_eq_left (Nat.le_of_lt hlt)]
  · rename_i hge
    rw [BitVec.lt_def, toNat_maxDma] at hge
    rw [if_pos rfl, toNat_maxDma, Nat.min_eq_right (Nat.not_lt.mp hge)]

theorem toNat_zonesSizeOf_normal (low : Word) : (zonesSizeOf low zoneNormal).toNat = low.toNat - 4096 := by
  unfold zonesSizeOf
  dsimp only
  split
  · rename_i hlt
    rw [BitVec.lt_def, toNat_maxDma] at hlt
    rw [if_neg (by decide), Nat.sub_eq_zero_of_le (Nat.le_of_lt hlt)]
    rfl
  · rename_i hge
    rw [if_neg (by decide), if_pos rfl, BitVec.toNat_sub_of_le (BitVec.not_lt.mp hge), toNat_maxDma]

theorem zonesSizeOf_high {j : Nat} (hj : zoneHighmem ≤ j) (low : Word) : zonesSizeOf low j = 0 := by
  have hdma : j ≠ zoneDma := fun h => absurd (h ▸ hj) (by decide)
  have hnormal : j ≠ zoneNormal := fun h => absurd (h ▸ hj) (by decide)
  simp only [zonesSizeOf, if_neg hdma, if_neg hnormal, ite_self]

theorem firstPage_zonesSizeOf (low : Word) : firstPage (zonesSizeOf low) maxNrZones = low.toNat := by
  show 0 + (zonesSizeOf low zoneDma).toNat + (zonesSizeOf low zoneNormal).toNat + (zonesSizeOf low zoneHighmem).toNat = _
  rw [toNat_zonesSizeOf_dma, toNat_zonesSizeOf_normal, zonesSizeOf_high (Nat.le_refl _),
    show (0 : Word).toNat = 0 from rfl]
  omega

/-- A zone that has pages starts where the largest buddy block may start. -/
theorem zonesSizeOf_aligned : ∀ {j : Nat}, zonesSizeOf low j ≠ 0 → firstPage (zonesSizeOf low) j % 512 = 0
  | 0, _ => rfl
  | 1, h => by
      have hpos : (zonesSizeOf low zoneNormal).toNat ≠ 0 := fun hzero => h (BitVec.eq_of_toNat_eq hzero)
      rw [toNat_zonesSizeOf_normal] at hpos
      show (0 + (zonesSizeOf low zoneDma).toNat) % 512 = 0
      rw [toNat_zonesSizeOf_dma]
      omega
  | j + 2, h => absurd (zonesSizeOf_high (Nat.le_add_left 2 j) low) h

theorem firstPage_le (hmax : low ≤ maxmemPfn) : firstPage (zonesSizeOf low) maxNrZones ≤ 2 ^ 20 := by
  have hvalue : maxmemPfn.toNat = 0x38000 := by decide
  rw [firstPage_zonesSizeOf]
  rw [BitVec.le_def, hvalue] at hmax
  omega

/-- The layout of a node that is ready. -/
theorem ZoneLayout.of_ready {alloc : NodeAllocator σ} {s u : Kernel σ} {blocks : List (Word × Word)}
    (hmax : low ≤ maxmemPfn) (h : NodeReady alloc (zonesSizeOf low) s u blocks) : ZoneLayout alloc s u blocks low := by
  obtain ⟨hmap, hzones⟩ := h
  refine ⟨?_, ?_, fun j hj l hlo hhi => ?_, fun j hj hne k hk => ?_⟩
  · rwa [firstPage_zonesSizeOf, BitVec.ofNat_toNat, BitVec.setWidth_eq] at hmap
  · rw [← firstPage_zonesSizeOf low]
    exact tiles_of_ready hzones
  · have hready := hzones j hj
    have hne : zonesSizeOf low j ≠ 0 := by
      intro hzero
      rw [hready.size, hzero] at hhi
      exact absurd hlo (Nat.not_le.mpr hhi)
    rw [(hready.placed hne).mapnr] at hlo hhi
    rw [hready.size] at hhi
    exact PageOk.of_ready hready (hj.trans (by decide)) ((firstPage_mono _ hj).trans (firstPage_le hmax)) hlo hhi
  · have hready := hzones j hj
    rw [hready.size] at hne ⊢
    obtain ⟨a, ha, hblock⟩ := (hready.placed hne).bitmaps k hk
    exact ⟨a, _, ha, hblock, fun p hp => pair_lt_bitmapSize k hp⟩

/-- `zone_sizes_init` comes to no `BUG`, and it stops only where the allocator refuses a block of the node. -/
theorem zoneSizesInit_ends {alloc : NodeAllocator σ} {Owns : Mem 32 → σ → List (Word × Word) → Prop}
    {Private : Word → Prop} {s : Kernel σ} (hserves : ServesFrom alloc Owns Private) (hmax : low ≤ maxmemPfn)
    (howns : Owns s.mem s.boot []) :
    Ends (Refuses alloc Owns (nodeSizes (zonesSizeOf low))) (fun u => ∃ blocks, Owns u.mem u.boot blocks ∧
      ZoneLayout alloc s u blocks low ∧ KeptOutside Private blocks s.mem u.mem) (zoneSizesInit alloc low s) := by
  have hends := freeAreaInit_ends hserves howns (firstPage_le hmax) (zonesSizeOf_high (Nat.le_refl _) low)
    fun j hj => zonesSizeOf_aligned hj
  rw [zoneSizesInit]
  cases hrun : freeAreaInit alloc (zonesSizeOf low) s with
  | error e =>
      rw [hrun] at hends
      exact hends
  | ok u =>
      rw [hrun] at hends
      obtain ⟨blocks, howns', hready, houtside⟩ := hends
      exact ⟨blocks, howns', .of_ready hmax hready, houtside⟩

/-- No `BUG` and a consistent layout, for every number of pages and every allocator that returns disjoint zeroed
blocks. -/
theorem zoneSizesInit_layout {alloc : NodeAllocator σ} {Owns : σ → List (Word × Word) → Prop} {s : Kernel σ}
    (hmax : low ≤ maxmemPfn) (hserves : Serves alloc Owns) (howns : Owns s.boot [])
    (hmemory : zoneSizesInit alloc low s ≠ .error .noMemory) :
    ∃ u blocks, zoneSizesInit alloc low s = .ok u ∧ Owns u.boot blocks ∧ ZoneLayout alloc s u blocks low := by
  have hends := zoneSizesInit_ends hserves.servesFrom hmax howns
  cases hrun : zoneSizesInit alloc low s with
  | error e =>
      rw [hrun] at hends
      exact absurd (hrun.trans (congrArg _ hends.1)) hmemory
  | ok u =>
      rw [hrun] at hends
      obtain ⟨blocks, howns', hlayout, -⟩ := hends
      exact ⟨u, blocks, rfl, howns', hlayout⟩

end

/-! ### An allocator of windows -/

/-- The start of window `n` of 256 KB. -/
def window (n : Nat) : Word := BitVec.ofNat 32 (0xC0100000 + n * 0x40000)

/-- An allocator that hands out one window a time, of the 32 it has. -/
def windowAlloc : NodeAllocator Nat := fun m n size =>
  if n < 32 ∧ size.toNat ≤ 0x40000 then
    some (window n, fun b => if (b - window n).toNat < size.toNat then 0 else m b, n + 1)
  else none

/-- The blocks are at the starts of different windows. -/
def OwnsWindows (n : Nat) (blocks : List (Word × Word)) : Prop :=
  blocks.length = n ∧ n ≤ 32 ∧ ∀ block ∈ blocks, ∃ i < n, block.1 = window i ∧ block.2.toNat ≤ 0x40000

theorem toNat_window {n : Nat} (hn : n ≤ 32) : (window n).toNat = 0xC0100000 + n * 0x40000 := by
  rw [window, BitVec.toNat_ofNat]
  omega

/-- No byte lies in two windows. -/
theorem window_apart {i n : Nat} {b : Word} (hin : i < n) (hn : n ≤ 32) (hb : (b - window n).toNat < 0x40000) :
    ¬ (b - window i).toNat < 0x40000 := by
  have hfirst := toNat_window (Nat.le_of_lt (lt_of_lt_of_le hin hn))
  have hsecond := toNat_window hn
  rw [BitVec.toNat_sub] at hb ⊢
  omega

theorem windowAlloc_serves : Serves windowAlloc OwnsWindows := by
  rintro m n blocks size a m' n' ⟨hlength, hn, howns⟩ halloc
  unfold windowAlloc at halloc
  split at halloc
  · rename_i hroom
    obtain ⟨hlt, hsize⟩ := hroom
    cases halloc
    have hother (block : Word × Word) (hblock : block ∈ blocks) (b : Word) (hb : InBlock (window n, size) b) :
        ¬ InBlock block b := by
      obtain ⟨i, hi, hstart, hlen⟩ := howns block hblock
      rw [InBlock, hstart]
      exact fun hb' => window_apart hi hn (lt_of_lt_of_le hb hsize) (lt_of_lt_of_le hb' hlen)
    refine ⟨⟨by rw [List.length_cons, hlength], hlt, fun block hblock => ?_⟩, ?_, hother, fun b hb => if_pos hb,
      fun block hblock b hb => if_neg fun hb' => hother block hblock b hb' hb⟩
    · rcases List.mem_cons.mp hblock with rfl | hold
      · exact ⟨n, Nat.lt_succ_self n, rfl, hsize⟩
      · obtain ⟨i, hi, hblock⟩ := howns block hold
        exact ⟨i, Nat.lt_succ_of_lt hi, hblock⟩
    · rw [toNat_window hn]
      omega
  · cases halloc

/-- The allocator has a window for each of at most 32 small blocks. -/
theorem windowAlloc_grants {sizes : List Word} (hlength : sizes.length ≤ 32)
    (hsmall : sizes.all fun size => size.toNat ≤ 0x40000) (e : Stop) :
    ¬ Refuses windowAlloc (fun _ => OwnsWindows) sizes e := by
  rintro ⟨-, m, n, blocks, size, ⟨hblocks, -, -⟩, hnone, hsuffix⟩
  have hle := hsuffix.length_le
  rw [List.length_cons, List.length_map] at hle
  have hsize := List.all_eq_true.mp hsmall size (hsuffix.subset List.mem_cons_self)
  rw [windowAlloc, if_pos ⟨by omega, of_decide_eq_true hsize⟩] at hnone
  cases hnone

/-- A kernel before `zone_sizes_init`. -/
def blank : Kernel Nat where
  mem _ := 0
  boot := 0
  pgdat :=
    { nodeZonelists := fun _ => []
      nodeZones := fun _ => default
      nrZones := 0
      nodeMemMap := 0
      nodeStartPaddr := 0
      nodeStartMapnr := 0
      nodeSize := 0 }
  zoneTable _ := none
  memMap := 0

/-- Two zones, the second one of 904 pages. -/
theorem zoneSizesInit_layout_two_zones : ∃ u blocks, zoneSizesInit windowAlloc 5000 blank = .ok u ∧
    OwnsWindows u.boot blocks ∧ ZoneLayout windowAlloc blank u blocks 5000 := by
  have howns : OwnsWindows blank.boot [] := ⟨rfl, by decide, fun block hblock => by cases hblock⟩
  refine zoneSizesInit_layout (by decide) windowAlloc_serves howns fun herror => ?_
  have hends := @zoneSizesInit_ends _ 5000 _ _ _ blank windowAlloc_serves.servesFrom (by decide) howns
  rw [herror] at hends
  exact windowAlloc_grants (by decide) (by decide +kernel) _ hends

end XosKernel.Zone
