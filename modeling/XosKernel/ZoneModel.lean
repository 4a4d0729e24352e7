import XosKernel.BootmemModel
import XosKernel.E820Model
import XosKernel.BitString
import XosKernel.LoopRules

/-! The page allocator before its first page: `zone_sizes_init`, `free_area_init_core`, `build_zonelists` and the
macros on `struct page`. The array of `struct page` lies in memory. A pointer to a zone is its number in `node_zones`.
The boot memory allocator is a parameter. -/

namespace XosKernel.Zone

open Memory Loop

/-! ### `struct page` -/

/-- `sizeof(struct page)`. -/
def sizeofPage : Word := 36

/-- The bit number `PG_reserved`. -/
def pgReserved : Word := 14

def zoneShift : Nat := 24

def maxOrder : Nat := 10

def maxNrZones : Nat := 3

/-- `mem_map + i`. -/
def pageAt (memMap i : Word) : Word := memMap + sizeofPage * i

/-- `page - mem_map`. -/
def pageIndex (memMap page : Word) : Word := (page - memMap).sdiv sizeofPage

/-- `&page->count`. -/
def countField (page : Word) : Word := page + 16

/-- `&page->flags`. -/
def flagsField (page : Word) : Word := page + 20

def setPageZone (m : Mem 32) (page zoneNum : Word) : Mem 32 :=
  let m := store32 m (flagsField page) (load32 m (flagsField page) &&& ~~~(~~~(0 : Word) <<< zoneShift))
  store32 m (flagsField page) (load32 m (flagsField page) ||| zoneNum <<< zoneShift)

def setPageCount (m : Mem 32) (page v : Word) : Mem 32 := store32 m (countField page) v

def setPageReserved (m : Mem 32) (page : Word) : Mem 32 := setBitAt m (flagsField page) pgReserved

def pageReserved (m : Mem 32) (page : Word) : Bool := bitAt m (flagsField page) pgReserved

def initListHead (m : Mem 32) (ptr : Word) : Mem 32 := store32 (store32 m ptr ptr) (ptr + 4) ptr

/-- The body of the loop over the pages of a zone. `set_page_address` does nothing here. -/
def initPage (m : Mem 32) (page zoneNum : Word) : Mem 32 :=
  initListHead (setPageReserved (setPageCount (setPageZone m page zoneNum) page 0) page) page

/-- `MAP_ALIGN`. -/
def mapAlign (x : Word) : Word := if x % sizeofPage = 0 then x else x + sizeofPage - x % sizeofPage

/-! ### Zones -/

/-- A `free_area_t`: whether its list is initialised, and its bitmap. -/
structure FreeArea where
  listReady : Bool
  map : Option Word
  deriving Inhabited

structure ZoneStruct where
  locked : Bool
  freePages : Word
  pagesMin : Word
  pagesLow : Word
  pagesHigh : Word
  needBalance : Word
  freeArea : Nat → FreeArea
  zoneMemMap : Word
  zoneStartPaddr : Word
  zoneStartMapnr : Word
  name : String
  size : Word
  deriving Inhabited

/-- A `pg_data_t`. A zone list has the zones before its null pointer. -/
structure PgData where
  nodeZonelists : Nat → List Nat
  nodeZones : Nat → ZoneStruct
  nrZones : Nat
  nodeMemMap : Word
  nodeStartPaddr : Word
  nodeStartMapnr : Word
  nodeSize : Word

/-- The memory, the state of the boot memory allocator and the variables of the kernel. -/
structure Kernel (σ : Type) where
  mem : Mem 32
  boot : σ
  pgdat : PgData
  zoneTable : Nat → Option Nat
  memMap : Word

/-- A computation that comes to a `BUG`, or to an allocation that does not succeed. -/
inductive Stop where
  | bug
  | noMemory
  deriving DecidableEq

/-- `alloc_bootmem_node` for a number of bytes, on the memory and the state of the allocator. -/
abbrev NodeAllocator (σ : Type) := Mem 32 → σ → Word → Option (Word × Mem 32 × σ)

variable {σ : Type}

def allocBootmemNode (alloc : NodeAllocator σ) (s : Kernel σ) (size : Word) : Except Stop (Word × Kernel σ) :=
  match alloc s.mem s.boot size with
  | none => .error .noMemory
  | some (a, m, b) => .ok (a, { s with mem := m, boot := b })

def Kernel.zone (s : Kernel σ) (j : Nat) : ZoneStruct := s.pgdat.nodeZones j

def Kernel.setZone (s : Kernel σ) (j : Nat) (z : ZoneStruct) : Kernel σ :=
  { s with pgdat := { s.pgdat with nodeZones := Function.update s.pgdat.nodeZones j z } }

/-- `page_zone`. -/
def Kernel.pageZone (s : Kernel σ) (page : Word) : Option Nat :=
  s.zoneTable (load32 s.mem (flagsField page) >>> zoneShift).toNat

/-- `BAD_RANGE`. -/
def Kernel.badRange (s : Kernel σ) (j : Nat) (page : Word) : Prop :=
  pageIndex s.memMap page ≥ (s.zone j).zoneStartMapnr + (s.zone j).size ∨
    pageIndex s.memMap page < (s.zone j).zoneStartMapnr ∨ some j ≠ s.pageZone page

/-- `page_address`, for a page of zone `j`. -/
def Kernel.pageAddressIn (s : Kernel σ) (j : Nat) (page : Word) : Word :=
  physToVirt (pageIndex (s.zone j).zoneMemMap page <<< pageShift + (s.zone j).zoneStartPaddr)

def Kernel.pageAddress (s : Kernel σ) (page : Word) : Option Word := (s.pageZone page).map (s.pageAddressIn · page)

def Kernel.virtToPage (s : Kernel σ) (kaddr : Word) : Word := pageAt s.memMap (virtToPhys kaddr >>> pageShift)

/-! ### `build_zonelists` -/

def gfpZonemask : Nat := 0x0f

def gfpDma : Nat := 0x01

def gfpHighmem : Nat := 0x02

def zoneDma : Nat := 0

def zoneNormal : Nat := 1

def zoneHighmem : Nat := 2

/-- The zone where the search of list `i` starts. -/
def firstZone (i : Nat) : Nat :=
  if i &&& gfpDma ≠ 0 then zoneDma else if i &&& gfpHighmem ≠ 0 then zoneHighmem else zoneNormal

/-- The `switch`, which falls through from each zone to the one below. Without `CONFIG_HIGHMEM` a high memory zone is a
`BUG`. -/
def zonelistFrom (s : Kernel σ) (k : Nat) : Except Stop (List Nat) :=
  let dma := if (s.zone zoneDma).size ≠ 0 then [zoneDma] else []
  let normal := if (s.zone zoneNormal).size ≠ 0 then [zoneNormal] else []
  if k = zoneHighmem then
    if (s.zone zoneHighmem).size ≠ 0 then .error .bug else .ok (normal ++ dma)
  else if k = zoneNormal then .ok (normal ++ dma)
  else if k = zoneDma then .ok dma
  else .error .bug

def buildZonelists (s : Kernel σ) : Except Stop (Kernel σ) :=
  forUpE (fun i s => do
    let zones ← zonelistFrom s (firstZone i)
    return { s with pgdat := { s.pgdat with nodeZonelists := Function.update s.pgdat.nodeZonelists i zones } })
    (gfpZonemask + 1) s

/-! ### `free_area_init_core` -/

/-- `LONG_ALIGN`. -/
def longAlign (x : Word) : Word := (x + 4 - 1) &&& ~~~(4 - 1)

/-- The bytes of the bitmap of order `i`. -/
def bitmapSize (size : Word) (i : Nat) : Word := longAlign ((size - 1) >>> (i + 4) + 1)

/-- `zone_names[j]`. -/
def zoneName (j : Nat) : String := if j = zoneDma then "DMA" else if j = zoneNormal then "Normal" else "HighMem"

def zoneBalanceRatio : Word := 128

def zoneBalanceMin : Word := 20

def zoneBalanceMax : Word := 255

def balanceMask (realsize : Word) : Word :=
  let mask := realsize / zoneBalanceRatio
  if mask < zoneBalanceMin then zoneBalanceMin else if mask > zoneBalanceMax then zoneBalanceMax else mask

/-- `zone_required_alignment`. -/
def zoneRequiredAlignment : Word := 1 <<< (maxOrder - 1)

/-- A pass of the loop over the free areas of zone `j`, which the last order leaves without a bitmap. -/
def initFreeArea (alloc : NodeAllocator σ) (j : Nat) (size : Word) (i : Nat) (s : Kernel σ) :
    Except Stop (Kernel σ) := do
  if i = maxOrder - 1 then
    return s.setZone j { s.zone j with freeArea := Function.update (s.zone j).freeArea i ⟨true, none⟩ }
  let (a, s) ← allocBootmemNode alloc s (bitmapSize size i)
  return s.setZone j { s.zone j with freeArea := Function.update (s.zone j).freeArea i ⟨true, some a⟩ }

/-- The loop over the pages of a zone, with `zone_start_paddr` behind them. -/
def initPages (memMap offset zoneNum size : Word) (m : Mem 32) (zoneStartPaddr : Word) : Mem 32 × Word :=
  forUp (fun i s => (initPage s.1 (pageAt memMap (offset + BitVec.ofNat 32 i)) zoneNum, s.2 + pageSize)) size.toNat
    (m, zoneStartPaddr)

/-- The variables of the loop over the zones. -/
structure ZoneLoop (σ : Type) where
  kernel : Kernel σ
  offset : Word
  zoneStartPaddr : Word

/-- The fields of a zone that every zone gets. -/
def ZoneStruct.named (z : ZoneStruct) (j : Nat) (size : Word) : ZoneStruct :=
  { z with size, name := zoneName j, locked := false, freePages := 0, needBalance := 0 }

/-- The fields of a zone that has pages. -/
def ZoneStruct.placed (z : ZoneStruct) (mask memMap offset zoneStartPaddr : Word) : ZoneStruct :=
  { z with
    pagesMin := mask
    pagesLow := mask * 2
    pagesHigh := mask * 3
    zoneMemMap := pageAt memMap offset
    zoneStartMapnr := offset
    zoneStartPaddr }

/-- A pass of the loop over the zones. -/
def initZone (alloc : NodeAllocator σ) (nid : Nat) (zonesSize : Nat → Word) (zholesSize : Option (Nat → Word)) (j : Nat)
    (t : ZoneLoop σ) : Except Stop (ZoneLoop σ) := do
  let size := zonesSize j
  let realsize := zholesSize.elim size fun holes => size - holes j
  let s := { t.kernel with zoneTable := Function.update t.kernel.zoneTable (nid * maxNrZones + j) (some j) }
  let s := s.setZone j ((s.zone j).named j size)
  if size = 0 then return { t with kernel := s }
  let s := { s with pgdat := { s.pgdat with nrZones := j + 1 } }
  let s := s.setZone j ((s.zone j).placed (balanceMask realsize) s.memMap t.offset t.zoneStartPaddr)
  if t.zoneStartPaddr >>> pageShift &&& (zoneRequiredAlignment - 1) ≠ 0 then throw .bug
  let (mem, zoneStartPaddr) :=
    initPages s.memMap t.offset (BitVec.ofNat 32 (nid * maxNrZones + j)) size s.mem t.zoneStartPaddr
  let s ← forUpE (initFreeArea alloc j size) maxOrder { s with mem }
  return { kernel := s, offset := t.offset + size, zoneStartPaddr }

def freeAreaInitCore (alloc : NodeAllocator σ) (nid : Nat) (zonesSize : Nat → Word) (zoneStartPaddr : Word)
    (zholesSize : Option (Nat → Word)) (lmemMap : Word) (s : Kernel σ) : Except Stop (Kernel σ) := do
  if zoneStartPaddr &&& ~~~pageMask ≠ 0 then throw .bug
  let totalpages := forUp (fun i total => total + zonesSize i) maxNrZones 0
  let mapSize := (totalpages + 1) * sizeofPage
  let (lmemMap, s) ←
    if lmemMap = 0 then do
      let (a, s) ← allocBootmemNode alloc s mapSize
      pure (pageOffset + mapAlign (a - pageOffset), s)
    else pure (lmemMap, s)
  let s :=
    { s with
      memMap := lmemMap
      pgdat :=
        { s.pgdat with
          nodeMemMap := lmemMap
          nodeSize := totalpages
          nodeStartPaddr := zoneStartPaddr
          nodeStartMapnr := pageIndex lmemMap lmemMap
          nrZones := 0 } }
  let t ← forUpE (initZone alloc nid zonesSize zholesSize) maxNrZones
    { kernel := s, offset := pageIndex s.memMap lmemMap, zoneStartPaddr }
  buildZonelists t.kernel

/-- `free_area_init`. -/
def freeAreaInit (alloc : NodeAllocator σ) (zonesSize : Nat → Word) (s : Kernel σ) : Except Stop (Kernel σ) :=
  freeAreaInitCore alloc 0 zonesSize 0 none 0 s

/-- `MAX_DMA_ADDRESS`. -/
def maxDmaAddress : Word := pageOffset + 0x1000000

/-- `zones_size` of `zone_sizes_init`. -/
def zonesSizeOf (low : Word) (j : Nat) : Word :=
  let maxDma := virtToPhys maxDmaAddress >>> pageShift
  if low < maxDma then (if j = zoneDma then low else 0)
  else if j = zoneDma then maxDma
  else if j = zoneNormal then low - maxDma
  else 0

def zoneSizesInit (alloc : NodeAllocator σ) (maxLowPfn : Word) (s : Kernel σ) : Except Stop (Kernel σ) :=
  freeAreaInit alloc (zonesSizeOf maxLowPfn) s

end XosKernel.Zone
