import XosKernel.LoopRules
import XosKernel.BitString

/-! The boot-time allocator of `mm/bootmem.c` on the 32-bit port. The page bitmap lies in memory like
everything else, so a block that is cleared can overwrite it. Words are `unsigned long`, 32 bits. `BUG()`
prints and spins: a call that reaches it ends in `bug` with the state at that point; a call that loops
for ever ends in `hang`. -/

namespace XosKernel

abbrev Word := BitVec 32

abbrev pageShift : Nat := 12
abbrev pageSize : Word := 4096

/-- `PAGE_MASK`. -/
abbrev pageMask : Word := ~~~(pageSize - 1)

/-- `PAGE_OFFSET`, where the kernel maps physical address 0. -/
abbrev pageOffset : Word := 0xC0000000

def physToVirt (address : Word) : Word := address + pageOffset
def virtToPhys (address : Word) : Word := address - pageOffset

/-- How a call ends. -/
inductive Outcome (σ α : Type) where
  | ret (value : α) (state : σ)
  | bug (state : σ)
  | hang

def Outcome.map {σ α β : Type} (f : α → β) : Outcome σ α → Outcome σ β
  | .ret value state => .ret (f value) state
  | .bug state => .bug state
  | .hang => .hang

theorem Outcome.map_eq_ret {σ α β : Type} {f : α → β} {o : Outcome σ α} {b : β} {t : σ}
    (h : o.map f = .ret b t) : ∃ a, o = .ret a t ∧ f a = b := by
  cases o with
  | ret value state =>
      cases h
      exact ⟨value, rfl, rfl⟩
  | bug state => cases h
  | hang => cases h

/-- The call returns a value that `p` accepts. -/
def Outcome.returns {σ α : Type} (p : α → Bool) : Outcome σ α → Bool
  | .ret value _ => p value
  | .bug _ => false
  | .hang => false

theorem Outcome.exists_of_returns {σ α : Type} {p : α → Bool} {o : Outcome σ α} (h : o.returns p = true) :
    ∃ value state, o = .ret value state ∧ p value = true := by
  cases o with
  | ret value state => exact ⟨value, state, rfl, h⟩
  | bug state => cases h
  | hang => cases h

namespace Bootmem

open Memory

/-- `bootmem_data_t`. -/
structure BootmemData where
  nodeBootStart : Word
  nodeLowPfn : Word
  nodeBootmemMap : Word
  lastOffset : Word
  lastPos : Word
  deriving DecidableEq

/-- The memory, under virtual addresses, and the node. -/
structure Boot where
  mem : Mem 32
  bdata : BootmemData

namespace Boot

/-- `constant_test_bit` reads the word that holds the bit. -/
def testBit (s : Boot) (nr : Word) : Bool :=
  (load32 s.mem (s.bdata.nodeBootmemMap + 4 * nr.sshiftRight 5)).getLsbD (nr &&& 31).toNat

/-- The `btsl` of `test_and_set_bit`. -/
def setBit (s : Boot) (nr : Word) : Boot := { s with mem := setBitAt s.mem s.bdata.nodeBootmemMap nr }

/-- The `btrl` of `test_and_clear_bit`. -/
def clearBit (s : Boot) (nr : Word) : Boot := { s with mem := clearBitAt s.mem s.bdata.nodeBootmemMap nr }

/-- The old bit, as `btsl` and `btrl` leave it in the carry flag. -/
def oldBit (s : Boot) (nr : Word) : Bool := bitAt s.mem s.bdata.nodeBootmemMap nr

def memset (s : Boot) (dst : Word) (value : BitVec 8) (size : Word) : Boot :=
  { s with mem := fill s.mem dst value size.toNat }

end Boot

/-- The number of passes of `for (i = first; i < last; i++)`. -/
def passes (first last : Word) : Nat := last.toNat - first.toNat

/-- `init_bootmem_core`, which returns the size of the bitmap in bytes. `last_offset` and `last_pos` keep
the values that they have. -/
def initBootmemCore (s : Boot) (mapstart start endPfn : Word) : Word × Boot :=
  let mapsize := ((endPfn - start + 1) + 7) / 8
  let mapsize := (mapsize + (4 - 1)) &&& ~~~(4 - 1 : Word)
  let bdata := { s.bdata with
    nodeBootmemMap := physToVirt (mapstart <<< pageShift)
    nodeBootStart := start <<< pageShift
    nodeLowPfn := endPfn }
  let s := { s with bdata := bdata }
  (mapsize, s.memset bdata.nodeBootmemMap 0xff mapsize)

/-- The loop of `free_bootmem_core`: the bits `i`, `i + 1`, …, each of which must be set. -/
def clearBits (s : Boot) (i : Word) : Nat → Outcome Boot Unit
  | 0 => .ret () s
  | n + 1 => if s.oldBit i then clearBits (s.clearBit i) (i + 1) n else .bug (s.clearBit i)

def freeBootmemCore (s : Boot) (addr size : Word) : Outcome Boot Unit :=
  let bdata := s.bdata
  let eidx := (addr + size - bdata.nodeBootStart) / pageSize
  let endPfn := (addr + size) / pageSize
  if size = 0 then .bug s
  else if endPfn > bdata.nodeLowPfn then .bug s
  else
    let start := (addr + pageSize - 1) / pageSize
    let sidx := start - bdata.nodeBootStart / pageSize
    clearBits s sidx (passes sidx eidx)

/-- The loop of `reserve_bootmem_core`, which only prints a note when a bit is already set. -/
def setBits (s : Boot) (i : Word) : Nat → Boot
  | 0 => s
  | n + 1 => setBits (s.setBit i) (i + 1) n

/-- `reserve_bootmem_core`. The comparisons of `sidx` and `eidx` with 0 are never true of unsigned words
and are left out. -/
def reserveBootmemCore (s : Boot) (addr size : Word) : Outcome Boot Unit :=
  let bdata := s.bdata
  let sidx := (addr - bdata.nodeBootStart) / pageSize
  let eidx := (addr + size - bdata.nodeBootStart + pageSize - 1) / pageSize
  let endPfn := (addr + size + pageSize - 1) / pageSize
  if size = 0 then .bug s
  else if sidx ≥ eidx then .bug s
  else if addr >>> pageShift ≥ bdata.nodeLowPfn then .bug s
  else if endPfn > bdata.nodeLowPfn then .bug s
  else .ret () (setBits s sidx (passes sidx eidx))

/-- The loop over `j` of the page scan: the bits `j`, `j + 1`, … are clear and below `eidx`. -/
def restFree (s : Boot) (eidx j : Word) : Nat → Bool
  | 0 => true
  | n + 1 => if j ≥ eidx then false else if s.testBit j then false else restFree s eidx (j + 1) n

/-- As many passes as there are values of the loop variable: a scan that takes more never ends. -/
abbrev wordCount : Nat := 2 ^ 32

/-- The loop over `i` of the page scan, from `preferred` on; the outer `none` is a scan that never
ends. -/
def scanFrom (s : Boot) (eidx areasize incr preferred : Word) : Option (Option Word) :=
  Loop.run (fun i =>
    if i < eidx then
      if s.testBit i then .next (i + incr)
      else if restFree s eidx (i + 1) (passes (i + 1) (i + areasize)) then .done (some i)
      else .next (i + incr)
    else .done none) wordCount preferred

/-- The scan with its `goto restart_scan`. -/
def scan (s : Boot) (eidx areasize incr offset preferred : Word) : Option (Option Word) :=
  (Loop.run (fun preferred =>
    match scanFrom s eidx areasize incr preferred with
    | none => .done none
    | some (some start) => .done (some (some start))
    | some none => if preferred ≠ 0 then .next offset else .done (some none)) wordCount preferred).join

/-- The loop that reserves the area: the bits `i`, `i + 1`, …, none of which may be set. -/
def takeBits (s : Boot) (i : Word) : Nat → Outcome Boot Unit
  | 0 => .ret () s
  | n + 1 => if s.oldBit i then .bug (s.setBit i) else takeBits (s.setBit i) (i + 1) n

/-- The end of `__alloc_bootmem_core`: reserve the area, clear the block, return it. -/
def reserveArea (s : Boot) (start areasize ret size : Word) : Outcome Boot (Option Word) :=
  match takeBits s start (passes start (start + areasize)) with
  | .ret () s => .ret (some ret) (s.memset ret 0 size)
  | .bug s => .bug s
  | .hang => .hang

/-- `__alloc_bootmem_core` from the label `found` on. -/
def placeBlock (s : Boot) (size align eidx areasize start : Word) : Outcome Boot (Option Word) :=
  let bdata := s.bdata
  if start ≥ eidx then .bug s
  else if align ≤ pageSize ∧ bdata.lastOffset ≠ 0 ∧ bdata.lastPos + 1 = start then
    let offset := (bdata.lastOffset + align - 1) &&& ~~~(align - 1)
    if offset > pageSize then .bug s
    else
      let remainingSize := pageSize - offset
      let ret := physToVirt (bdata.lastPos * pageSize + offset + bdata.nodeBootStart)
      if size < remainingSize then
        let bdata := { bdata with lastOffset := (offset + size) &&& ~~~pageMask }
        reserveArea { s with bdata := bdata } start 0 ret size
      else
        let remainingSize := size - remainingSize
        let areasize := (remainingSize + pageSize - 1) / pageSize
        let bdata := { bdata with
          lastPos := start + areasize - 1
          lastOffset := remainingSize &&& ~~~pageMask }
        reserveArea { s with bdata := bdata } start areasize ret size
  else
    let bdata := { bdata with lastPos := start + areasize - 1, lastOffset := size &&& ~~~pageMask }
    reserveArea { s with bdata := bdata } start areasize
      (physToVirt (start * pageSize + bdata.nodeBootStart)) size

/-- `__alloc_bootmem_core`. The value is `none` for `return NULL` and the block's address for
`return ret`. -/
def allocBootmemCore (s : Boot) (size align goal : Word) : Outcome Boot (Option Word) :=
  let bdata := s.bdata
  let eidx := bdata.nodeLowPfn - (bdata.nodeBootStart >>> pageShift)
  if size = 0 then .bug s
  else if align &&& (align - 1) ≠ 0 then .bug s
  else
    let offset :=
      if align ≠ 0 ∧ bdata.nodeBootStart &&& (align - 1) ≠ 0 then
        align - (bdata.nodeBootStart &&& (align - 1))
      else 0
    let offset := offset >>> pageShift
    let preferred :=
      if goal ≠ 0 ∧ goal ≥ bdata.nodeBootStart ∧ goal >>> pageShift < bdata.nodeLowPfn then
        goal - bdata.nodeBootStart
      else 0
    let preferred := ((preferred + align - 1) &&& ~~~(align - 1)) >>> pageShift
    let preferred := preferred + offset
    let areasize := (size + pageSize - 1) / pageSize
    let incr := if align >>> pageShift ≠ 0 then align >>> pageShift else 1
    match scan s eidx areasize incr offset preferred with
    | none => .hang
    | some none => .ret none s
    | some (some start) => placeBlock s size align eidx areasize start

end Bootmem

end XosKernel
