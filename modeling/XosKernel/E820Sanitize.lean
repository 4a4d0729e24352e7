import XosKernel.E820Model
import XosKernel.BubbleSort

/-! The way of a memory map from the boot loader to `e820`: `init_biosmap`, `sanitize_e820_map`, which replaces
the map by one without overlaps, and `copy_e820_map`. Pointers to entries of the map are indices, and
`overlap_list` and `new_bios` are lists of the elements that are in use. -/

namespace XosKernel.E820

/-- `struct change_member`. -/
structure ChangeMember (n : Nat) where
  pbios : Fin n
  addr : BitVec 64
  deriving DecidableEq

/-- The variables of the loop over the change points. `slot` is `new_bios[new_bios_entry]` and `newBios` the
entries before it. -/
structure Sweep (n : Nat) where
  overlapList : List (Fin n)
  newBios : List E820Entry
  slot : E820Entry
  lastType : Word
  lastAddr : BitVec 64

namespace Sweep

variable {n : Nat}

def start : Sweep n := ⟨[], [], ⟨0, 0, 0⟩, 0, 0⟩

/-- The end of the current entry of the new map; `done` is the `break` when the new map is full. -/
def closeEntry (s : Sweep n) (addr : BitVec 64) : Loop.Pass (Sweep n) (Sweep n) :=
  if s.lastType ≠ 0 then
    let s := { s with slot := { s.slot with size := addr - s.lastAddr } }
    if s.slot.size ≠ 0 then
      let s := { s with newBios := s.newBios ++ [s.slot] }
      if s.newBios.length ≥ e820Max then .done s else .next s
    else .next s
  else .next s

/-- The start of the next entry of the new map. -/
def openEntry (s : Sweep n) (addr : BitVec 64) (currentType : Word) : Sweep n :=
  let s :=
    if currentType ≠ 0 then
      { s with slot := { s.slot with addr := addr, type := currentType }, lastAddr := addr }
    else s
  { s with lastType := currentType }

end Sweep

/-- The loop that removes an entry from the overlap list. `overlap_entries--` is in the body of the loop, so
every pass shortens the list. -/
def removeEntries {n : Nat} (pbios : Fin n) (i : Nat) : Nat → List (Fin n) → List (Fin n)
  | 0, overlapList => overlapList
  | fuel + 1, overlapList =>
      if i < overlapList.length then
        let overlapList :=
          if overlapList[i]? = some pbios then overlapList.set i (overlapList.getLastD pbios) else overlapList
        removeEntries pbios (i + 1) fuel overlapList.dropLast
      else overlapList

section

variable {n : Nat} (biosmap : Fin n → E820Entry)

/-- The start and the end of an entry that is not empty. -/
def entryPoints (i : Fin n) : List (ChangeMember n) :=
  if (biosmap i).size ≠ 0 then [⟨i, (biosmap i).addr⟩, ⟨i, (biosmap i).addr + (biosmap i).size⟩] else []

/-- The loop that records all change points. -/
def changePoints : List (ChangeMember n) := (List.finRange n).flatMap (entryPoints biosmap)

/-- The test by which the loops tell a start from an end. -/
def isStart (m : ChangeMember n) : Bool := m.addr == (biosmap m.pbios).addr

/-- The condition under which the sort swaps two neighbours. -/
def swapNeeded (current last : ChangeMember n) : Bool :=
  decide (current.addr < last.addr) ||
    (current.addr == last.addr && isStart biosmap current && !isStart biosmap last)

/-- `while (still_changing)`, for as many rounds as there are pairs of change points, and one. -/
def sortChangePoints (points : List (ChangeMember n)) : Option (List (ChangeMember n)) :=
  BubbleSort.sort (swapNeeded biosmap) (points.length * points.length + 1) points

/-- The loop that chooses the type of the overlapping entries. -/
def currentType (overlapList : List (Fin n)) : Word :=
  overlapList.foldl (fun type i => if (biosmap i).type > type then (biosmap i).type else type) 0

/-- The overlap list after a change point. -/
def trackOverlap (overlapList : List (Fin n)) (point : ChangeMember n) : List (Fin n) :=
  if isStart biosmap point then overlapList ++ [point.pbios]
  else removeEntries point.pbios 0 overlapList.length overlapList

/-- One pass of the loop over the change points. -/
def sweepPoint (s : Sweep n) (point : ChangeMember n) : Loop.Pass (Sweep n) (Sweep n) :=
  let s := { s with overlapList := trackOverlap biosmap s.overlapList point }
  let type := currentType biosmap s.overlapList
  if type ≠ s.lastType then
    match s.closeEntry point.addr with
    | .next s => .next (s.openEntry point.addr type)
    | .done s => .done s
  else .next s

/-- The loop over the change points. -/
def sweep (s : Sweep n) : List (ChangeMember n) → Sweep n
  | [] => s
  | point :: points =>
      match sweepPoint biosmap s point with
      | .next s => sweep s points
      | .done s => s

end

/-- `sanitize_e820_map`: the value it returns and the map it leaves; `none` is a sort that does not end. -/
def sanitizeE820Map (biosmap : List E820Entry) : Option (Int × List E820Entry) :=
  if biosmap.length < 2 then some (-1, biosmap)
  else if biosmap.any fun e => e.addr + e.size < e.addr then some (-1, biosmap)
  else
    match sortChangePoints biosmap.get (changePoints biosmap.get) with
    | none => none
    | some points => some (0, (sweep biosmap.get .start points).newBios)

/-! ### From the boot loader's map to `e820` -/

/-- `mmap_entry_t`. -/
structure MmapEntry where
  size : Word
  baseAddrLow : Word
  baseAddrHigh : Word
  lengthLow : Word
  lengthHigh : Word
  type : Word
  deriving DecidableEq

/-- `init_biosmap`, over the entries between `mmap_addr` and `mmap_addr + mmap_length`. -/
def initBiosmap (mmap : List MmapEntry) : List E820Entry :=
  mmap.map fun mapEntry => ⟨mapEntry.baseAddrLow.setWidth 64, mapEntry.lengthLow.setWidth 64, mapEntry.type⟩

/-- `add_memory_region`. -/
def addMemoryRegion (e820 : List E820Entry) (start size : BitVec 64) (type : Word) : List E820Entry :=
  if e820.length = e820Max then e820 else e820 ++ [⟨start, size, type⟩]

/-- The loop of `copy_e820_map`. -/
def copyEntries (e820 : List E820Entry) : List E820Entry → List E820Entry
  | [] => e820
  | entry :: biosmap =>
      let start := entry.addr
      let size := entry.size
      let end64 := start + size
      if start > end64 then e820
      else if entry.type = e820Ram ∧ start < 0x100000 ∧ end64 > 0xA0000 then
        let e820 :=
          if start < 0xA0000 then addMemoryRegion e820 start (0xA0000 - start) entry.type else e820
        if end64 ≤ 0x100000 then copyEntries e820 biosmap
        else copyEntries (addMemoryRegion e820 0x100000 (end64 - 0x100000) entry.type) biosmap
      else copyEntries (addMemoryRegion e820 start size entry.type) biosmap

/-- `copy_e820_map`. -/
def copyE820Map (e820 biosmap : List E820Entry) : List E820Entry :=
  if biosmap.length < 2 then e820 else copyEntries e820 biosmap

/-- `setup_memory_region`, which does not look at the value of `sanitize_e820_map`. -/
def setupMemoryRegion (mmap : List MmapEntry) : Option (List E820Entry) :=
  (sanitizeE820Map (initBiosmap mmap)).map fun result => copyE820Map [] result.2

end XosKernel.E820
