import XosKernel.BootmemModel
import Mathlib.Data.Set.Lattice
import Mathlib.Order.CompletePartialOrder

/-! The memory map of `arch/x86/kernel/setup.c` and what `setup_memory` makes of it. The entries have 64-bit
addresses and sizes; page numbers and everything that `setup_memory` computes are 32-bit words. -/

namespace XosKernel.E820

open Bootmem

/-- `struct e820entry`. -/
structure E820Entry where
  addr : BitVec 64
  size : BitVec 64
  type : Word
  deriving DecidableEq

/-- The addresses of an entry. -/
def E820Entry.bytes (e : E820Entry) : Set Nat := {a | e.addr.toNat ≤ a ∧ a < e.addr.toNat + e.size.toNat}

/-- `E820MAX`. -/
abbrev e820Max : Nat := 32

/-- `E820_RAM`. -/
abbrev e820Ram : Word := 1

/-- `HIGH_MEMORY`. -/
abbrev highMemory : Word := 1024 * 1024

/-- `VMALLOC_RESERVE`. -/
abbrev vmallocReserve : Word := 128 <<< 20

/-- `MAXMEM_PFN`. -/
abbrev maxmemPfn : Word := (-pageOffset - vmallocReserve) >>> pageShift

/-- `PFN_UP` of a 64-bit address, assigned to an `unsigned long`. -/
def pfnUp64 (x : BitVec 64) : Word := ((x + 4096 - 1) >>> pageShift).setWidth 32

/-- `PFN_DOWN` of a 64-bit address, assigned to an `unsigned long`. -/
def pfnDown64 (x : BitVec 64) : Word := (x >>> pageShift).setWidth 32

/-- `PFN_UP`. -/
def pfnUp (x : Word) : Word := (x + pageSize - 1) >>> pageShift

/-- `PFN_PHYS`. -/
def pfnPhys (x : Word) : Word := x <<< pageShift

/-- `find_max_pfn`. -/
def findMaxPfn (e820 : List E820Entry) : Word :=
  e820.foldl (fun maxPfn e =>
    if e.type ≠ e820Ram then maxPfn
    else
      let start := pfnUp64 e.addr
      let endPfn := pfnDown64 (e.addr + e.size)
      if start ≥ endPfn then maxPfn
      else if endPfn > maxPfn then endPfn else maxPfn) 0

/-- `find_max_low_pfn`. -/
def findMaxLowPfn (maxPfn : Word) : Word := if maxPfn > maxmemPfn then maxmemPfn else maxPfn

/-- `register_bootmem_low_pages`. -/
def registerBootmemLowPages (s : Boot) (maxLowPfn : Word) : List E820Entry → Outcome Boot Unit
  | [] => .ret () s
  | e :: rest =>
      let currPfn := pfnUp64 e.addr
      let lastPfn := pfnDown64 (e.addr + e.size)
      let lastPfn := if lastPfn > maxLowPfn then maxLowPfn else lastPfn
      if e.type ≠ e820Ram then registerBootmemLowPages s maxLowPfn rest
      else if currPfn ≥ maxLowPfn then registerBootmemLowPages s maxLowPfn rest
      else if lastPfn ≤ currPfn then registerBootmemLowPages s maxLowPfn rest
      else
        match freeBootmemCore s (pfnPhys currPfn) (pfnPhys (lastPfn - currPfn)) with
        | .ret () s => registerBootmemLowPages s maxLowPfn rest
        | .bug s => .bug s
        | .hang => .hang

/-- The end of the memory that is reserved for the kernel and the bitmap. -/
def reserveEnd (startPfn bootmapSize : Word) : Word := pfnPhys startPfn + bootmapSize + pageSize - 1

/-- The globals that `setup_memory` and `init_bootmem` set. -/
structure PfnLimits where
  maxPfn : Word
  maxLowPfn : Word
  minLowPfn : Word

/-- `setup_memory`, with `&_end` as an argument. -/
def setupMemory (s : Boot) (e820 : List E820Entry) (kernelEnd : Word) : Outcome Boot PfnLimits :=
  let startPfn := pfnUp (virtToPhys kernelEnd)
  let maxPfn := findMaxPfn e820
  let maxLowPfn := findMaxLowPfn maxPfn
  let node := initBootmemCore s startPfn 0 maxLowPfn
  let bootmapSize := node.1
  match registerBootmemLowPages node.2 maxLowPfn e820 with
  | .ret () s =>
      match reserveBootmemCore s highMemory (reserveEnd startPfn bootmapSize - highMemory) with
      | .ret () s =>
          (reserveBootmemCore s 0 pageSize).map fun _ => ⟨maxPfn, maxLowPfn, startPfn⟩
      | .bug s => .bug s
      | .hang => .hang
  | .bug s => .bug s
  | .hang => .hang

end XosKernel.E820
