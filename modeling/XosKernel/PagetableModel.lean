import XosKernel.LoopRules
import XosKernel.WordMemory
import XosKernel.BootmemModel

/-! `pagetable_init` of the 32-bit port, and the address translation of the processor. The directory
`swapper_pg_dir` and the page tables lie in memory, under their kernel virtual addresses; the pages of
the tables come from the boot-time allocator, which clears them. -/

namespace XosKernel.Paging

open Memory Loop

abbrev pgdirShift : Nat := 22

abbrev pgdirSize : Word := 1 <<< 22

abbrev pmdSize : Word := 1 <<< 22

abbrev ptrsPerPgd : Nat := 1024

abbrev ptrsPerPmd : Nat := 1

abbrev ptrsPerPte : Nat := 1024

def pagePresent : Word := 0x001

def pageRw : Word := 0x002

def pageUser : Word := 0x004

def pageAccessed : Word := 0x020

def pageDirty : Word := 0x040

def pagePse : Word := 0x080

/-- `_KERNPG_TABLE`. -/
def kernpgTable : Word := pagePresent ||| pageRw ||| pageAccessed ||| pageDirty

/-- `PAGE_KERNEL`, without `CONFIG_X86_PGE`. -/
def pageKernel : Word := pagePresent ||| pageRw ||| pageDirty ||| pageAccessed

def pgdOffset (address : Word) : Word := (address >>> pgdirShift) &&& (1024 - 1)

/-- `__mk_pte`. -/
def mkPte (pageNr pgprot : Word) : Word := (pageNr <<< pageShift) ||| pgprot

def mkPtePhys (physpage pgprot : Word) : Word := mkPte (physpage >>> pageShift) pgprot

def pmdPage (pmd : Word) : Word := physToVirt (pmd &&& pageMask)

/-- `pte_offset`, for the entry at `dir`. -/
def pteOffset (m : Mem 32) (dir address : Word) : Word :=
  pmdPage (load32 m dir) + 4 * ((address >>> pageShift) &&& (1024 - 1))

/-- The middle directory is folded into the directory. -/
def pmdOffset (dir _address : Word) : Word := dir

@[simp] theorem pmdOffset_eq (dir address : Word) : pmdOffset dir address = dir := rfl

/-- What `alloc_bootmem_low_pages` does in `count` calls: call `n` returns the page `page n` and turns the
memory into `take n`. The pages are aligned and cleared, and apart from one another and from the
directory; a call leaves the directory and the pages of the calls before it. -/
structure LowPages (pgDir : Word) (count : Nat) where
  page : Nat → Word
  take : Nat → Mem 32 → Mem 32
  aligned : ∀ n < count, (page n).toNat % 4096 = 0
  apart : ∀ n < count, ∀ k < n, page n ≠ page k
  apartDir : ∀ n < count, page n ≠ pgDir
  cleared : ∀ n < count, ∀ m b, InPage (page n) b → take n m b = 0
  keepsDir : ∀ n < count, ∀ m b, InPage pgDir b → take n m b = m b
  keepsPage : ∀ n < count, ∀ k < n, ∀ m b, InPage (page k) b → take n m b = m b

/-- The memory and the number of pages that were allocated. -/
structure State where
  mem : Mem 32
  calls : Nat

section

variable {pgDir : Word} {count : Nat} (source : LowPages pgDir count)

/-- The test `end && (vaddr >= end)`. -/
def pastEnd (endAddr vaddr : Word) : Bool := endAddr != 0 && decide (endAddr ≤ vaddr)

/-- `vaddr` in the three loops. -/
def vaddrOf (i j k : Nat) : Word :=
  BitVec.ofNat 32 i * pgdirSize + BitVec.ofNat 32 j * pmdSize + BitVec.ofNat 32 k * pageSize

/-- The loop over the entries of the page table `pteBase`. -/
def fillTable (endAddr pteBase : Word) (i j : Nat) : State → Option State :=
  forUntil (fun k => pastEnd endAddr (vaddrOf i j k))
    (fun k s =>
      some { s with mem := store32 s.mem (entry pteBase k) (mkPtePhys (virtToPhys (vaddrOf i j k)) pageKernel) })
    0 ptrsPerPte

/-- The body of the loop over `pmd`: `none` where `BUG()` is reached. -/
def fillPmd (endAddr pmd : Word) (i j : Nat) (s : State) : Option State := do
  let pteBase := source.page s.calls
  let s ← fillTable endAddr pteBase i j { mem := source.take s.calls s.mem, calls := s.calls + 1 }
  let s := { s with mem := store32 s.mem pmd (kernpgTable + virtToPhys pteBase) }
  if pteBase ≠ pteOffset s.mem pmd 0 then none else some s

/-- The body of the loop over `pgd`: `none` where `BUG()` is reached. -/
def fillPgd (endAddr pgd : Word) (i : Nat) (s : State) : Option State :=
  let pmd := pgd
  if pmd ≠ pmdOffset pgd 0 then none
  else
    forUntil (fun j => pastEnd endAddr (vaddrOf i j 0)) (fun j => fillPmd source endAddr (entry pmd j) i j) 0
      ptrsPerPmd s

/-- `pagetable_init`, on the memory at its start: `none` where it reaches `BUG()`. -/
def pagetableInit (maxLowPfn : Word) (m : Mem 32) : Option State :=
  let endAddr := physToVirt (maxLowPfn * pageSize)
  let start := (pgdOffset pageOffset).toNat
  forUntil (fun i => pastEnd endAddr (vaddrOf i 0 0)) (fun i => fillPgd source endAddr (entry pgDir i) i) start
    (ptrsPerPgd - start) { mem := m, calls := 0 }

end

/-! ### The processor -/

/-- Where a virtual address leads. -/
structure Mapping where
  phys : Word
  writable : Bool
  user : Bool
  deriving DecidableEq

def hasFlag (e flag : Word) : Bool := e &&& flag != 0

/-- The two-level translation with the directory at `pgDir`. A directory entry with `_PAGE_PSE` maps
4 MB; both levels have to allow writes and user access. -/
def walk (m : Mem 32) (pgDir vaddr : Word) : Option Mapping :=
  let pde := load32 m (entry pgDir (vaddr >>> pgdirShift).toNat)
  if ¬ hasFlag pde pagePresent then none
  else if hasFlag pde pagePse then
    some
      { phys := (pde &&& 0xFFC00000) ||| (vaddr &&& 0x003FFFFF)
        writable := hasFlag pde pageRw
        user := hasFlag pde pageUser }
  else
    let pte :=
      load32 m (entry (physToVirt (pde &&& pageMask)) ((vaddr >>> pageShift) &&& (1024 - 1)).toNat)
    if ¬ hasFlag pte pagePresent then none
    else
      some
        { phys := (pte &&& pageMask) ||| (vaddr &&& ~~~pageMask)
          writable := hasFlag pde pageRw && hasFlag pte pageRw
          user := hasFlag pde pageUser && hasFlag pte pageUser }

end XosKernel.Paging
