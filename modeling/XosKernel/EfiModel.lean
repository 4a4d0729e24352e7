import XosKernel.EnvCalls
import XosKernel.ByteMemory

/-! The handover of the EFI stub to the kernel: `efi_alloc_virtmap`, `efi_get_virtmap`,
`efi_get_memory_map`, `efi_exit_boot_services`, `exit_boot_func` and `efi_boot_kernel`, as programs that
call the firmware. The three blocks that the stub works on (the memory map, the runtime map and the
variables on its stack) are apart. Every reply has all the values that some service returns through a
pointer; a caller reads those that its service has. -/

namespace XosKernel.Efi

open Memory Calls

abbrev U32 := BitVec 32

abbrev U64 := BitVec 64

/-- The bytes of a block, by their offset. -/
abbrev Bytes := Mem 64

abbrev EfiStatus := U64

def efiSuccess : EfiStatus := 0

def efiLoadError : EfiStatus := 1 ||| (1 <<< 63)

def efiInvalidParameter : EfiStatus := 2 ||| (1 <<< 63)

def efiBufferTooSmall : EfiStatus := 5 ||| (1 <<< 63)

def efiLoaderData : U32 := 2

def efiAcpiReclaimMemory : U32 := 9

def efiMmapNrSlackSlots : U64 := 8

def efiMemoryRuntime : U64 := 0x8000000000000000

def efiPageSize : U64 := 1 <<< 12

structure EfiGuid where
  a : U32
  b : BitVec 16
  c : BitVec 16
  d : List (BitVec 8)
  deriving DecidableEq

def linuxEfiBootMemmapGuid : EfiGuid where
  a := 0x800f683f
  b := 0xd08b
  c := 0x423a
  d := [0xa2, 0x93, 0x96, 0x5c, 0x3c, 0x6f, 0xe2, 0xb4]

/-- The firmware services that the stub calls. A null pointer is `0`. -/
inductive Call where
  | getMemoryMap (mapSize memoryMap : U64)
  | allocatePool (poolType : U32) (size : U64)
  | freePool (buffer : U64)
  | installConfigurationTable (guid : EfiGuid) (table : U64)
  | exitBootServices (handle mapKey : U64)
  | setVirtualAddressMap (memoryMapSize descSize : U64) (descVer : U32) (virtualMap : Bytes)

/-- What a service returns: its status, the block that it allocated, and the memory map. -/
structure Reply where
  status : EfiStatus
  buffer : U64
  bytes : Bytes
  mapSize : U64
  mapKey : U64
  descSize : U64
  descVer : U32

abbrev Firmware := Prog Call Reply

abbrev Event := Call × Reply

/-- `struct efi_boot_memmap`, with the address `addr` of its block. -/
structure EfiBootMemmap where
  addr : U64
  mapSize : U64
  descSize : U64
  descVer : U32
  mapKey : U64
  buffSize : U64
  map : Bytes

def sizeofEfiBootMemmap : U64 := 40

structure ExitBootStruct where
  runtimeMap : Bytes
  runtimeEntryCount : U32

/-! ### `efi_get_virtmap` -/

def sz64K : U64 := 0x10000

def sz2M : U64 := 0x200000

def sz512M : U64 := 0x20000000

def roundUp (x y : U64) : U64 := ((x - 1) ||| (y - 1)) + 1

def roundDown (x y : U64) : U64 := x &&& ~~~(y - 1)

/-- `CSR_DMW0_BASE`. -/
def efiRtVirtualOffset : U64 := 0x8000 <<< 48

def virtmapBase : U64 := sz512M

def flatVaMapping : Bool := efiRtVirtualOffset != 0

/-- The variables of `efi_get_virtmap`: the map that it reads and amends, the runtime map that it builds
and the offset of `out` in it. -/
structure Virtmap where
  l : U32
  efiVirtBase : U64
  map : Bytes
  out : U64
  runtimeMap : Bytes
  count : U32

/-- The offset of the descriptor `in`: `l` is a signed `int`. -/
def Virtmap.pos (s : Virtmap) : U64 := s.l.signExtend 64

def Virtmap.physAddr (s : Virtmap) : U64 := load64 s.map (s.pos + 8)

def Virtmap.numPages (s : Virtmap) : U64 := load64 s.map (s.pos + 24)

def Virtmap.attribute (s : Virtmap) : U64 := load64 s.map (s.pos + 32)

/-- `in->virt_addr = v`. -/
def Virtmap.setVirtAddr (s : Virtmap) (v : U64) : Virtmap := { s with map := store64 s.map (s.pos + 16) v }

/-- `l += desc_size`. -/
def Virtmap.advance (s : Virtmap) (descSize : U64) : Virtmap :=
  { s with l := (s.pos + descSize).setWidth 32 }

/-- The mapping that is not flat: the virtual addresses follow one another from `efi_virt_base` on. -/
def Virtmap.place (s : Virtmap) (size virtAddr : U64) : Virtmap :=
  let paddr := roundDown s.physAddr sz64K
  let size := size + (s.physAddr - paddr)
  let base :=
    if s.physAddr &&& (sz2M - 1) = 0 ∧ sz2M ≤ size then roundUp s.efiVirtBase sz2M
    else roundUp s.efiVirtBase sz64K
  { s.setVirtAddr (virtAddr + (base - paddr)) with efiVirtBase := base + size }

/-- The copy of the descriptor `in` to `out`. -/
def Virtmap.emit (s : Virtmap) (descSize : U64) : Virtmap :=
  { s with
    runtimeMap := copy s.runtimeMap s.out s.map s.pos descSize.toNat
    out := s.out + descSize
    count := s.count + 1 }

/-- The body of the loop for a descriptor with `EFI_MEMORY_RUNTIME`. -/
def Virtmap.enter (s : Virtmap) (novamap : Bool) (descSize : U64) : Virtmap :=
  let virtAddr := s.physAddr + efiRtVirtualOffset
  let t := s.setVirtAddr virtAddr
  if novamap then t
  else if flatVaMapping then t.emit descSize
  else (t.place (s.numPages * efiPageSize) virtAddr).emit descSize

def virtmapPass (novamap : Bool) (mapSize descSize : U64) (s : Virtmap) : Loop.Pass Virtmap Virtmap :=
  if ¬ s.pos < mapSize then .done s
  else if s.attribute &&& efiMemoryRuntime = 0 then .next (s.advance descSize)
  else .next ((s.enter novamap descSize).advance descSize)

/-- `efi_get_virtmap`, for at most `fuel` passes of its loop. -/
def efiGetVirtmap (fuel : Nat) (novamap : Bool) (map : Bytes) (mapSize descSize : U64)
    (runtimeMap : Bytes) : Option Virtmap :=
  Loop.run (virtmapPass novamap mapSize descSize) fuel
    { l := 0, efiVirtBase := virtmapBase, map, out := 0, runtimeMap, count := 0 }

/-! ### The calls of the firmware -/

/-- What `efi_alloc_virtmap` returns through its pointers. -/
structure VirtmapAlloc where
  virtmap : Bytes
  descSize : U64
  descVer : U32

def efiAllocVirtmap : Firmware (EfiStatus × VirtmapAlloc) := do
  let m ← Prog.ask (.getMemoryMap 0 0)
  let found (virtmap : Bytes) : VirtmapAlloc := { virtmap, descSize := m.descSize, descVer := m.descVer }
  if m.status ≠ efiBufferTooSmall then return (efiLoadError, found m.bytes)
  let p ← Prog.ask (.allocatePool efiLoaderData m.mapSize)
  return (p.status, found p.bytes)

/-- The label `free_map` of `efi_get_memory_map`. -/
def freeMap (m : U64) (status : EfiStatus) : Firmware (Except EfiStatus EfiBootMemmap) := do
  let _ ← Prog.ask (.freePool m)
  return .error status

/-- The label `uninstall_table` of `efi_get_memory_map`. -/
def uninstallTable (installCfgTbl : Bool) (m : U64) (status : EfiStatus) :
    Firmware (Except EfiStatus EfiBootMemmap) := do
  if installCfgTbl then
    let _ ← Prog.ask (.installConfigurationTable linuxEfiBootMemmapGuid 0)
    freeMap m status
  else freeMap m status

/-- The call of `efi_get_memory_map` that fills the block `m`, with room for `size` bytes of map. -/
def fillMap (installCfgTbl : Bool) (m size : U64) : Firmware (Except EfiStatus EfiBootMemmap) := do
  let r ← Prog.ask (.getMemoryMap size (m + sizeofEfiBootMemmap))
  if r.status ≠ efiSuccess then uninstallTable installCfgTbl m r.status
  else
    return .ok
      { addr := m, mapSize := r.mapSize, descSize := r.descSize, descVer := r.descVer,
        mapKey := r.mapKey, buffSize := size, map := r.bytes }

/-- `EFI_SUCCESS` with the map, or the status of a failure. -/
def efiGetMemoryMap (installCfgTbl : Bool) : Firmware (Except EfiStatus EfiBootMemmap) := do
  let memtype := if installCfgTbl then efiAcpiReclaimMemory else efiLoaderData
  let tmp ← Prog.ask (.getMemoryMap 0 0)
  if tmp.status ≠ efiBufferTooSmall then return .error efiLoadError
  let size := tmp.mapSize + tmp.descSize * efiMmapNrSlackSlots
  let p ← Prog.ask (.allocatePool memtype (sizeofEfiBootMemmap + size))
  if p.status ≠ efiSuccess then return .error p.status
  if installCfgTbl then
    let t ← Prog.ask (.installConfigurationTable linuxEfiBootMemmapGuid p.buffer)
    if t.status ≠ efiSuccess then freeMap p.buffer t.status
    else fillMap installCfgTbl p.buffer size
  else fillMap installCfgTbl p.buffer size

variable {P : Type}

/-- `efi_exit_boot_map_processing`: it may amend the map and its own data. -/
abbrev MapProcessing (P : Type) := EfiBootMemmap → P → Firmware (EfiStatus × EfiBootMemmap × P)

def efiExitBootServices (handle : U64) (priv : P) (privFunc : MapProcessing P) : Firmware (EfiStatus × P) := do
  match ← efiGetMemoryMap true with
  | .error status => return (status, priv)
  | .ok map =>
    let (status, map, priv) ← privFunc map priv
    if status ≠ efiSuccess then
      let _ ← Prog.ask (.freePool map.addr)
      return (status, priv)
    let x ← Prog.ask (.exitBootServices handle map.mapKey)
    if x.status = efiInvalidParameter then
      let m ← Prog.ask (.getMemoryMap map.buffSize (map.addr + sizeofEfiBootMemmap))
      if m.status ≠ efiSuccess then return (m.status, priv)
      let (status, map, priv) ← privFunc
        { map with
          mapSize := m.mapSize, descSize := m.descSize, descVer := m.descVer, mapKey := m.mapKey,
          map := m.bytes } priv
      if status ≠ efiSuccess then return (status, priv)
      let y ← Prog.ask (.exitBootServices handle map.mapKey)
      return (y.status, priv)
    return (x.status, priv)

/-- `exit_boot_func`, with `efi_novamap` as `efi_boot_kernel` leaves it. It does not return when
`efi_get_virtmap` does not. -/
def exitBootFunc (fuel : Nat) : MapProcessing ExitBootStruct := fun map p =>
  match efiGetVirtmap fuel false map.map map.mapSize map.descSize p.runtimeMap with
  | none => .hang
  | some v =>
      return (efiSuccess, { map with map := v.map }, { runtimeMap := v.runtimeMap, runtimeEntryCount := v.count })

/-- How `efi_boot_kernel` ends: with a status, or in the kernel. -/
inductive BootEnd where
  | failed (status : EfiStatus)
  | entered (cmdline : U64)
  deriving DecidableEq

def efiBootKernel (fuel : Nat) (handle cmdlinePtr : U64) : Firmware BootEnd := do
  let (status, a) ← efiAllocVirtmap
  if status ≠ efiSuccess then return .failed status
  -- `runtime_entry_count` has no value before `exit_boot_func`
  let (status, priv) ←
    efiExitBootServices handle { runtimeMap := a.virtmap, runtimeEntryCount := 0 } (exitBootFunc fuel)
  if status ≠ efiSuccess then return .failed status
  let _ ← Prog.ask
    (.setVirtualAddressMap (priv.runtimeEntryCount.signExtend 64 * a.descSize) a.descSize a.descVer
      priv.runtimeMap)
  return .entered cmdlinePtr

end XosKernel.Efi
