import XosKernel.EfiProtocol
import XosKernel.EnvStages

/-! The whole EFI stub: `efi_pe_entry` loads the kernel image, `efi_stub_common` looks up the runtime services that the
firmware has, and `efi_boot_kernel` hands over. `efi_novamap` is the one global variable of the stub. Its messages
and the copy of the kernel image are left out. -/

namespace XosKernel.Efi

open Memory Calls

/-! ### The system table -/

def loadedImageProtocolGuid : EfiGuid where
  a := 0x5b1b31a1
  b := 0x9562
  c := 0x11d2
  d := [0x8e, 0x3f, 0x00, 0xa0, 0xc9, 0x69, 0x72, 0x3b]

def efiRtPropertiesTableGuid : EfiGuid where
  a := 0xeb66918a
  b := 0x7eef
  c := 0x402a
  d := [0x84, 0x2e, 0x93, 0x1d, 0x21, 0xc3, 0x8a, 0xe9]

def linuxEfiMemreserveTableGuid : EfiGuid where
  a := 0x888eb0c6
  b := 0x8ede
  c := 0x4ff5
  d := [0xa8, 0xf0, 0x9a, 0xee, 0x5c, 0xb9, 0x77, 0xc2]

def efiSystemTableSignature : U64 := 0x5453595320494249

def efiRtSupportedSetVirtualAddressMap : U32 := 0x0080

def efiRtSupportedAll : U32 := 0x3fff

/-- `efi_config_table_t`. A null table is `0`. -/
structure EfiConfigTable where
  guid : EfiGuid
  table : U64

/-- `efi_system_table_t`, with the configuration tables that it points to. -/
structure EfiSystemTable where
  signature : U64
  tables : List EfiConfigTable

/-- The passes of `for (i = 0; i < nr_tables; i++)`: `nr_tables` is an `int`. -/
def nrTables (tables : List EfiConfigTable) : Nat := (BitVec.ofNat 32 tables.length).toInt.toNat

/-- `get_efi_config_table`. -/
def getEfiConfigTable (tables : List EfiConfigTable) (guid : EfiGuid) : U64 :=
  match (tables.take (nrTables tables)).find? fun t => t.guid = guid with
  | some t => t.table
  | none => 0

/-- `runtime_services_supported` of the table at `t`. -/
def runtimeServicesSupported (mem : Bytes) (t : U64) : U32 := load32 mem (t + 4)

/-- `get_supported_rt_services`. -/
def getSupportedRtServices (mem : Bytes) (tables : List EfiConfigTable) : U32 :=
  let rtPropTable := getEfiConfigTable tables efiRtPropertiesTableGuid
  if rtPropTable ≠ 0 then efiRtSupportedAll &&& runtimeServicesSupported mem rtPropTable else efiRtSupportedAll

/-! ### From `efi_stub_common` on -/

/-- `exit_boot_func`, with `efi_novamap` as it finds it. -/
def exitBootFuncWith (fuel : Nat) (efiNovamap : Bool) : MapProcessing ExitBootStruct := fun map p =>
  match efiGetVirtmap fuel efiNovamap map.map map.mapSize map.descSize p.runtimeMap with
  | none => .hang
  | some v =>
      return (efiSuccess, { map with map := v.map }, { runtimeMap := v.runtimeMap, runtimeEntryCount := v.count })

/-- `efi_boot_kernel`, with `efi_novamap` as it finds it. -/
def efiBootKernelWith (fuel : Nat) (_efiNovamap : Bool) (handle cmdlinePtr : U64) : Firmware BootEnd := do
  let (status, a) ← efiAllocVirtmap
  if status ≠ efiSuccess then return .failed status
  let efiNovamap := false
  let (status, priv) ←
    efiExitBootServices handle { runtimeMap := a.virtmap, runtimeEntryCount := 0 } (exitBootFuncWith fuel efiNovamap)
  if status ≠ efiSuccess then return .failed status
  let _ ← Prog.ask
    (.setVirtualAddressMap (priv.runtimeEntryCount.signExtend 64 * a.descSize) a.descSize a.descVer
      priv.runtimeMap)
  return .entered cmdlinePtr

/-- The value of `efi_novamap` makes no difference: it is overwritten before it is read. -/
theorem efiBootKernelWith_eq (fuel : Nat) (efiNovamap : Bool) (handle cmdlinePtr : U64) :
    efiBootKernelWith fuel efiNovamap handle cmdlinePtr = efiBootKernel fuel handle cmdlinePtr := rfl

def sizeofLinuxEfiMemreserve : U64 := 16

/-- `install_memreserve_table`, which only prints a note when it fails. -/
def installMemreserveTable : Firmware Unit := do
  let rsv ← Prog.ask (.allocatePool efiLoaderData sizeofLinuxEfiMemreserve)
  if rsv.status ≠ efiSuccess then return ()
  let _ ← Prog.ask (.installConfigurationTable linuxEfiMemreserveTableGuid rsv.buffer)
  return ()

/-- `check_platform_features`. -/
def checkPlatformFeatures : EfiStatus := efiSuccess

def efiStubCommon (fuel : Nat) (mem : Bytes) (sys : EfiSystemTable) (efiNovamap : Bool) (handle cmdlinePtr : U64) :
    Firmware BootEnd := do
  let status := checkPlatformFeatures
  if status ≠ efiSuccess then return .failed status
  let efiNovamap :=
    efiNovamap || (getSupportedRtServices mem sys.tables &&& efiRtSupportedSetVirtualAddressMap) == 0
  installMemreserveTable
  efiBootKernelWith fuel efiNovamap handle cmdlinePtr

/-! ### The entry -/

/-- The services that the entry calls, besides those of the handover. `free_pages` is there although the stub never
calls it: what may be freed is a matter of the firmware. -/
inductive StubCall where
  | handleProtocol (handle : U64) (protocol : EfiGuid)
  | allocatePages (type memoryType : U32) (pages memory : U64)
  | freePages (memory pages : U64)
  | boot (c : Call)

abbrev StubEvent := StubCall × Reply

abbrev StubFirmware := Prog StubCall Reply

def efiAllocateAddress : U32 := 2

def efiAllocAlign : U32 := 0x10000

/-- `EFI_KIMG_PREFERRED_ADDRESS`. -/
def efiKimgPreferredAddress : U64 := 0x9000000000200000 &&& ((1 <<< 48) - 1)

/-- The number of pages of the image, an `int`. -/
def imagePages (kernelAsize : U32) : U32 :=
  ((((kernelAsize - 1) ||| (efiAllocAlign - 1)) + 1).signExtend 64 / efiPageSize).setWidth 32

/-- `handle_kernel_image`, which returns the address of the image through a pointer. -/
def handleKernelImage (kernelAsize : U32) : StubFirmware (EfiStatus × U64) := do
  let p ← Prog.ask (.allocatePages efiAllocateAddress efiLoaderData ((imagePages kernelAsize).signExtend 64)
    efiKimgPreferredAddress)
  return (p.status, efiKimgPreferredAddress)

def efiPeEntry (fuel : Nat) (kernelAsize : U32) (mem : Bytes) (sys : EfiSystemTable) (efiNovamap : Bool)
    (handle : U64) : StubFirmware BootEnd := do
  if sys.signature ≠ efiSystemTableSignature then return .failed efiInvalidParameter
  let image ← Prog.ask (.handleProtocol handle loadedImageProtocolGuid)
  if image.status ≠ efiSuccess then return .failed image.status
  let (status, _) ← handleKernelImage kernelAsize
  if status ≠ efiSuccess then return .failed status
  (efiStubCommon fuel mem sys efiNovamap handle 0).mapCalls .boot

end XosKernel.Efi
