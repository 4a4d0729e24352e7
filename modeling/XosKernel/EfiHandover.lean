import XosKernel.EfiProtocol

/-! `efi_boot_kernel` obeys the protocol: each function of the stub is a run of phases, whatever the
firmware replies. -/

namespace XosKernel.Efi

open Calls Prog

/-- A copy of the memory map that the firmware returned. -/
structure Holds (map : EfiBootMemmap) (m : Reply) : Prop where
  bytes : map.map = m.bytes
  mapSize : map.mapSize = m.mapSize
  descSize : map.descSize = m.descSize
  mapKey : map.mapKey = m.mapKey

/-- The data of `exit_boot_func` after it ran on the memory map `m`. -/
def Prepared (fuel : Nat) (m : Reply) (p : ExitBootStruct) : Prop :=
  BuiltFrom fuel m (p.runtimeEntryCount.signExtend 64 * m.descSize) p.runtimeMap

/-- How `efi_get_memory_map` ends: with a status other than `EFI_SUCCESS`, or with the current memory
map. -/
def GotMap (d : U64) : Except EfiStatus EfiBootMemmap → Phase → Prop
  | .error status, _ => status ≠ efiSuccess
  | .ok map, s => ∃ m, s = .boot (some m) ∧ m.descSize = d ∧ Holds map m

theorem efiLoadError_ne : efiLoadError ≠ efiSuccess := by decide

section

variable {fuel : Nat} {d : U64}

/-- Every boot service but the exit may be called before the first exit. -/
theorem obeys_other {α : Type} {c : Call} {f : Reply → Firmware α} {map : Option Reply}
    {Post : α → Phase → Prop} (hboot : c.isBootService) (hexit : c.isExitBootServices = false)
    (h : ∀ r : Reply, r.descSize = d →
      (f r).Obeys (·.descSize = d) (Phase.Step fuel) (.boot none) Post) :
    (ask c >>= f).Obeys (·.descSize = d) (Phase.Step fuel) (.boot map) Post :=
  obeys_ask fun r hr => ⟨_, .other hboot hexit, h r hr⟩

theorem freeMap_obeys (p : U64) {status : EfiStatus} (hstatus : status ≠ efiSuccess) (map : Option Reply) :
    (freeMap p status).Obeys (·.descSize = d) (Phase.Step fuel) (.boot map) (GotMap d) :=
  obeys_other rfl rfl fun _ _ => hstatus

theorem uninstallTable_obeys (installCfgTbl : Bool) (p : U64) {status : EfiStatus}
    (hstatus : status ≠ efiSuccess) (map : Option Reply) :
    (uninstallTable installCfgTbl p status).Obeys (·.descSize = d) (Phase.Step fuel) (.boot map) (GotMap d) := by
  refine obeys_ite (fun _ => ?_) fun _ => freeMap_obeys p hstatus map
  exact obeys_other rfl rfl fun _ _ => freeMap_obeys p hstatus none

theorem fillMap_obeys (installCfgTbl : Bool) (p size : U64) (map : Option Reply) :
    (fillMap installCfgTbl p size).Obeys (·.descSize = d) (Phase.Step fuel) (.boot map) (GotMap d) := by
  refine obeys_ask fun r hr => ?_
  by_cases hstatus : r.status = efiSuccess
  · refine ⟨_, .map hstatus, obeys_ite (absurd hstatus) fun _ => ?_⟩
    exact ⟨r, rfl, hr, rfl, rfl, rfl, rfl⟩
  · refine ⟨_, .other rfl rfl, obeys_ite (fun _ => ?_) fun h => absurd hstatus h⟩
    exact uninstallTable_obeys installCfgTbl p hstatus none

theorem efiGetMemoryMap_obeys (installCfgTbl : Bool) (map : Option Reply) :
    (efiGetMemoryMap installCfgTbl).Obeys (·.descSize = d) (Phase.Step fuel) (.boot map) (GotMap d) := by
  refine obeys_other rfl rfl fun tmp _ => obeys_ite (fun _ => efiLoadError_ne) fun _ => ?_
  refine obeys_other rfl rfl fun p _ => obeys_ite (fun hfail => hfail) fun _ => ?_
  refine obeys_ite (fun _ => ?_) fun _ => fillMap_obeys installCfgTbl _ _ none
  refine obeys_other rfl rfl fun t _ => obeys_ite (fun hfail => ?_) fun _ => ?_
  · exact freeMap_obeys _ hfail none
  · exact fillMap_obeys installCfgTbl _ _ none

theorem efiAllocVirtmap_obeys (map : Option Reply) :
    efiAllocVirtmap.Obeys (·.descSize = d) (Phase.Step fuel) (.boot map)
      fun a s => s = .boot none ∧ a.2.descSize = d := by
  refine obeys_other rfl rfl fun m hm => obeys_ite (fun _ => ⟨rfl, hm⟩) fun _ => ?_
  exact obeys_other rfl rfl fun p _ => ⟨rfl, hm⟩

/-- `exit_boot_func` calls no service, and leaves a runtime map of the memory map that it was given. -/
theorem exitBootFunc_obeys {map : EfiBootMemmap} {m : Reply} (hmap : Holds map m) (p : ExitBootStruct)
    (s : Phase) :
    (exitBootFunc fuel map p).Obeys (·.descSize = d) (Phase.Step fuel) s
      fun a t => t = s ∧ a.1 = efiSuccess ∧ a.2.1.mapKey = m.mapKey ∧ Prepared fuel m a.2.2 := by
  unfold exitBootFunc
  rw [hmap.bytes, hmap.mapSize, hmap.descSize]
  cases hrun : efiGetVirtmap fuel false m.bytes m.mapSize m.descSize p.runtimeMap with
  | none => exact obeys_hang
  | some v =>
      refine ⟨rfl, rfl, hmap.mapKey, fun old => ?_⟩
      obtain ⟨v', hrun', hsame⟩ := efiGetVirtmap_same hrun old
      refine ⟨v', hrun', ?_, fun i hi => hsame.below i (by rwa [hsame.out])⟩
      rw [← hsame.count]

/-- When `efi_exit_boot_services` succeeds, the firmware accepted the key of the memory map that
`exit_boot_func` ran on last. -/
theorem efiExitBootServices_obeys (handle : U64) (p : ExitBootStruct) (map : Option Reply) :
    (efiExitBootServices handle p (exitBootFunc fuel)).Obeys (·.descSize = d) (Phase.Step fuel) (.boot map)
      fun a s => a.1 = efiSuccess → ∃ m, s = .exited m ∧ m.descSize = d ∧ Prepared fuel m a.2 := by
  refine (efiGetMemoryMap_obeys true map).bind fun got s hgot => ?_
  cases got with
  | error status => exact fun hsuccess => absurd hsuccess hgot
  | ok map =>
      obtain ⟨m, rfl, hd, hmap⟩ := hgot
      refine (exitBootFunc_obeys hmap p _).bind fun a t ha => ?_
      obtain ⟨status, map₁, p₁⟩ := a
      obtain ⟨rfl, hstatus, hkey, hprep⟩ := ha
      dsimp only at hstatus hkey hprep ⊢
      refine obeys_ite (fun hfail => absurd hstatus hfail) fun _ => ?_
      rw [hkey]
      refine obeys_ask fun x _ => ?_
      by_cases hx : x.status = efiSuccess
      · have hvalid : x.status ≠ efiInvalidParameter := by
          rw [hx]
          decide
        exact ⟨_, .accept hx, obeys_ite (fun h => absurd h hvalid) fun _ _ => ⟨m, rfl, hd, hprep⟩⟩
      refine ⟨_, .refuse hx, obeys_ite (fun _ => ?_) fun _ h => absurd h hx⟩
      -- the firmware refused the key: a second memory map in the same block, and a second exit
      refine obeys_ask fun m₂ hd₂ => ?_
      by_cases hm₂ : m₂.status = efiSuccess
      · refine ⟨_, .remap hm₂, obeys_ite (fun h => absurd hm₂ h) fun _ => ?_⟩
        refine (exitBootFunc_obeys (m := m₂) ⟨rfl, rfl, rfl, rfl⟩ p₁ _).bind fun b u hb => ?_
        obtain ⟨status₂, map₂, p₂⟩ := b
        obtain ⟨rfl, hstatus₂, hkey₂, hprep₂⟩ := hb
        dsimp only at hstatus₂ hkey₂ hprep₂ ⊢
        refine obeys_ite (fun hfail => absurd hstatus₂ hfail) fun _ => ?_
        rw [hkey₂]
        refine obeys_ask fun y _ => ?_
        by_cases hy : y.status = efiSuccess
        · exact ⟨_, .acceptAgain hy, fun _ => ⟨m₂, rfl, hd₂, hprep₂⟩⟩
        · exact ⟨_, .refuseAgain hy, fun h => absurd h hy⟩
      · exact ⟨_, .remapFail hm₂, obeys_ite (fun _ h => absurd h hm₂) fun h => absurd hm₂ h⟩

theorem efiBootKernel_obeys (handle cmdlinePtr : U64) :
    (efiBootKernel fuel handle cmdlinePtr).Obeys (·.descSize = d) (Phase.Step fuel) (.boot none)
      fun _ _ => True := by
  refine (efiAllocVirtmap_obeys none).bind fun a s ha => ?_
  obtain ⟨status, a⟩ := a
  obtain ⟨rfl, hsize⟩ := ha
  refine obeys_ite (fun _ => trivial) fun _ => ?_
  refine (efiExitBootServices_obeys handle _ none).bind fun b t hb => ?_
  obtain ⟨status', p⟩ := b
  refine obeys_ite (fun _ => trivial) fun hstatus => ?_
  obtain ⟨m, rfl, hd, hprep⟩ := hb (not_not.mp hstatus)
  dsimp only at hsize hprep ⊢
  rw [hsize, ← hd]
  exact obeys_ask fun r _ => ⟨_, .setVirtual hprep, trivial⟩

end

/-- **The exit protocol** of `efi_boot_kernel`, for every sequence of firmware replies with one descriptor
size. -/
theorem efiBootKernel_exitProtocol (fuel : Nat) (handle cmdlinePtr d : U64) (replies : List Reply)
    (hdesc : ∀ r ∈ replies, r.descSize = d) :
    ExitProtocol fuel ((efiBootKernel fuel handle cmdlinePtr).trace replies) := by
  obtain ⟨s, hreach⟩ := obeys_reaches (efiBootKernel_obeys handle cmdlinePtr) hdesc .start
  exact reaches_protocol hreach

/-- A firmware with one runtime descriptor of 48 bytes, which refuses the first exit. -/
def refusingFirmware : List Reply :=
  let reply (status mapKey : U64) : Reply :=
    { status, buffer := 0x1000, bytes := fun i => if i = 39 then 0x80 else 0, mapSize := 48, mapKey,
      descSize := 48, descVer := 1 }
  [reply efiBufferTooSmall 0, reply efiSuccess 0, reply efiBufferTooSmall 0, reply efiSuccess 0,
    reply efiSuccess 0, reply efiSuccess 7, reply efiInvalidParameter 0, reply efiSuccess 8,
    reply efiSuccess 0, reply efiSuccess 0]

/-- With this firmware the stub makes all its calls and enters the kernel. -/
theorem efiBootKernel_exitProtocol_refused :
    ((efiBootKernel 2 5 6).run refusingFirmware []).2 = some (.entered 6) ∧
      ((efiBootKernel 2 5 6).trace refusingFirmware).length = 10 ∧
      ExitProtocol 2 ((efiBootKernel 2 5 6).trace refusingFirmware) :=
  ⟨by decide +kernel, by decide +kernel,
    efiBootKernel_exitProtocol 2 5 6 48 refusingFirmware (by decide +kernel)⟩

end XosKernel.Efi
