import XosKernel.EfiVirtmap

/-! The protocol of `ExitBootServices` in the calls of `efi_boot_kernel`. The stub goes through phases: boot
services with or without a current memory map, an exit that was refused, a second memory map, an exit that
was accepted, and the end. Every call is a step between phases whatever the firmware replies; the phase
gives what the calls so far look like, and that gives the protocol. -/

namespace XosKernel.Efi

open Calls Run

namespace Call

def isGetMemoryMap : Call → Bool
  | getMemoryMap _ _ => true
  | _ => false

def isExitBootServices : Call → Bool
  | exitBootServices _ _ => true
  | _ => false

def isSetVirtualAddressMap : Call → Bool
  | setVirtualAddressMap _ _ _ _ => true
  | _ => false

/-- All services but `SetVirtualAddressMap`, which is a runtime service. -/
def isBootService (c : Call) : Bool := !c.isSetVirtualAddressMap

end Call

/-! ### The protocol -/

/-- The last call is a `get_memory_map` that succeeded with the reply `m`. -/
def LastMap (m : Reply) (past : List Event) : Prop :=
  ∃ mapSize memoryMap early, past = (.getMemoryMap mapSize memoryMap, m) :: early ∧ m.status = efiSuccess

/-- The last call is an `exit_boot_services` that accepted the key of the memory map `m`. -/
def LastExit (m : Reply) (past : List Event) : Prop :=
  ∃ handle x early, past = (.exitBootServices handle m.mapKey, x) :: early ∧ x.status = efiSuccess ∧
    LastMap m early

/-- A runtime map of `memoryMapSize` bytes is what `efi_get_virtmap` builds from the memory map `m`, in a
block with any content. -/
def BuiltFrom (fuel : Nat) (m : Reply) (memoryMapSize : U64) (virtualMap : Bytes) : Prop :=
  ∀ old, ∃ v, efiGetVirtmap fuel false m.bytes m.mapSize m.descSize old = some v ∧
    memoryMapSize = v.count.signExtend 64 * m.descSize ∧ ∀ i < v.out, virtualMap i = v.runtimeMap i

/-- The protocol, for calls that are listed last first. -/
structure ExitProtocol (fuel : Nat) (calls : List Event) : Prop where
  /-- The call before an exit is a memory map with the key of the exit. -/
  exitKey : ∀ {late early handle mapKey x}, calls = late ++ (.exitBootServices handle mapKey, x) :: early →
    ∃ m, LastMap m early ∧ m.mapKey = mapKey
  /-- The boot services after an exit are at most one memory map and at most one more exit. -/
  afterExit : ∀ {late early handle mapKey x}, calls = late ++ (.exitBootServices handle mapKey, x) :: early →
    (∀ e ∈ late, e.1.isBootService → e.1.isGetMemoryMap ∨ e.1.isExitBootServices) ∧
      late.countP (·.1.isGetMemoryMap) ≤ 1 ∧ late.countP (·.1.isExitBootServices) ≤ 1
  /-- The virtual address map is set at most once. -/
  virtualOnce : calls.countP (·.1.isSetVirtualAddressMap) ≤ 1
  /-- It is set right after an exit was accepted, and built from the memory map of that exit. -/
  virtualMap : ∀ {late early memoryMapSize descSize descVer virtualMap r},
    calls = late ++ (.setVirtualAddressMap memoryMapSize descSize descVer virtualMap, r) :: early →
      ∃ m, LastExit m early ∧ descSize = m.descSize ∧ BuiltFrom fuel m memoryMapSize virtualMap

/-! ### Phases -/

/-- `boot` before the first exit, `refused` after it was refused, `remapped` with the second memory map,
`exited` when an exit was accepted, and `ended` when no call follows. -/
inductive Phase where
  | boot (map : Option Reply)
  | refused
  | remapped (map : Reply)
  | exited (map : Reply)
  | ended

/-- The calls that each phase admits, with the replies that lead to the next phase. -/
inductive Phase.Step (fuel : Nat) : Phase → Event → Phase → Prop
  | other {map : Option Reply} {c : Call} {r : Reply} (hboot : c.isBootService)
      (hexit : c.isExitBootServices = false) : Step fuel (.boot map) (c, r) (.boot none)
  | map {map : Option Reply} {mapSize memoryMap : U64} {m : Reply} (hstatus : m.status = efiSuccess) :
      Step fuel (.boot map) (.getMemoryMap mapSize memoryMap, m) (.boot (some m))
  | refuse {m x : Reply} {handle : U64} (hstatus : x.status ≠ efiSuccess) :
      Step fuel (.boot (some m)) (.exitBootServices handle m.mapKey, x) .refused
  | accept {m x : Reply} {handle : U64} (hstatus : x.status = efiSuccess) :
      Step fuel (.boot (some m)) (.exitBootServices handle m.mapKey, x) (.exited m)
  | remap {mapSize memoryMap : U64} {m : Reply} (hstatus : m.status = efiSuccess) :
      Step fuel .refused (.getMemoryMap mapSize memoryMap, m) (.remapped m)
  | remapFail {mapSize memoryMap : U64} {m : Reply} (hstatus : m.status ≠ efiSuccess) :
      Step fuel .refused (.getMemoryMap mapSize memoryMap, m) .ended
  | refuseAgain {m x : Reply} {handle : U64} (hstatus : x.status ≠ efiSuccess) :
      Step fuel (.remapped m) (.exitBootServices handle m.mapKey, x) .ended
  | acceptAgain {m x : Reply} {handle : U64} (hstatus : x.status = efiSuccess) :
      Step fuel (.remapped m) (.exitBootServices handle m.mapKey, x) (.exited m)
  | setVirtual {m r : Reply} {memoryMapSize : U64} {descVer : U32} {virtualMap : Bytes}
      (hbuilt : BuiltFrom fuel m memoryMapSize virtualMap) :
      Step fuel (.exited m) (.setVirtualAddressMap memoryMapSize m.descSize descVer virtualMap, r) .ended

/-- What the protocol asks of a call by the calls before it. -/
def Lawful (fuel : Nat) (e : Event) (past : List Event) : Prop :=
  match e.1 with
  | .exitBootServices _ mapKey => ∃ m, LastMap m past ∧ m.mapKey = mapKey
  | .setVirtualAddressMap memoryMapSize descSize _ virtualMap =>
      ∃ m, LastExit m past ∧ descSize = m.descSize ∧ BuiltFrom fuel m memoryMapSize virtualMap
  | _ => True

/-- The calls from the first exit on have at most `exits` exits and `maps` memory maps, and no other boot
service. -/
def Since (exits maps : Nat) (calls : List Event) : Prop :=
  ∃ late early, calls = late ++ early ∧ (∀ e ∈ early, e.1.isExitBootServices = false) ∧
    (∀ e ∈ late, e.1.isBootService → e.1.isGetMemoryMap ∨ e.1.isExitBootServices) ∧
    late.countP (·.1.isGetMemoryMap) ≤ maps ∧ late.countP (·.1.isExitBootServices) ≤ exits

/-- What the last calls of a phase are. -/
def Phase.Last : Phase → List Event → Prop
  | boot none, _ => True
  | boot (some m), calls => LastMap m calls
  | refused, _ => True
  | remapped m, calls => LastMap m calls
  | exited m, calls => LastExit m calls
  | ended, _ => True

/-- The exits and the memory maps from the first exit on. -/
def Phase.Past : Phase → List Event → Prop
  | boot _, calls => ∀ e ∈ calls, e.1.isExitBootServices = false
  | refused, calls => Since 1 0 calls
  | remapped _, calls => Since 1 1 calls
  | exited _, calls => Since 2 1 calls
  | ended, calls => Since 2 1 calls

def Phase.virtuals : Phase → Nat
  | ended => 1
  | _ => 0

theorem Phase.virtuals_le (s : Phase) : s.virtuals ≤ 1 := by
  cases s <;> simp [virtuals]

/-- What holds of the calls that lead to a phase. -/
structure PhaseInv (fuel : Nat) (calls : List Event) (s : Phase) : Prop where
  lawful : EachPast (Lawful fuel) calls
  last : s.Last calls
  past : s.Past calls
  virtuals : calls.countP (·.1.isSetVirtualAddressMap) ≤ s.virtuals

/-! ### The phases give the protocol -/

section

variable {fuel exits maps : Nat} {calls : List Event}

theorem since_of_noExit (h : ∀ e ∈ calls, e.1.isExitBootServices = false) : Since 0 0 calls :=
  ⟨[], calls, rfl, h, by simp, le_rfl, le_rfl⟩

theorem Since.mono {exits' maps' : Nat} (h : Since exits maps calls) (hexits : exits ≤ exits')
    (hmaps : maps ≤ maps') : Since exits' maps' calls := by
  obtain ⟨late, early, hsplit, hearly, honly, hm, hx⟩ := h
  exact ⟨late, early, hsplit, hearly, honly, hm.trans hmaps, hx.trans hexits⟩

theorem Since.exit (h : Since exits maps calls) (handle mapKey : U64) (x : Reply) :
    Since (exits + 1) maps ((.exitBootServices handle mapKey, x) :: calls) := by
  obtain ⟨late, early, rfl, hearly, honly, hm, hx⟩ := h
  refine ⟨(.exitBootServices handle mapKey, x) :: late, early, rfl, hearly, ?_, ?_, ?_⟩
  · simpa [Call.isExitBootServices] using honly
  · simpa [Call.isGetMemoryMap] using hm
  · simpa [Call.isExitBootServices] using hx

theorem Since.map (h : Since exits maps calls) (mapSize memoryMap : U64) (m : Reply) :
    Since exits (maps + 1) ((.getMemoryMap mapSize memoryMap, m) :: calls) := by
  obtain ⟨late, early, rfl, hearly, honly, hm, hx⟩ := h
  refine ⟨(.getMemoryMap mapSize memoryMap, m) :: late, early, rfl, hearly, ?_, ?_, ?_⟩
  · simpa [Call.isGetMemoryMap] using honly
  · simpa [Call.isGetMemoryMap] using hm
  · simpa [Call.isExitBootServices] using hx

theorem Since.virtual (h : Since exits maps calls) (memoryMapSize descSize : U64) (descVer : U32)
    (virtualMap : Bytes) (r : Reply) :
    Since exits maps ((.setVirtualAddressMap memoryMapSize descSize descVer virtualMap, r) :: calls) := by
  obtain ⟨late, early, rfl, hearly, honly, hm, hx⟩ := h
  refine ⟨(.setVirtualAddressMap memoryMapSize descSize descVer virtualMap, r) :: late, early, rfl, hearly,
    ?_, ?_, ?_⟩
  · simpa [Call.isBootService, Call.isSetVirtualAddressMap] using honly
  · simpa [Call.isGetMemoryMap] using hm
  · simpa [Call.isExitBootServices] using hx

/-- The calls after an exit are among those from the first exit on. -/
theorem Since.after (h : Since (exits + 1) maps calls) {late early : List Event} {handle mapKey : U64} {x : Reply}
    (hcalls : calls = late ++ (.exitBootServices handle mapKey, x) :: early) :
    (∀ e ∈ late, e.1.isBootService → e.1.isGetMemoryMap ∨ e.1.isExitBootServices) ∧
      late.countP (·.1.isGetMemoryMap) ≤ maps ∧ late.countP (·.1.isExitBootServices) ≤ exits := by
  obtain ⟨since, before, hsplit, hbefore, honly, hm, hx⟩ := h
  -- the exit is not among the calls before the first exit, so `late` is a part of `since`
  obtain ⟨rest, rfl⟩ : ∃ rest, since = late ++ (.exitBootServices handle mapKey, x) :: rest := by
    rw [hcalls, List.append_eq_append_iff] at hsplit
    rcases hsplit with ⟨mid, hsince, hmid⟩ | ⟨mid, -, hmid⟩
    · cases mid with
      | nil =>
          have hmem : (Call.exitBootServices handle mapKey, x) ∈ before := by
            rw [← List.nil_append before, ← hmid]
            exact List.mem_cons_self
          exact absurd (hbefore _ hmem) (by simp [Call.isExitBootServices])
      | cons e rest =>
          rw [List.cons_append, List.cons.injEq] at hmid
          exact ⟨rest, by rw [hsince, hmid.1]⟩
    · have hmem : (Call.exitBootServices handle mapKey, x) ∈ before := by
        rw [hmid]
        exact List.mem_append_right _ List.mem_cons_self
      exact absurd (hbefore _ hmem) (by simp [Call.isExitBootServices])
  rw [List.countP_append, List.countP_cons] at hm hx
  refine ⟨fun e he => honly e (List.mem_append_left _ he), ?_, ?_⟩
  · exact (Nat.le_add_right _ _).trans hm
  · have hone : (Call.exitBootServices handle mapKey).isExitBootServices = true := rfl
    rw [if_pos hone] at hx
    omega

theorem Phase.Past.after {s : Phase} (h : s.Past calls) {late early : List Event} {handle mapKey : U64} {x : Reply}
    (hcalls : calls = late ++ (.exitBootServices handle mapKey, x) :: early) :
    (∀ e ∈ late, e.1.isBootService → e.1.isGetMemoryMap ∨ e.1.isExitBootServices) ∧
      late.countP (·.1.isGetMemoryMap) ≤ 1 ∧ late.countP (·.1.isExitBootServices) ≤ 1 := by
  have hsince : Since 2 1 calls := by
    cases s with
    | boot map => exact (since_of_noExit h).mono (by decide) (by decide)
    | refused => exact Since.mono h (by decide) (by decide)
    | remapped m => exact Since.mono h (by decide) le_rfl
    | exited m => exact h
    | ended => exact h
  exact hsince.after hcalls

theorem PhaseInv.protocol {s : Phase} (h : PhaseInv fuel calls s) :
    ExitProtocol fuel calls where
  exitKey hcalls := (hcalls ▸ h.lawful).of_append
  afterExit hcalls := h.past.after hcalls
  virtualOnce := h.virtuals.trans s.virtuals_le
  virtualMap hcalls := (hcalls ▸ h.lawful).of_append

theorem phaseInv_start : PhaseInv fuel [] (.boot none) where
  lawful := trivial
  last := trivial
  past := by simp [Phase.Past]
  virtuals := le_rfl

theorem lawful_of_other {c : Call} {r : Reply} (hexit : c.isExitBootServices = false)
    (hvirtual : c.isSetVirtualAddressMap = false) : Lawful fuel (c, r) calls := by
  cases c with
  | exitBootServices handle mapKey => cases hexit
  | setVirtualAddressMap size descSize descVer virtualMap => cases hvirtual
  | _ => trivial

/-- What one call keeps. -/
theorem PhaseInv.step {s t : Phase} {e : Event} (h : PhaseInv fuel calls s)
    (hstep : s.Step fuel e t) : PhaseInv fuel (e :: calls) t := by
  obtain ⟨hlawful, hlast, hpast, hvirtuals⟩ := h
  cases hstep with
  | @other map c r hboot hexit =>
      have hno : c.isSetVirtualAddressMap = false := by simpa [Call.isBootService] using hboot
      refine ⟨⟨lawful_of_other hexit hno, hlawful⟩, trivial, ?_, ?_⟩
      · exact List.forall_mem_cons.mpr ⟨hexit, hpast⟩
      · rw [List.countP_cons, if_neg (by simp [hno])]
        exact hvirtuals
  | map hstatus =>
      refine ⟨⟨trivial, hlawful⟩, ⟨_, _, _, rfl, hstatus⟩, ?_, hvirtuals⟩
      exact List.forall_mem_cons.mpr ⟨rfl, hpast⟩
  | @refuse m x handle hstatus =>
      exact ⟨⟨⟨m, hlast, rfl⟩, hlawful⟩, trivial, (since_of_noExit hpast).exit _ _ _, hvirtuals⟩
  | @accept m x handle hstatus =>
      refine ⟨⟨⟨m, hlast, rfl⟩, hlawful⟩, ⟨_, _, _, rfl, hstatus, hlast⟩, ?_, hvirtuals⟩
      exact ((since_of_noExit hpast).exit _ _ _).mono (by decide) (by decide)
  | remap hstatus =>
      exact ⟨⟨trivial, hlawful⟩, ⟨_, _, _, rfl, hstatus⟩, Since.map hpast _ _ _, hvirtuals⟩
  | remapFail hstatus =>
      refine ⟨⟨trivial, hlawful⟩, trivial, ?_, hvirtuals.trans (Nat.zero_le 1)⟩
      exact (Since.map hpast _ _ _).mono (by decide) le_rfl
  | @refuseAgain m x handle hstatus =>
      refine ⟨⟨⟨m, hlast, rfl⟩, hlawful⟩, trivial, Since.exit hpast _ _ _, ?_⟩
      exact hvirtuals.trans (Nat.zero_le 1)
  | @acceptAgain m x handle hstatus =>
      exact ⟨⟨⟨m, hlast, rfl⟩, hlawful⟩, ⟨_, _, _, rfl, hstatus, hlast⟩, Since.exit hpast _ _ _, hvirtuals⟩
  | @setVirtual m r memoryMapSize descVer virtualMap hbuilt =>
      refine ⟨⟨⟨m, hlast, rfl, hbuilt⟩, hlawful⟩, trivial, Since.virtual hpast _ _ _ _ _, ?_⟩
      rw [List.countP_cons]
      exact Nat.add_le_add_right hvirtuals 1

/-- A run of phases obeys the protocol. -/
theorem reaches_protocol {s : Phase} (h : Reaches (Phase.Step fuel) (.boot none) calls s) : ExitProtocol fuel calls :=
  (h.invariant (fun calls s => PhaseInv fuel calls s) phaseInv_start
    fun _ _ _ _ hinv hstep => hinv.step hstep).protocol

end

end XosKernel.Efi
