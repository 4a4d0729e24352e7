import XosKernel.EfiStub

/-! Does the stub respect a firmware without `SetVirtualAddressMap`? `efi_stub_common` notes in `efi_novamap` that
the service is missing, and `efi_boot_kernel` forgets it: the service is called on exactly the runs on which the
firmware accepts an exit. -/

namespace XosKernel.Efi

open Memory Calls Prog

/-- The first table of runtime properties says that there is no `SetVirtualAddressMap`. -/
def LacksVirtualAddressMap (mem : Bytes) (tables : List EfiConfigTable) : Prop :=
  ∃ t, tables.find? (fun t => t.guid = efiRtPropertiesTableGuid) = some t ∧ t.table ≠ 0 ∧
    runtimeServicesSupported mem t.table &&& efiRtSupportedSetVirtualAddressMap = 0

/-- The call was made: it was answered, or it is the one that waits for an answer. -/
def Made {α : Type} (past : List Event) (st : Stage Call α) (c : Call) : Prop := (∃ r, (c, r) ∈ past) ∨ st = .waiting c

/-- A firmware without the service is never asked for it, and no runtime map is handed on to it. -/
def RespectsMask (mem : Bytes) (tables : List EfiConfigTable) (past : List Event) (st : Stage Call BootEnd) : Prop :=
  LacksVirtualAddressMap mem tables → (∀ c, Made past st c → c.isSetVirtualAddressMap = false) ∧
    ∀ memoryMapSize descSize descVer virtualMap,
      Made past st (.setVirtualAddressMap memoryMapSize descSize descVer virtualMap) → memoryMapSize = 0

/-- The firmware accepts no exit. -/
def NoExitAccepted (past : List Event) : Prop := ∀ e ∈ past, e.1.isExitBootServices → e.2.status ≠ efiSuccess

/-! ### The run -/

/-- No exit was accepted and `SetVirtualAddressMap` was not called. -/
def QuietPast (past : List Event) : Prop :=
  ∀ e ∈ past, e.1.isSetVirtualAddressMap = false ∧ (e.1.isExitBootServices → e.2.status ≠ efiSuccess)

/-- Nor is it the call that waits. -/
def QuietAt {α : Type} (past : List Event) (st : Stage Call α) : Prop :=
  QuietPast past ∧ ∀ c, st = .waiting c → c.isSetVirtualAddressMap = false

/-- The last call is an exit that was accepted. -/
def JustExited (past : List Event) : Prop :=
  ∃ e early, past = e :: early ∧ e.1.isExitBootServices ∧ e.2.status = efiSuccess ∧ QuietPast early

section

variable {α : Type} {past : List Event}

theorem quietAt_returned (h : QuietPast past) (a : α) : QuietAt past (.returned a : Stage Call α) :=
  ⟨h, fun _ hwait => by cases hwait⟩

theorem quietAt_waiting (h : QuietPast past) {c : Call} (hc : c.isSetVirtualAddressMap = false) :
    QuietAt past (.waiting c : Stage Call α) :=
  ⟨h, fun _ hwait => by cases hwait; exact hc⟩

theorem quietAt_hung (h : QuietPast past) : QuietAt past (.hung : Stage Call α) := ⟨h, fun _ hwait => by cases hwait⟩

/-- A call of another boot service leaves the run quiet. -/
theorem QuietPast.call (h : QuietPast past) {c : Call} (hvirtual : c.isSetVirtualAddressMap = false)
    (hexit : c.isExitBootServices = false) (r : Reply) : QuietPast ((c, r) :: past) :=
  List.forall_mem_cons.mpr ⟨⟨hvirtual, fun hex => by simp [hexit] at hex⟩, h⟩

/-- So does an exit that is refused. -/
theorem QuietPast.refused (h : QuietPast past) {handle mapKey : U64} {r : Reply} (hr : r.status ≠ efiSuccess) :
    QuietPast ((.exitBootServices handle mapKey, r) :: past) :=
  List.forall_mem_cons.mpr ⟨⟨rfl, fun _ => hr⟩, h⟩

/-- The rule of a call of another boot service. -/
theorem ensures_quiet_ask {Q : List Event → Stage Call α → Prop} {c : Call} {f : Reply → Firmware α}
    (h : QuietPast past) (hvirtual : c.isSetVirtualAddressMap = false) (hexit : c.isExitBootServices = false)
    (hwait : Q past (.waiting c)) (hf : ∀ r, QuietPast ((c, r) :: past) → (f r).Ensures Q ((c, r) :: past)) :
    (ask c >>= f).Ensures Q past :=
  ensures_ask.mpr ⟨hwait, fun r => hf r (h.call hvirtual hexit r)⟩

theorem efiAllocVirtmap_quiet (h : QuietPast past) : efiAllocVirtmap.Ensures QuietAt past := by
  refine ensures_quiet_ask h rfl rfl (quietAt_waiting h rfl) fun m hm => ensures_ite (fun _ => ?_) fun _ => ?_
  · exact quietAt_returned hm _
  · exact ensures_quiet_ask hm rfl rfl (quietAt_waiting hm rfl) fun p hp => quietAt_returned hp _

theorem installMemreserveTable_quiet (h : QuietPast past) : installMemreserveTable.Ensures QuietAt past := by
  refine ensures_quiet_ask h rfl rfl (quietAt_waiting h rfl) fun rsv hrsv => ensures_ite (fun _ => ?_) fun _ => ?_
  · exact quietAt_returned hrsv _
  · exact ensures_quiet_ask hrsv rfl rfl (quietAt_waiting hrsv rfl) fun t ht => quietAt_returned ht _

/-- A quiet run that has not returned successfully. -/
def FailsQuietly (past : List Event) (st : Stage Call (Except EfiStatus EfiBootMemmap)) : Prop :=
  QuietAt past st ∧ ∀ status, st = .returned (.error status) → status ≠ efiSuccess

theorem failsQuietly_waiting (h : QuietPast past) {c : Call} (hc : c.isSetVirtualAddressMap = false) :
    FailsQuietly past (.waiting c) := ⟨quietAt_waiting h hc, fun _ hret => by cases hret⟩

theorem failsQuietly_error (h : QuietPast past) {status : EfiStatus} (hstatus : status ≠ efiSuccess) :
    FailsQuietly past (.returned (.error status)) :=
  ⟨quietAt_returned h _, fun _ hret => by cases hret; exact hstatus⟩

theorem freeMap_quiet (h : QuietPast past) (m : U64) {status : EfiStatus} (hstatus : status ≠ efiSuccess) :
    (freeMap m status).Ensures FailsQuietly past :=
  ensures_quiet_ask h rfl rfl (failsQuietly_waiting h rfl) fun _ hr => failsQuietly_error hr hstatus

theorem fillMap_quiet (h : QuietPast past) (installCfgTbl : Bool) (m size : U64) :
    (fillMap installCfgTbl m size).Ensures FailsQuietly past := by
  refine ensures_quiet_ask h rfl rfl (failsQuietly_waiting h rfl) fun r hr => ensures_ite (fun hfail => ?_) fun _ => ?_
  · refine ensures_ite (fun _ => ?_) fun _ => freeMap_quiet hr m hfail
    exact ensures_quiet_ask hr rfl rfl (failsQuietly_waiting hr rfl) fun _ ht => freeMap_quiet ht m hfail
  · exact ⟨quietAt_returned hr _, fun _ hret => by cases hret⟩

theorem efiGetMemoryMap_quiet (h : QuietPast past) (installCfgTbl : Bool) :
    (efiGetMemoryMap installCfgTbl).Ensures FailsQuietly past := by
  refine ensures_quiet_ask h rfl rfl (failsQuietly_waiting h rfl) fun tmp htmp =>
    ensures_ite (fun _ => failsQuietly_error htmp (by decide)) fun _ => ?_
  refine ensures_quiet_ask htmp rfl rfl (failsQuietly_waiting htmp rfl) fun p hp =>
    ensures_ite (fun hfail => failsQuietly_error hp hfail) fun _ => ?_
  refine ensures_ite (fun _ => ?_) fun _ => fillMap_quiet hp installCfgTbl _ _
  refine ensures_quiet_ask hp rfl rfl (failsQuietly_waiting hp rfl) fun t ht => ensures_ite (fun hfail => ?_) fun _ => ?_
  · exact freeMap_quiet ht _ hfail
  · exact fillMap_quiet ht installCfgTbl _ _

/-- How `efi_exit_boot_services` stands: the run is quiet and the status of a return an error, or it returned right after
the exit was accepted. -/
def ExitAt (past : List Event) (st : Stage Call (EfiStatus × ExitBootStruct)) : Prop :=
  (QuietAt past st ∧ ∀ a, st = .returned a → a.1 ≠ efiSuccess) ∨
    ∃ a, st = .returned a ∧ a.1 = efiSuccess ∧ JustExited past

theorem exitAt_waiting (h : QuietPast past) {c : Call} (hc : c.isSetVirtualAddressMap = false) :
    ExitAt past (.waiting c) := .inl ⟨quietAt_waiting h hc, fun _ hret => by cases hret⟩

theorem exitAt_error (h : QuietPast past) {a : EfiStatus × ExitBootStruct} (ha : a.1 ≠ efiSuccess) :
    ExitAt past (.returned a) := .inl ⟨quietAt_returned h a, fun _ hret => by cases hret; exact ha⟩

/-- `exit_boot_func` calls no service and returns `EFI_SUCCESS`. -/
theorem exitBootFuncWith_bind {β : Type} {Q : List Event → Stage Call β → Prop} {fuel : Nat} {efiNovamap : Bool}
    {map : EfiBootMemmap} {p : ExitBootStruct} {f : EfiStatus × EfiBootMemmap × ExitBootStruct → Firmware β}
    (hhung : Q past .hung) (hf : ∀ a, a.1 = efiSuccess → (f a).Ensures Q past) :
    (exitBootFuncWith fuel efiNovamap map p >>= f).Ensures Q past := by
  unfold exitBootFuncWith
  cases efiGetVirtmap fuel efiNovamap map.map map.mapSize map.descSize p.runtimeMap with
  | none => exact hhung
  | some v => exact hf _ rfl

theorem efiExitBootServices_exitAt (h : QuietPast past) (fuel : Nat) (efiNovamap : Bool) (handle : U64)
    (p : ExitBootStruct) :
    (efiExitBootServices handle p (exitBootFuncWith fuel efiNovamap)).Ensures ExitAt past := by
  refine (efiGetMemoryMap_quiet h true).bind (fun past got hgot => ?_) (fun past c hc => ?_) fun past hhung => ?_
  · obtain ⟨⟨hpast, -⟩, herror⟩ := hgot
    cases got with
    | error status => exact exitAt_error hpast (herror status rfl)
    | ok map =>
        refine exitBootFuncWith_bind (.inl ⟨quietAt_hung hpast, fun _ hret => by cases hret⟩) fun a ha => ?_
        obtain ⟨status, map₁, p₁⟩ := a
        refine ensures_ite (fun hfail => absurd ha hfail) fun _ => ?_
        refine ensures_ask.mpr ⟨exitAt_waiting hpast rfl, fun x => ensures_ite (fun hx => ?_) fun _ => ?_⟩
        · have hrefused : x.status ≠ efiSuccess := by
            rw [hx]
            decide
          have hpast₁ : QuietPast ((.exitBootServices handle map₁.mapKey, x) :: past) := hpast.refused hrefused
          refine ensures_quiet_ask hpast₁ rfl rfl (exitAt_waiting hpast₁ rfl) fun m hpast₂ =>
            ensures_ite (fun hfail => exitAt_error hpast₂ hfail) fun _ => ?_
          refine exitBootFuncWith_bind (.inl ⟨quietAt_hung hpast₂, fun _ hret => by cases hret⟩) fun b hb => ?_
          obtain ⟨status₂, map₂, p₂⟩ := b
          refine ensures_ite (fun hfail => absurd hb hfail) fun _ => ?_
          refine ensures_ask.mpr ⟨exitAt_waiting hpast₂ rfl, fun y => ?_⟩
          by_cases hy : y.status = efiSuccess
          · exact .inr ⟨_, rfl, hy, _, _, rfl, rfl, hy, hpast₂⟩
          · exact exitAt_error (hpast₂.refused hy) hy
        · by_cases hx : x.status = efiSuccess
          · exact .inr ⟨_, rfl, hx, _, _, rfl, rfl, hx, hpast⟩
          · exact exitAt_error (hpast.refused hx) hx
  · exact exitAt_waiting hc.1.1 (hc.1.2 c rfl)
  · exact .inl ⟨quietAt_hung hhung.1.1, fun _ hret => by cases hret⟩

/-- `SetVirtualAddressMap` was called exactly if an exit was accepted. -/
def VirtualAfterExit (past : List Event) (st : Stage Call BootEnd) : Prop :=
  (∃ c, Made past st c ∧ c.isSetVirtualAddressMap) ↔ ¬ NoExitAccepted past

theorem virtualAfterExit_of_quiet {st : Stage Call BootEnd} (h : QuietAt past st) : VirtualAfterExit past st := by
  refine iff_of_false ?_ (not_not.mpr fun e he => (h.1 e he).2)
  rintro ⟨c, ⟨r, hmem⟩ | hwait, hc⟩
  · rw [(h.1 _ hmem).1] at hc
    cases hc
  · rw [h.2 c hwait] at hc
    cases hc

theorem not_noExitAccepted {e : Event} (hmem : e ∈ past) (hexit : e.1.isExitBootServices)
    (he : e.2.status = efiSuccess) : ¬ NoExitAccepted past := fun hno => hno e hmem hexit he

theorem efiBootKernelWith_virtual (h : QuietPast past) (fuel : Nat) (efiNovamap : Bool) (handle cmdlinePtr : U64) :
    (efiBootKernelWith fuel efiNovamap handle cmdlinePtr).Ensures VirtualAfterExit past := by
  refine (efiAllocVirtmap_quiet h).bind (fun past a ha => ?_) (fun _ c hc => virtualAfterExit_of_quiet ⟨hc.1, ?_⟩)
    fun _ hhung => virtualAfterExit_of_quiet (quietAt_hung hhung.1)
  · obtain ⟨status, a⟩ := a
    refine ensures_ite (fun _ => virtualAfterExit_of_quiet (quietAt_returned ha.1 _)) fun _ => ?_
    refine (efiExitBootServices_exitAt ha.1 fuel false handle _).bind (fun past b hb => ?_) (fun past c hc => ?_)
      fun past hhung => ?_
    · obtain ⟨status', priv⟩ := b
      rcases hb with ⟨hquiet, herror⟩ | ⟨b, hret, hstatus, e, early, rfl, hexit, he, hearly⟩
      · refine ensures_ite (fun _ => virtualAfterExit_of_quiet (quietAt_returned hquiet.1 _)) fun hsuccess => ?_
        exact absurd (herror _ rfl) hsuccess
      · cases hret
        refine ensures_ite (fun hfail => absurd hstatus hfail) fun _ => ?_
        refine ensures_ask.mpr ⟨iff_of_true ⟨_, .inr rfl, rfl⟩ ?_, fun r =>
          iff_of_true ⟨_, .inl ⟨r, List.mem_cons_self⟩, rfl⟩ ?_⟩
        · exact not_noExitAccepted List.mem_cons_self hexit he
        · exact not_noExitAccepted (List.mem_cons_of_mem _ List.mem_cons_self) hexit he
    · rcases hc with ⟨hquiet, -⟩ | ⟨b, hret, -⟩
      · exact virtualAfterExit_of_quiet ⟨hquiet.1, fun c' hc' => by cases hc'; exact hquiet.2 c rfl⟩
      · cases hret
    · rcases hhung with ⟨hquiet, -⟩ | ⟨b, hret, -⟩
      · exact virtualAfterExit_of_quiet (quietAt_hung hquiet.1)
      · cases hret
  · rintro c' hc'
    cases hc'
    exact hc.2 c rfl

theorem efiStubCommon_virtual (fuel : Nat) (mem : Bytes) (sys : EfiSystemTable) (efiNovamap : Bool)
    (handle cmdlinePtr : U64) :
    (efiStubCommon fuel mem sys efiNovamap handle cmdlinePtr).Ensures VirtualAfterExit [] := by
  have hempty : QuietPast [] := by simp [QuietPast]
  simp only [efiStubCommon, checkPlatformFeatures, ne_eq, not_true_eq_false, if_false]
  refine (installMemreserveTable_quiet hempty).bind (fun past _ h => ?_) (fun past c hc => ?_) fun past hhung => ?_
  · exact efiBootKernelWith_virtual h.1 fuel _ handle cmdlinePtr
  · exact virtualAfterExit_of_quiet ⟨hc.1, fun c' hc' => by cases hc'; exact hc.2 c rfl⟩
  · exact virtualAfterExit_of_quiet (quietAt_hung hhung.1)

end

/-- **The missing service**: on every run, for every list of configuration tables, the stub respects the mask of the
firmware exactly when the firmware accepts no exit. -/
theorem efiStubCommon_respectsMask_iff (fuel : Nat) (mem : Bytes) (sys : EfiSystemTable) (efiNovamap : Bool)
    (handle cmdlinePtr : U64) (replies : List Reply) :
    RespectsMask mem sys.tables ((efiStubCommon fuel mem sys efiNovamap handle cmdlinePtr).trace replies)
        ((efiStubCommon fuel mem sys efiNovamap handle cmdlinePtr).stage replies) ↔
      (LacksVirtualAddressMap mem sys.tables →
        NoExitAccepted ((efiStubCommon fuel mem sys efiNovamap handle cmdlinePtr).trace replies)) := by
  have hrun := (efiStubCommon_virtual fuel mem sys efiNovamap handle cmdlinePtr).run replies
  refine imp_congr_right fun _ => ⟨fun h => ?_, fun hno => ?_⟩
  · by_contra hexit
    obtain ⟨c, hmade, hc⟩ := hrun.mpr hexit
    rw [h.1 c hmade] at hc
    cases hc
  · have hnone : ∀ c, Made _ _ c → c.isSetVirtualAddressMap = false := fun c hmade => by
      by_contra hc
      exact hrun.mp ⟨c, hmade, by simpa using hc⟩ hno
    refine ⟨hnone, fun memoryMapSize descSize descVer virtualMap hmade => ?_⟩
    cases hnone _ hmade

/-- One table, whose mask is zero in a memory of zeros. -/
def maskedSystemTable : EfiSystemTable :=
  { signature := efiSystemTableSignature, tables := [{ guid := efiRtPropertiesTableGuid, table := 0x2000 }] }

/-- A firmware with one runtime descriptor of 48 bytes, which accepts the first exit. -/
def acceptingFirmware : List Reply :=
  let reply (status mapKey : U64) : Reply :=
    { status, buffer := 0x1000, bytes := fun i => if i = 39 then 0x80 else 0, mapSize := 48, mapKey,
      descSize := 48, descVer := 1 }
  [reply efiSuccess 0, reply efiSuccess 0, reply efiBufferTooSmall 0, reply efiSuccess 0, reply efiBufferTooSmall 0,
    reply efiSuccess 0, reply efiSuccess 0, reply efiSuccess 7, reply efiSuccess 0, reply efiSuccess 0]

/-- The firmware has no `SetVirtualAddressMap` and is asked for it. -/
theorem efiStubCommon_ignores_mask : LacksVirtualAddressMap (fun _ => 0) maskedSystemTable.tables ∧
    ¬ RespectsMask (fun _ => 0) maskedSystemTable.tables
      ((efiStubCommon 2 (fun _ => 0) maskedSystemTable false 5 6).trace acceptingFirmware)
      ((efiStubCommon 2 (fun _ => 0) maskedSystemTable false 5 6).stage acceptingFirmware) := by
  have hlacks : LacksVirtualAddressMap (fun _ => 0) maskedSystemTable.tables :=
    ⟨{ guid := efiRtPropertiesTableGuid, table := 0x2000 }, rfl, by decide, by decide⟩
  refine ⟨hlacks, fun hrespects => ?_⟩
  have hcalled : ((efiStubCommon 2 (fun _ => 0) maskedSystemTable false 5 6).trace acceptingFirmware).any
      (·.1.isSetVirtualAddressMap) = true := by decide +kernel
  obtain ⟨e, hmem, he⟩ := List.any_eq_true.mp hcalled
  rw [(hrespects hlacks).1 e.1 (.inl ⟨e.2, hmem⟩)] at he
  cases he

end XosKernel.Efi
