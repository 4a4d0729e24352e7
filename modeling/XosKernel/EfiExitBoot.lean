import XosKernel.EfiMemoryMap
import XosKernel.EfiProtocol

/-! What `efi_exit_boot_services` leaves behind when it returns and the boot services are still there. The failures of
`efi_get_memory_map` undo what was done. When the callback fails, the block of the memory map is freed and the
configuration table that points at it stays installed. -/

namespace XosKernel.Efi

open Memory Calls Prog

variable {P : Type}

/-- The block of the memory map, which the second call allocated. The calls are in the order in which they were made. -/
def mapBlock : List Event → Option U64
  | _ :: (.allocatePool _ _, p) :: _ => if p.status = efiSuccess then some p.buffer else none
  | _ => none

/-- The firmware is as before the calls: the block was freed once, and no table points at it. -/
def Restored (calls : List Event) : Prop :=
  ∀ buffer ∈ mapBlock calls.reverse,
    calls.countP (·.1.frees buffer) = 1 ∧ tableOf linuxEfiBootMemmapGuid calls ≠ some buffer

def NoExitCalled (calls : List Event) : Prop := ∀ e ∈ calls, e.1.isExitBootServices = false

/-- A run that returns before the first call of `exit_boot_services` leaves nothing behind. -/
def CleanReturn {α : Type} (run : List Event × Option α) : Prop := run.2.isSome → NoExitCalled run.1 → Restored run.1

/-- The callback gets a pointer to the map, which is the pointer of its caller afterwards. -/
def KeepsAddr (privFunc : MapProcessing P) : Prop :=
  ∀ map priv replies, ∀ a ∈ ((privFunc map priv).run replies []).2, a.2.1.addr = map.addr

/-- The size of the map that `efi_get_memory_map` asks for after the reply to its first call. -/
def askedSize (tmp : Reply) : U64 := tmp.mapSize + tmp.descSize * efiMmapNrSlackSlots

/-- The map that the callback gets. -/
def handedMap (tmp p r : Reply) : EfiBootMemmap where
  addr := p.buffer
  mapSize := r.mapSize
  descSize := r.descSize
  descVer := r.descVer
  mapKey := r.mapKey
  buffSize := askedSize tmp
  map := r.bytes

/-- The calls of `efi_get_memory_map`, the last one first. -/
def mapCalls (tmp p t r : Reply) : List Event :=
  [(.getMemoryMap (askedSize tmp) (p.buffer + sizeofEfiBootMemmap), r),
    (.installConfigurationTable linuxEfiBootMemmapGuid p.buffer, t),
    (.allocatePool efiAcpiReclaimMemory (sizeofEfiBootMemmap + askedSize tmp), p), (.getMemoryMap 0 0, tmp)]

/-- The callback refuses the map, and has not itself taken the table back and left the block alone. -/
structure CallbackLeaves (privFunc : MapProcessing P) (priv : P) (tmp p t r : Reply) (rest : List Reply) : Prop where
  refused : ∃ a, ((privFunc (handedMap tmp p r) priv).run rest []).2 = some a ∧ a.1 ≠ efiSuccess
  answered : (privFunc (handedMap tmp p r) priv).left rest ≠ []
  noExit : NoExitCalled ((privFunc (handedMap tmp p r) priv).run rest []).1
  leaves : ((privFunc (handedMap tmp p r) priv).run rest []).1.countP (·.1.frees p.buffer) ≠ 0 ∨
    tableOf linuxEfiBootMemmapGuid (((privFunc (handedMap tmp p r) priv).run rest []).1 ++ mapCalls tmp p t r) =
      some p.buffer

/-- The firmware does not take the table back when the last memory map has failed. -/
def RemovalRefused (p : Reply) (rest : List Reply) : Prop :=
  p.buffer ≠ 0 ∧ ∃ u f later, rest = u :: f :: later ∧ u.status ≠ efiSuccess

/-- The replies on which the table stays installed. -/
def LeavesTable (privFunc : MapProcessing P) (priv : P) : List Reply → Prop
  | tmp :: p :: t :: r :: rest =>
      tmp.status = efiBufferTooSmall ∧ p.status = efiSuccess ∧ t.status = efiSuccess ∧
        ((r.status = efiSuccess ∧ CallbackLeaves privFunc priv tmp p t r rest) ∨
          (r.status ≠ efiSuccess ∧ RemovalRefused p rest))
  | _ => False

section

variable {handle : U64} {priv : P} {privFunc : MapProcessing P} {tmp p t r : Reply} {rest replies : List Reply}

theorem cleanReturn_none {α : Type} {run : List Event × Option α} (h : run.2 = none) : CleanReturn run :=
  fun hsome => by simp [h] at hsome

theorem restored_none {calls : List Event} (h : mapBlock calls.reverse = none) : Restored calls :=
  fun buffer hbuffer => by simp [h] at hbuffer

/-- A failure of `efi_get_memory_map`. -/
theorem efiExitBootServices_error {status : EfiStatus} {calls : List Event}
    (h : (efiGetMemoryMap true).run replies [] = (calls, some (.error status))) :
    (efiExitBootServices handle priv privFunc).run replies [] = (calls, some (status, priv)) := by
  rw [efiExitBootServices, run_bind_some (congrArg Prod.snd h), h]
  exact run_pure _ _

theorem efiExitBootServices_none (h : ((efiGetMemoryMap true).run replies []).2 = none) :
    CleanReturn ((efiExitBootServices handle priv privFunc).run replies []) := by
  rw [efiExitBootServices, run_bind_none h]
  exact cleanReturn_none rfl

/-- A failure before a block was allocated. -/
theorem cleanReturn_query (h : tmp.status ≠ efiBufferTooSmall) :
    CleanReturn ((efiExitBootServices handle priv privFunc).run (tmp :: rest) []) := by
  have hrun : (efiGetMemoryMap true).run (tmp :: rest) [] =
      ([(.getMemoryMap 0 0, tmp)], some (.error efiLoadError)) := by
    simp [efiGetMemoryMap, h]
  rw [efiExitBootServices_error hrun]
  exact fun _ _ => restored_none rfl

theorem cleanReturn_allocate (htmp : tmp.status = efiBufferTooSmall) (h : p.status ≠ efiSuccess) :
    CleanReturn ((efiExitBootServices handle priv privFunc).run (tmp :: p :: rest) []) := by
  have hrun : (efiGetMemoryMap true).run (tmp :: p :: rest) [] =
      ([(.allocatePool efiAcpiReclaimMemory (sizeofEfiBootMemmap + askedSize tmp), p), (.getMemoryMap 0 0, tmp)],
        some (.error p.status)) := by
    simp [efiGetMemoryMap, htmp, h, askedSize]
  rw [efiExitBootServices_error hrun]
  exact fun _ _ => restored_none (by simp [mapBlock, h])

/-- A failure to install the table: the label `free_map`. -/
theorem cleanReturn_install (htmp : tmp.status = efiBufferTooSmall) (hp : p.status = efiSuccess)
    (h : t.status ≠ efiSuccess) :
    CleanReturn ((efiExitBootServices handle priv privFunc).run (tmp :: p :: t :: rest) []) := by
  cases rest with
  | nil => exact efiExitBootServices_none (by simp [efiGetMemoryMap, htmp, hp, h, freeMap])
  | cons f rest =>
      have hrun : (efiGetMemoryMap true).run (tmp :: p :: t :: f :: rest) [] = ([(.freePool p.buffer, f),
          (.installConfigurationTable linuxEfiBootMemmapGuid p.buffer, t),
          (.allocatePool efiAcpiReclaimMemory (sizeofEfiBootMemmap + askedSize tmp), p), (.getMemoryMap 0 0, tmp)],
          some (.error t.status)) := by
        simp [efiGetMemoryMap, htmp, hp, h, freeMap, askedSize]
      rw [efiExitBootServices_error hrun]
      intro _ _ buffer hbuffer
      obtain rfl : p.buffer = buffer := by simpa [mapBlock, hp] using hbuffer
      simp [Call.frees, tableOf, h]

/-- A failure of the last memory map: the label `uninstall_table`. -/
theorem cleanReturn_fill_iff (htmp : tmp.status = efiBufferTooSmall) (hp : p.status = efiSuccess)
    (ht : t.status = efiSuccess) (h : r.status ≠ efiSuccess) :
    CleanReturn ((efiExitBootServices handle priv privFunc).run (tmp :: p :: t :: r :: rest) []) ↔
      ¬ RemovalRefused p rest := by
  obtain _ | ⟨u, _ | ⟨f, later⟩⟩ := rest
  · exact iff_of_true (efiExitBootServices_none (by simp [efiGetMemoryMap, htmp, hp, ht, h, fillMap, uninstallTable]))
      (by simp [RemovalRefused])
  · exact iff_of_true
      (efiExitBootServices_none (by simp [efiGetMemoryMap, htmp, hp, ht, h, fillMap, uninstallTable, freeMap]))
      (by simp [RemovalRefused])
  · have hrun : (efiGetMemoryMap true).run (tmp :: p :: t :: r :: u :: f :: later) [] =
        ((.freePool p.buffer, f) :: (.installConfigurationTable linuxEfiBootMemmapGuid 0, u) :: mapCalls tmp p t r,
          some (.error r.status)) := by
      simp [efiGetMemoryMap, htmp, hp, ht, h, fillMap, uninstallTable, freeMap, mapCalls, askedSize]
    have hblock : mapBlock ((.freePool p.buffer, f) ::
        (.installConfigurationTable linuxEfiBootMemmapGuid 0, u) :: mapCalls tmp p t r).reverse = some p.buffer := by
      simp [mapBlock, mapCalls, hp]
    have hnoExit : NoExitCalled ((.freePool p.buffer, f) ::
        (.installConfigurationTable linuxEfiBootMemmapGuid 0, u) :: mapCalls tmp p t r) := by
      simp [NoExitCalled, mapCalls, Call.isExitBootServices]
    rw [efiExitBootServices_error hrun]
    simp only [CleanReturn, Option.isSome_some, hnoExit, forall_const, Restored, hblock, Option.mem_def,
      Option.some.injEq, forall_eq', RemovalRefused]
    by_cases hu : u.status = efiSuccess <;> by_cases hbuffer : p.buffer = 0 <;>
      simp [Call.frees, mapCalls, tableOf, ht, hu, hbuffer]

/-- The run once the callback has the map. -/
theorem efiGetMemoryMap_ok (rest : List Reply) (htmp : tmp.status = efiBufferTooSmall) (hp : p.status = efiSuccess)
    (ht : t.status = efiSuccess) (hr : r.status = efiSuccess) :
    (efiGetMemoryMap true).run (tmp :: p :: t :: r :: rest) [] =
        (mapCalls tmp p t r, some (.ok (handedMap tmp p r))) ∧
      (efiGetMemoryMap true).left (tmp :: p :: t :: r :: rest) = rest := by
  simp [efiGetMemoryMap, htmp, hp, ht, hr, fillMap, mapCalls, handedMap, askedSize]

/-- An end behind a call of `exit_boot_services`. -/
theorem cleanReturn_exited {α : Type} {q : Firmware α} {replies : List Reply} {past : List Event} {e : Event}
    (hexit : e.1.isExitBootServices = true) (hmem : e ∈ past) : CleanReturn (q.run replies past) := by
  intro _ hnoExit
  exact absurd (hnoExit e (mem_run q replies hmem)) (by simp [hexit])

/-- The end after the calls of a callback that refuses the map. -/
theorem cleanReturn_free_iff {α : Type} (hp : p.status = efiSuccess) (calls : List Event) (f : Reply) (a : α) :
    CleanReturn ((.freePool p.buffer, f) :: (calls ++ mapCalls tmp p t r), some a) ↔
      ¬ (NoExitCalled calls ∧ (calls.countP (·.1.frees p.buffer) ≠ 0 ∨
        tableOf linuxEfiBootMemmapGuid (calls ++ mapCalls tmp p t r) = some p.buffer)) := by
  have hblock : mapBlock ((.freePool p.buffer, f) :: (calls ++ mapCalls tmp p t r)).reverse = some p.buffer := by
    simp [mapBlock, mapCalls, hp]
  have hnoExit : NoExitCalled ((.freePool p.buffer, f) :: (calls ++ mapCalls tmp p t r)) ↔ NoExitCalled calls := by
    simp [NoExitCalled, mapCalls, Call.isExitBootServices, or_imp, forall_and]
  have hfreed : ((.freePool p.buffer, f) :: (calls ++ mapCalls tmp p t r)).countP (·.1.frees p.buffer) =
      calls.countP (·.1.frees p.buffer) + 1 := by
    simp [Call.frees, mapCalls]
  simp only [CleanReturn, Option.isSome_some, forall_const, hnoExit, Restored, hblock, Option.mem_def,
    Option.some.injEq, forall_eq', hfreed, Nat.add_eq_right, tableOf, not_and, not_or, not_not, ne_eq]

/-- The callback's first call. -/
theorem cleanReturn_callback_iff (hkeeps : KeepsAddr privFunc) (htmp : tmp.status = efiBufferTooSmall)
    (hp : p.status = efiSuccess) (ht : t.status = efiSuccess) (hr : r.status = efiSuccess) :
    CleanReturn ((efiExitBootServices handle priv privFunc).run (tmp :: p :: t :: r :: rest) []) ↔
      ¬ CallbackLeaves privFunc priv tmp p t r rest := by
  obtain ⟨hrun, hleft⟩ := efiGetMemoryMap_ok rest htmp hp ht hr
  rw [efiExitBootServices, run_bind_some (congrArg Prod.snd hrun), hrun, hleft]
  have hpast := run_past (privFunc (handedMap tmp p r) priv) rest (mapCalls tmp p t r)
  cases hvalue : ((privFunc (handedMap tmp p r) priv).run rest []).2 with
  | none =>
      rw [run_bind_none (by rw [hpast, hvalue])]
      refine iff_of_true (cleanReturn_none rfl) fun hleaves => ?_
      obtain ⟨a, ha, -⟩ := hleaves.refused
      simp [hvalue] at ha
  | some a =>
      rw [run_bind_some (by rw [hpast, hvalue]), hpast]
      obtain ⟨status, map, priv'⟩ := a
      have haddr : map.addr = p.buffer := hkeeps (handedMap tmp p r) priv rest _ hvalue
      by_cases hstatus : status = efiSuccess
      · simp only [hstatus, ne_eq, not_true_eq_false, if_false]
        refine iff_of_true ?_ fun hleaves => ?_
        · cases (privFunc (handedMap tmp p r) priv).left rest with
          | nil => exact cleanReturn_none rfl
          | cons x later =>
              rw [run_ask_cons]
              exact cleanReturn_exited rfl List.mem_cons_self
        · obtain ⟨a, ha, hrefused⟩ := hleaves.refused
          rw [hvalue, Option.some.injEq] at ha
          exact hrefused (ha ▸ hstatus)
      · simp only [hstatus, ne_eq, not_false_eq_true, if_true]
        cases hrest : (privFunc (handedMap tmp p r) priv).left rest with
        | nil => exact iff_of_true (cleanReturn_none rfl) fun hleaves => hleaves.answered hrest
        | cons f later =>
            rw [run_ask_cons, run_pure, haddr, cleanReturn_free_iff hp, not_iff_not]
            refine ⟨fun h => ⟨⟨_, hvalue, hstatus⟩, by simp [hrest], h.1, h.2⟩, fun h => ⟨h.noExit, h.leaves⟩⟩

/-- **Undoing a failure**: `efi_exit_boot_services` leaves nothing behind exactly when the callback and the firmware do
not leave the table. -/
theorem efiExitBootServices_cleanReturn_iff (hkeeps : KeepsAddr privFunc) (replies : List Reply) :
    CleanReturn ((efiExitBootServices handle priv privFunc).run replies []) ↔ ¬ LeavesTable privFunc priv replies := by
  cases replies with
  | nil => exact iff_of_true (cleanReturn_none rfl) not_false
  | cons tmp replies =>
      by_cases htmp : tmp.status = efiBufferTooSmall
      · cases replies with
        | nil => exact iff_of_true (efiExitBootServices_none (by simp [efiGetMemoryMap, htmp])) not_false
        | cons p replies =>
            by_cases hp : p.status = efiSuccess
            · cases replies with
              | nil => exact iff_of_true (efiExitBootServices_none (by simp [efiGetMemoryMap, htmp, hp])) not_false
              | cons t replies =>
                  by_cases ht : t.status = efiSuccess
                  · cases replies with
                    | nil =>
                        refine iff_of_true (efiExitBootServices_none ?_) not_false
                        simp [efiGetMemoryMap, htmp, hp, ht, fillMap]
                    | cons r rest =>
                        by_cases hr : r.status = efiSuccess
                        · simp [cleanReturn_callback_iff hkeeps htmp hp ht hr, LeavesTable, htmp, hp, ht, hr]
                        · simp [cleanReturn_fill_iff htmp hp ht hr, LeavesTable, htmp, hp, ht, hr]
                  · refine iff_of_true (cleanReturn_install htmp hp ht) ?_
                    cases replies <;> simp [LeavesTable, ht]
            · refine iff_of_true (cleanReturn_allocate htmp hp) ?_
              obtain _ | ⟨t, _ | ⟨r, rest⟩⟩ := replies <;> simp [LeavesTable, hp]
      · refine iff_of_true (cleanReturn_query htmp) ?_
        obtain _ | ⟨p, _ | ⟨t, _ | ⟨r, rest⟩⟩⟩ := replies <;> simp [LeavesTable, htmp]

end

/-- The callback of `efi_boot_kernel`. -/
theorem exitBootFunc_keepsAddr (fuel : Nat) : KeepsAddr (exitBootFunc fuel) := by
  intro map priv replies a ha
  simp only [exitBootFunc] at ha
  cases hvirtmap : efiGetVirtmap fuel false map.map map.mapSize map.descSize priv.runtimeMap with
  | none =>
      simp only [hvirtmap] at ha
      cases replies <;> cases ha
  | some v =>
      simp only [hvirtmap, run_pure, Option.mem_def, Option.some.injEq] at ha
      rw [← ha]

/-- A firmware that has no memory map for the stub at last, and takes the table back. -/
def takingReplies : List Reply :=
  [sizeReply efiBufferTooSmall 0 40, sizeReply efiSuccess 0x1000 0, sizeReply efiSuccess 0 0,
    sizeReply efiLoadError 0 0, sizeReply efiSuccess 0 0, sizeReply efiSuccess 0 0]

theorem efiExitBootServices_cleanReturn_taken :
    CleanReturn ((efiExitBootServices 5 { runtimeMap := fun _ => 0, runtimeEntryCount := 0 } (exitBootFunc 2)).run
      takingReplies []) := by
  refine (efiExitBootServices_cleanReturn_iff (exitBootFunc_keepsAddr 2) takingReplies).mpr ?_
  simp [LeavesTable, takingReplies, sizeReply, RemovalRefused, show efiLoadError ≠ efiSuccess by decide]

/-- A callback that refuses every map. -/
def refuseMap : MapProcessing Unit := fun map priv => return (efiLoadError, map, priv)

/-- A firmware that fails at nothing but the first size query. -/
def servingReplies : List Reply :=
  [sizeReply efiBufferTooSmall 0 40, sizeReply efiSuccess 0x1000 0, sizeReply efiSuccess 0 0,
    sizeReply efiSuccess 0 40, sizeReply efiSuccess 0 0]

/-- The callback refuses the map: the block is free, and the table still points at it. -/
theorem efiExitBootServices_leaves_table :
    KeepsAddr refuseMap ∧ ¬ CleanReturn ((efiExitBootServices 5 () refuseMap).run servingReplies []) := by
  refine ⟨fun map priv replies a ha => ?_, fun hclean => ?_⟩
  · simp only [refuseMap, run_pure, Option.mem_def, Option.some.injEq] at ha
    rw [← ha]
  · have hnoExit : NoExitCalled ((efiExitBootServices 5 () refuseMap).run servingReplies []).1 := by
      have hall : ((efiExitBootServices 5 () refuseMap).run servingReplies []).1.all
          (!·.1.isExitBootServices) = true := rfl
      exact fun e he => by simpa using List.all_eq_true.mp hall e he
    exact (hclean rfl hnoExit 0x1000 rfl).2 rfl

end XosKernel.Efi
