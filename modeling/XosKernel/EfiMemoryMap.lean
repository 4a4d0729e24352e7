import XosKernel.EfiModel
import XosKernel.EnvStages

/-! What `efi_get_memory_map` leaves behind, for every firmware. When it fails, the block that it allocated was freed
once, the table that it installed is removed, and the status is that of the first call that failed. When it succeeds,
the last call is the memory map that it hands on, in a block with room for all the descriptors that were asked for. -/

namespace XosKernel.Efi

open Memory Calls Prog

namespace Call

def isAllocatePool : Call → Bool
  | allocatePool _ _ => true
  | _ => false

def frees (buffer : U64) : Call → Bool
  | freePool b => b == buffer
  | _ => false

/-- A removal of a configuration table. -/
def uninstalls : Call → Bool
  | installConfigurationTable _ table => table == 0
  | _ => false

end Call

/-- The table that the firmware has under a guid after the calls, the last of which is the first of the list. -/
def tableOf (guid : EfiGuid) : List Event → Option U64
  | [] => none
  | (.installConfigurationTable g table, r) :: calls =>
      if g = guid ∧ r.status = efiSuccess then if table = 0 then none else some table else tableOf guid calls
  | _ :: calls => tableOf guid calls

/-- A block of `size` bytes that the firmware has allocated. -/
def Allocated (calls : List Event) (buffer size : U64) : Prop :=
  ∃ poolType p, (.allocatePool poolType size, p) ∈ calls ∧ p.status = efiSuccess ∧ p.buffer = buffer

/-- The status of the first call that failed, for calls in the order in which they were made. The first call asks for
the size of the map and has to fail for want of room. -/
def firstFailure : List Event → EfiStatus
  | [] => efiSuccess
  | query :: calls =>
      if query.2.status ≠ efiBufferTooSmall then efiLoadError
      else ((calls.find? fun e => e.2.status != efiSuccess).map fun e => e.2.status).getD efiSuccess

/-- A failure that leaves nothing behind. -/
structure GaveUp (calls : List Event) (status : EfiStatus) : Prop where
  status_ne : status ≠ efiSuccess
  first : status = firstFailure calls.reverse
  freed : ∀ buffer size, Allocated calls buffer size → calls.countP (·.1.frees buffer) = 1
  uninstalled : (∀ e ∈ calls, e.1.uninstalls → e.2.status = efiSuccess) → tableOf linuxEfiBootMemmapGuid calls = none

/-- The size of the block is computed without overflow from the reply to the first call. -/
def SizesFit (calls : List Event) : Prop :=
  ∀ e ∈ calls.getLast?, sizeofEfiBootMemmap.toNat + (e.2.mapSize.toNat + 8 * e.2.descSize.toNat) < 2 ^ 64

/-- The memory map that the last call filled in, with the room that the call was given. -/
structure Delivered (calls : List Event) (map : EfiBootMemmap) : Prop where
  query : ∃ m early, calls = (.getMemoryMap map.buffSize (map.addr + sizeofEfiBootMemmap), m) :: early ∧
    m.status = efiSuccess ∧ map.mapKey = m.mapKey ∧ map.map = m.bytes
  room : SizesFit calls → ∃ size, Allocated calls map.addr size ∧
    sizeofEfiBootMemmap.toNat + map.buffSize.toNat ≤ size.toNat
  kept : calls.countP (·.1.frees map.addr) = 0

/-- How `efi_get_memory_map` stands. A failure hands out no map. -/
def MapContract (calls : List Event) : Stage Call (Except EfiStatus EfiBootMemmap) → Prop
  | .returned (.error status) => GaveUp calls status
  | .returned (.ok map) => Delivered calls map
  | .waiting _ => True
  | .hung => False

section

variable {tmp p t r : Reply} {poolType : U32} {size : U64} {status : EfiStatus}

/-- The only block is the one of the second call. -/
theorem allocated_iff (later : List Event) (hlater : ∀ e ∈ later, e.1.isAllocatePool = false) {buffer size' : U64} :
    Allocated (later ++ [(.allocatePool poolType size, p), (.getMemoryMap 0 0, tmp)]) buffer size' ↔
      p.status = efiSuccess ∧ p.buffer = buffer ∧ size' = size := by
  constructor
  · rintro ⟨ty, q, hmem, hstatus, hbuffer⟩
    rcases List.mem_append.mp hmem with hin | hin
    · exact absurd (hlater _ hin) (by simp [Call.isAllocatePool])
    · simp only [List.mem_cons, Prod.mk.injEq, Call.allocatePool.injEq, reduceCtorEq, false_and, or_false,
        List.not_mem_nil] at hin
      obtain ⟨⟨-, hsize⟩, rfl⟩ := hin
      exact ⟨hstatus, hbuffer, hsize⟩
  · rintro ⟨hstatus, hbuffer, rfl⟩
    exact ⟨poolType, p, List.mem_append_right _ List.mem_cons_self, hstatus, hbuffer⟩

/-- A failure before a block was allocated. -/
theorem gaveUp_query (h : tmp.status ≠ efiBufferTooSmall) : GaveUp [(.getMemoryMap 0 0, tmp)] efiLoadError := by
  refine ⟨by decide, by simp [firstFailure, h], fun buffer size hallocated => ?_, fun _ => rfl⟩
  obtain ⟨_, _, hmem, -⟩ := hallocated
  simp at hmem

theorem gaveUp_allocate (htmp : tmp.status = efiBufferTooSmall) (h : p.status ≠ efiSuccess) :
    GaveUp [(.allocatePool poolType size, p), (.getMemoryMap 0 0, tmp)] p.status := by
  refine ⟨h, by simp [firstFailure, htmp, h], fun buffer size' hallocated => ?_, fun _ => rfl⟩
  exact absurd ((allocated_iff [] (by simp)).mp hallocated).1 h

/-- A failure after that: the label `free_map`. -/
theorem gaveUp_free (later : List Event) (htmp : tmp.status = efiBufferTooSmall) (hp : p.status = efiSuccess)
    (hlater : ∀ e ∈ later, e.1.isAllocatePool = false ∧ e.1.frees p.buffer = false) (hstatus : status ≠ efiSuccess)
    (hfirst : ((later.reverse.find? fun e => e.2.status != efiSuccess).map fun e => e.2.status) = some status)
    (huninstalled : (∀ e ∈ later, e.1.uninstalls → e.2.status = efiSuccess) →
      tableOf linuxEfiBootMemmapGuid (later ++ [(.allocatePool poolType size, p), (.getMemoryMap 0 0, tmp)]) = none) :
    (freeMap p.buffer status).Ensures MapContract
      (later ++ [(.allocatePool poolType size, p), (.getMemoryMap 0 0, tmp)]) := by
  refine ensures_ask.mpr ⟨trivial, fun f => ⟨hstatus, ?_, fun buffer size' hallocated => ?_, fun hall => ?_⟩⟩
  · obtain ⟨e, he, hstatus'⟩ := Option.map_eq_some_iff.mp hfirst
    simp only [List.reverse_cons, List.reverse_append, List.reverse_nil, List.nil_append, List.cons_append,
      firstFailure, htmp, ne_eq, not_true_eq_false, if_false]
    rw [List.find?_cons_of_neg (by simp [hp]), List.find?_append, he]
    exact hstatus'.symm
  · rw [← List.cons_append] at hallocated ⊢
    obtain ⟨-, rfl, -⟩ := (allocated_iff _ (List.forall_mem_cons.mpr ⟨rfl, fun e he => (hlater e he).1⟩)).mp hallocated
    have hnone : later.countP (·.1.frees p.buffer) = 0 :=
      List.countP_eq_zero.mpr fun e he => by simp [(hlater e he).2]
    rw [List.cons_append, List.countP_cons, List.countP_append, hnone]
    simp [Call.frees]
  · exact huninstalled fun e he => hall e (List.mem_cons_of_mem _ (List.mem_append_left _ he))

/-- The labels `uninstall_table` and `free_map` after the last memory map. -/
theorem uninstallTable_contract (installCfgTbl : Bool) {later : List Event} (htmp : tmp.status = efiBufferTooSmall)
    (hp : p.status = efiSuccess) (hlater : later = if installCfgTbl then
      [(.installConfigurationTable linuxEfiBootMemmapGuid p.buffer, t)] else [])
    (ht : installCfgTbl = true → t.status = efiSuccess) {mapSize memoryMap : U64} (hr : r.status ≠ efiSuccess) :
    (uninstallTable installCfgTbl p.buffer r.status).Ensures MapContract
      ((.getMemoryMap mapSize memoryMap, r) :: later ++
        [(.allocatePool poolType size, p), (.getMemoryMap 0 0, tmp)]) := by
  cases installCfgTbl with
  | false =>
      obtain rfl : later = [] := hlater
      refine gaveUp_free [(.getMemoryMap mapSize memoryMap, r)] htmp hp ?_ hr ?_ fun _ => rfl
      · simp [Call.isAllocatePool, Call.frees]
      · simp [hr]
  | true =>
      obtain rfl : later = [(.installConfigurationTable linuxEfiBootMemmapGuid p.buffer, t)] := hlater
      refine ensures_ask.mpr ⟨trivial, fun u => ?_⟩
      refine gaveUp_free [(.installConfigurationTable linuxEfiBootMemmapGuid 0, u),
        (.getMemoryMap mapSize memoryMap, r), (.installConfigurationTable linuxEfiBootMemmapGuid p.buffer, t)]
        htmp hp ?_ hr ?_ fun hall => ?_
      · simp [Call.isAllocatePool, Call.frees]
      · simp [ht rfl, hr]
      · have hu : u.status = efiSuccess := hall _ List.mem_cons_self rfl
        simp [tableOf, hu]

/-- The call that fills the block, after a table was installed or not. -/
theorem fillMap_contract (installCfgTbl : Bool) {later : List Event} (htmp : tmp.status = efiBufferTooSmall)
    (hp : p.status = efiSuccess) (hlater : later = if installCfgTbl then
      [(.installConfigurationTable linuxEfiBootMemmapGuid p.buffer, t)] else [])
    (ht : installCfgTbl = true → t.status = efiSuccess) :
    (fillMap installCfgTbl p.buffer (tmp.mapSize + tmp.descSize * efiMmapNrSlackSlots)).Ensures MapContract
      (later ++ [(.allocatePool poolType
        (sizeofEfiBootMemmap + (tmp.mapSize + tmp.descSize * efiMmapNrSlackSlots)), p), (.getMemoryMap 0 0, tmp)]) := by
  refine ensures_ask.mpr ⟨trivial, fun r => ensures_ite (fun hr => ?_) fun hr => ?_⟩
  · exact uninstallTable_contract installCfgTbl htmp hp hlater ht hr
  · have hkept : ∀ e ∈ later, e.1.isAllocatePool = false ∧ e.1.frees p.buffer = false := by
      rw [hlater]
      split_ifs <;> simp [Call.isAllocatePool, Call.frees]
    have hcalls : ∀ e ∈ (Call.getMemoryMap (tmp.mapSize + tmp.descSize * efiMmapNrSlackSlots)
        (p.buffer + sizeofEfiBootMemmap), r) :: later, e.1.isAllocatePool = false ∧ e.1.frees p.buffer = false :=
      List.forall_mem_cons.mpr ⟨⟨rfl, rfl⟩, hkept⟩
    refine ⟨⟨r, _, rfl, not_not.mp hr, rfl, rfl⟩, fun hfit => ?_, ?_⟩
    · rw [← List.cons_append] at hfit ⊢
      refine ⟨_, (allocated_iff _ fun e he => (hcalls e he).1).mpr ⟨hp, rfl, rfl⟩, ?_⟩
      have hsizes : sizeofEfiBootMemmap.toNat + (tmp.mapSize.toNat + 8 * tmp.descSize.toNat) < 2 ^ 64 := by
        refine hfit (.getMemoryMap 0 0, tmp) ?_
        rw [List.getLast?_append]
        rfl
      have hslots : efiMmapNrSlackSlots.toNat = 8 := rfl
      show sizeofEfiBootMemmap.toNat + (tmp.mapSize + tmp.descSize * efiMmapNrSlackSlots).toNat ≤ _
      have hsize : (tmp.mapSize + tmp.descSize * efiMmapNrSlackSlots).toNat =
          tmp.mapSize.toNat + 8 * tmp.descSize.toNat := by
        rw [BitVec.toNat_add, BitVec.toNat_mul, hslots, Nat.mul_comm, Nat.mod_eq_of_lt (a := 8 * _) (by omega),
          Nat.mod_eq_of_lt (by omega)]
      rw [BitVec.toNat_add sizeofEfiBootMemmap, hsize, Nat.mod_eq_of_lt hsizes]
    · rw [← List.cons_append, List.countP_append, List.countP_eq_zero.mpr fun e he => by simp [(hcalls e he).2]]
      simp [Call.frees]

/-- **The memory map**: what `efi_get_memory_map` leaves behind on every run. -/
theorem efiGetMemoryMap_contract (installCfgTbl : Bool) (replies : List Reply) :
    MapContract ((efiGetMemoryMap installCfgTbl).run replies []).1
      ((efiGetMemoryMap installCfgTbl).stage replies) := by
  refine Ensures.run ?_ replies
  refine ensures_ask.mpr ⟨trivial, fun tmp => ensures_ite (fun htmp => gaveUp_query htmp) fun htmp => ?_⟩
  rw [not_not] at htmp
  refine ensures_ask.mpr ⟨trivial, fun p => ensures_ite (fun hp => gaveUp_allocate htmp hp) fun hp => ?_⟩
  rw [not_not] at hp
  cases installCfgTbl with
  | false => exact fillMap_contract (t := p) false htmp hp rfl (by simp)
  | true =>
      refine ensures_ask.mpr ⟨trivial, fun t => ensures_ite (fun ht => ?_) fun ht => ?_⟩
      · refine gaveUp_free [(.installConfigurationTable linuxEfiBootMemmapGuid p.buffer, t)] htmp hp ?_ ht ?_ ?_
        · simp [Call.isAllocatePool, Call.frees]
        · simp [ht]
        · simp [tableOf, ht]
      · exact fillMap_contract true htmp hp rfl fun _ => not_not.mp ht

end

/-- A reply with the size of a memory map. -/
def sizeReply (status buffer mapSize : U64) : Reply where
  status := status
  buffer := buffer
  bytes := fun _ => 0
  mapSize := mapSize
  mapKey := 0
  descSize := 0
  descVer := 0

/-- A map of `2 ^ 64 - 20` bytes: with the header, the size of the block wraps to 20. -/
def hugeMapReplies : List Reply :=
  [sizeReply efiBufferTooSmall 0 0xFFFFFFFFFFFFFFEC, sizeReply efiSuccess 0x1000 0, sizeReply efiSuccess 0 0]

/-- The size of the map alone does not overflow, and the block has no room for it. -/
theorem efiGetMemoryMap_header_wraps :
    let run := (efiGetMemoryMap false).run hugeMapReplies []
    (∀ e ∈ run.1.getLast?, e.2.mapSize.toNat + 8 * e.2.descSize.toNat < 2 ^ 64) ∧
      ∃ map, run.2 = some (.ok map) ∧ ∀ size, Allocated run.1 map.addr size →
        ¬ map.buffSize.toNat ≤ size.toNat := by
  intro run
  have hrun : run.1 = [(.getMemoryMap 0xFFFFFFFFFFFFFFEC 0x1028, sizeReply efiSuccess 0 0),
      (.allocatePool efiLoaderData 20, sizeReply efiSuccess 0x1000 0),
      (.getMemoryMap 0 0, sizeReply efiBufferTooSmall 0 0xFFFFFFFFFFFFFFEC)] := rfl
  refine ⟨?_, _, rfl, fun size hallocated => ?_⟩
  · rw [hrun]
    simp [sizeReply]
  · obtain ⟨ty, p, hmem, -, -⟩ := hallocated
    simp only [hrun, List.mem_cons, Prod.mk.injEq, reduceCtorEq, false_and, or_false, false_or, List.not_mem_nil,
      Call.allocatePool.injEq] at hmem
    obtain rfl : size = 20 := hmem.1.2
    show ¬ (0xFFFFFFFFFFFFFFEC : U64).toNat ≤ (20 : U64).toNat
    decide

end XosKernel.Efi
