import XosKernel.EfiStub

/-! What the stub leaves behind when it fails. The pages of the kernel image are allocated before everything else, and
nothing in the stub frees pages, so an error that comes after them leaves them allocated; an error before them
leaves nothing. -/

namespace XosKernel.Efi

open Calls Prog

/-- What boot services hand out: pages at an address, or a buffer of the pool. -/
inductive Allocation where
  | pages (memory pages : U64)
  | pool (buffer : U64)
  deriving DecidableEq

namespace StubCall

def isExitBootServices : StubCall → Bool
  | boot c => c.isExitBootServices
  | _ => false

def isFreePages : StubCall → Bool
  | freePages _ _ => true
  | _ => false

end StubCall

/-- What a call allocated, if it succeeded. `EFI_ALLOCATE_ADDRESS` leaves the address as it was passed. -/
def allocation? : StubEvent → Option Allocation
  | (.allocatePages _ _ pages memory, r) => if r.status = efiSuccess then some (.pages memory pages) else none
  | (.boot (.allocatePool _ _), r) => if r.status = efiSuccess then some (.pool r.buffer) else none
  | _ => none

def freed? : StubEvent → Option Allocation
  | (.freePages memory pages, _) => some (.pages memory pages)
  | (.boot (.freePool buffer), _) => some (.pool buffer)
  | _ => none

/-- Everything that was allocated has been freed since, in calls that are listed last first. -/
def Released (calls : List StubEvent) : Prop :=
  ∀ late e early a, calls = late ++ e :: early → allocation? e = some a → ∃ f ∈ late, freed? f = some a

/-- The stub fails before it owns anything: the system table is not one, or the firmware refuses the loaded image or
the pages of the kernel. -/
def FailsEarly (sys : EfiSystemTable) (replies : List Reply) : Prop :=
  sys.signature ≠ efiSystemTableSignature ∨ (∃ r, replies[0]? = some r ∧ r.status ≠ efiSuccess) ∨
    ∃ r, replies[1]? = some r ∧ r.status ≠ efiSuccess

theorem released_nil : Released [] := fun late e early a h => by simp at h

/-- A call that allocates nothing. -/
theorem Released.cons {calls : List StubEvent} (h : Released calls) {e : StubEvent} (he : allocation? e = none) :
    Released (e :: calls) := by
  intro late e' early a hsplit ha
  cases late with
  | nil =>
      rw [List.nil_append, List.cons.injEq] at hsplit
      rw [← hsplit.1, he] at ha
      cases ha
  | cons f late =>
      rw [List.cons_append, List.cons.injEq] at hsplit
      obtain ⟨g, hg, hfreed⟩ := h late e' early a hsplit.2 ha
      exact ⟨g, List.mem_cons_of_mem _ hg, hfreed⟩

/-- Pages that nobody frees. -/
theorem not_released {calls : List StubEvent} {memory pages : U64} {e : StubEvent} (hmem : e ∈ calls)
    (he : allocation? e = some (.pages memory pages)) (hfree : ∀ f ∈ calls, f.1.isFreePages = false) :
    ¬ Released calls := by
  intro hreleased
  obtain ⟨late, early, hsplit⟩ := List.append_of_mem hmem
  obtain ⟨f, hf, hfreed⟩ := hreleased late e early _ hsplit he
  have hfalse := hfree f (by rw [hsplit]; exact List.mem_append_left _ hf)
  obtain ⟨c, r⟩ := f
  cases c with
  | freePages memory pages => cases hfalse
  | boot c =>
      cases c with
      | freePool buffer => cases hfreed
      | _ => cases hfreed
  | _ => cases hfreed

section

variable {fuel : Nat} {kernelAsize : U32} {mem : Bytes} {sys : EfiSystemTable} {efiNovamap : Bool} {handle : U64}

/-- The entry up to the pages of the image. -/
theorem efiPeEntry_eq : efiPeEntry fuel kernelAsize mem sys efiNovamap handle =
    if sys.signature ≠ efiSystemTableSignature then .ret (.failed efiInvalidParameter)
    else .call (.handleProtocol handle loadedImageProtocolGuid) fun image =>
      if image.status ≠ efiSuccess then .ret (.failed image.status)
      else
        .call (.allocatePages efiAllocateAddress efiLoaderData ((imagePages kernelAsize).signExtend 64)
          efiKimgPreferredAddress) fun p =>
          if p.status ≠ efiSuccess then .ret (.failed p.status)
          else (efiStubCommon fuel mem sys efiNovamap handle 0).mapCalls .boot := rfl

/-- Whatever comes after the pages of the image, they are not freed. -/
theorem image_not_released (p : Firmware BootEnd) (replies : List Reply) {past : List StubEvent} {r : Reply}
    {pages memory : U64} (hr : r.status = efiSuccess) (hpast : ∀ e ∈ past, e.1.isFreePages = false)
    (hmem : (.allocatePages efiAllocateAddress efiLoaderData pages memory, r) ∈ past) :
    ¬ Released ((p.mapCalls .boot).run replies past).1 := by
  refine not_released (mem_run _ replies hmem) (if_pos hr) ?_
  exact (ensures_mapCalls (P := fun e : StubEvent => e.1.isFreePages = false) (fun _ _ => rfl) p hpast).run replies

/-- **What a failure leaves**: when `efi_pe_entry` returns an error, everything that the stub allocated is freed exactly
if it failed before it had the pages of the kernel image. -/
theorem efiPeEntry_released_iff {replies : List Reply} {status : EfiStatus}
    (hret : ((efiPeEntry fuel kernelAsize mem sys efiNovamap handle).run replies []).2 = some (.failed status)) :
    Released ((efiPeEntry fuel kernelAsize mem sys efiNovamap handle).trace replies) ↔ FailsEarly sys replies := by
  rw [trace]
  rw [efiPeEntry_eq] at hret ⊢
  by_cases hsig : sys.signature ≠ efiSystemTableSignature
  · rw [if_pos hsig]
    exact iff_of_true released_nil (.inl hsig)
  rw [if_neg hsig] at hret ⊢
  cases replies with
  | nil => cases hret
  | cons image rs =>
      rw [run] at hret ⊢
      by_cases himage : image.status ≠ efiSuccess
      · rw [if_pos himage]
        exact iff_of_true (released_nil.cons rfl) (.inr (.inl ⟨image, rfl, himage⟩))
      rw [if_neg himage] at hret ⊢
      cases rs with
      | nil => cases hret
      | cons p rs =>
          rw [run] at hret ⊢
          by_cases hp : p.status ≠ efiSuccess
          · rw [if_pos hp]
            exact iff_of_true ((released_nil.cons rfl).cons (if_neg hp)) (.inr (.inr ⟨p, rfl, hp⟩))
          rw [if_neg hp] at hret ⊢
          refine iff_of_false (image_not_released _ rs (not_not.mp hp) (by simp [StubCall.isFreePages])
            List.mem_cons_self) ?_
          rintro (h | ⟨r, hr, h⟩ | ⟨r, hr, h⟩)
          · exact hsig h
          · cases hr
            exact himage h
          · cases hr
            exact hp h

end

/-- A reply with nothing but a status. -/
def statusReply (status : EfiStatus) : Reply :=
  { status, buffer := 0x1000, bytes := fun _ => 0, mapSize := 0, mapKey := 0, descSize := 0, descVer := 0 }

def bareSystemTable : EfiSystemTable := { signature := efiSystemTableSignature, tables := [] }

/-- The firmware has no room for the kernel. -/
theorem efiPeEntry_released_no_room :
    Released ((efiPeEntry 0 0x10000 (fun _ => 0) bareSystemTable false 5).trace
      [statusReply efiSuccess, statusReply efiLoadError]) := by
  have hret : ((efiPeEntry 0 0x10000 (fun _ => 0) bareSystemTable false 5).run
      [statusReply efiSuccess, statusReply efiLoadError] []).2 = some (.failed efiLoadError) := by decide +kernel
  exact (efiPeEntry_released_iff hret).mpr (.inr (.inr ⟨statusReply efiLoadError, rfl, by decide⟩))

/-- The firmware does not give its memory map: the kernel image and the memory reservations stay allocated. -/
theorem efiPeEntry_leaks :
    ((efiPeEntry 0 0x10000 (fun _ => 0) bareSystemTable false 5).run
        (List.replicate 5 (statusReply efiSuccess)) []).2 = some (.failed efiLoadError) ∧
      (∀ e ∈ (efiPeEntry 0 0x10000 (fun _ => 0) bareSystemTable false 5).trace
        (List.replicate 5 (statusReply efiSuccess)), e.1.isExitBootServices = false) ∧
      ¬ Released ((efiPeEntry 0 0x10000 (fun _ => 0) bareSystemTable false 5).trace
        (List.replicate 5 (statusReply efiSuccess))) := by
  refine ⟨by decide +kernel, by decide +kernel, ?_⟩
  exact image_not_released (efiStubCommon 0 (fun _ => 0) bareSystemTable false 5 0)
    (List.replicate 3 (statusReply efiSuccess)) (r := statusReply efiSuccess) rfl (by simp [StubCall.isFreePages])
    List.mem_cons_self

end XosKernel.Efi
