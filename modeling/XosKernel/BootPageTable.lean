import XosKernel.PagetableWalk

/-! The page table that the kernel starts on. `page_create` fills one table, which serves both the addresses from 0
on and the kernel's own addresses from `PAGE_OFFSET` on, so the direct map reaches the first 4 MB of the
physical memory and no more. -/

namespace XosKernel.Paging

open Memory Loop Word

/-- The flags of every entry: `PAGE_PRESENT | PAGE_WRITE | PAGE_USER`. -/
def bootFlags : Word := pagePresent ||| pageRw ||| pageUser

/-- The tables that `page_create` writes. It runs before paging is on and so at the physical addresses of `pgd` and
`pte`; the memory is named by the kernel's addresses here as everywhere. -/
def pageCreate (m : Mem 32) (pgd pte : Word) : Mem 32 :=
  let m := forUp (fun i m => store32 m (entry (physToVirt pgd) i) 0) 1024 m
  let m := store32 m (entry (physToVirt pgd) 0) (pte ||| bootFlags)
  let m := store32 m (entry (physToVirt pgd) 768) (pte ||| bootFlags)
  let m := forUp (fun i m => store32 m (entry (physToVirt pte) i) 0) 1024 m
  (forUp (fun i (s : Mem 32 × Word) =>
    (store32 s.1 (entry (physToVirt pte) i) (s.2 ||| bootFlags), s.2 + pageSize)) 1024 (m, 0)).1

section

variable {m : Mem 32} {p pgd pte : Word}

/-- A loop that clears the first entries of a page. -/
theorem forUp_clear {n : Nat} (hn : n ≤ 1024) :
    (∀ k < n, load32 (forUp (fun i m => store32 m (entry p i) 0) n m) (entry p k) = 0) ∧
      ∀ b, ¬ InPage p b → forUp (fun i m => store32 m (entry p i) 0) n m b = m b := by
  refine forUp_inv (fun n t => (∀ k < n, load32 t (entry p k) = 0) ∧ ∀ b, ¬ InPage p b → t b = m b)
    ⟨fun k hk => absurd hk (Nat.not_lt_zero k), fun _ _ => rfl⟩ ?_
  rintro i t hi ⟨hclear, hframe⟩
  refine ⟨fun k hk => ?_, fun b hb => ?_⟩
  · rw [load32_store32_entry (by omega) (by omega)]
    split
    · rfl
    · exact hclear k (by omega)
  · rw [store32_entry_apply (by omega) hb, hframe b hb]

/-- The loop that fills the table: entry `i` maps page `i`. -/
theorem forUp_identity {n : Nat} (hn : n ≤ 1024) :
    (∀ k < n, load32 (forUp (fun i (s : Mem 32 × Word) =>
        (store32 s.1 (entry p i) (s.2 ||| bootFlags), s.2 + pageSize)) n (m, 0)).1 (entry p k) =
          BitVec.ofNat 32 (k * 4096) ||| bootFlags) ∧
      ∀ b, ¬ InPage p b → (forUp (fun i (s : Mem 32 × Word) =>
        (store32 s.1 (entry p i) (s.2 ||| bootFlags), s.2 + pageSize)) n (m, 0)).1 b = m b := by
  have hinv := @forUp_inv _ (fun n s => s.2 = BitVec.ofNat 32 (n * 4096) ∧
      (∀ k < n, load32 s.1 (entry p k) = BitVec.ofNat 32 (k * 4096) ||| bootFlags) ∧
      ∀ b, ¬ InPage p b → s.1 b = m b)
    (fun i s => (store32 s.1 (entry p i) (s.2 ||| bootFlags), s.2 + pageSize)) n (m, (0 : Word))
    ⟨rfl, fun k hk => absurd hk (Nat.not_lt_zero k), fun _ _ => rfl⟩ ?_
  · exact hinv.2
  rintro i ⟨t, phys⟩ hi ⟨hphys, hentries, hframe⟩
  dsimp only at hphys
  refine ⟨?_, fun k hk => ?_, fun b hb => ?_⟩
  · show phys + pageSize = _
    rw [hphys, Nat.succ_mul, BitVec.ofNat_add]
    rfl
  · show load32 (store32 t (entry p i) (phys ||| bootFlags)) (entry p k) = _
    rw [load32_store32_entry (by omega) (by omega), hphys]
    by_cases hki : k = i
    · rw [if_pos hki, hki]
    · rw [if_neg hki]
      exact hentries k (by omega)
  · exact (store32_entry_apply (by omega) hb).trans (hframe b hb)

theorem physToVirt_aligned (hp : p.toNat % 4096 = 0) : (physToVirt p).toNat % 4096 = 0 := by
  have hoff := toNat_pageOffset_word
  rw [physToVirt, BitVec.toNat_add, hoff]
  omega

theorem physToVirt_injective (h : physToVirt pgd = physToVirt pte) : pgd = pte := by
  have hsub := congrArg (· - pageOffset) h
  simpa only [physToVirt, BitVec.add_sub_cancel] using hsub

/-- The entries of the directory and of the table. -/
theorem pageCreate_entries (hpgd : pgd.toNat % 4096 = 0) (hpte : pte.toNat % 4096 = 0) (hne : pgd ≠ pte) :
    (∀ d < 1024, load32 (pageCreate m pgd pte) (entry (physToVirt pgd) d) =
        if d = 0 ∨ d = 768 then pte ||| bootFlags else 0) ∧
      ∀ k < 1024, load32 (pageCreate m pgd pte) (entry (physToVirt pte) k) =
        BitVec.ofNat 32 (k * 4096) ||| bootFlags := by
  obtain ⟨hclear, -⟩ := forUp_clear (m := m) (p := physToVirt pgd) le_rfl
  obtain ⟨m₁, hm₁⟩ : ∃ m₁, forUp (fun i m => store32 m (entry (physToVirt pgd) i) 0) 1024 m = m₁ := ⟨_, rfl⟩
  rw [hm₁] at hclear
  obtain ⟨m₂, hm₂⟩ : ∃ m₂, store32 (store32 m₁ (entry (physToVirt pgd) 0) (pte ||| bootFlags))
      (entry (physToVirt pgd) 768) (pte ||| bootFlags) = m₂ := ⟨_, rfl⟩
  obtain ⟨-, hkeep⟩ := forUp_clear (m := m₂) (p := physToVirt pte) le_rfl
  obtain ⟨m₃, hm₃⟩ : ∃ m₃, forUp (fun i m => store32 m (entry (physToVirt pte) i) 0) 1024 m₂ = m₃ := ⟨_, rfl⟩
  rw [hm₃] at hkeep
  obtain ⟨hentries, hkeep'⟩ := forUp_identity (m := m₃) (p := physToVirt pte) le_rfl
  have hcreate : pageCreate m pgd pte = (forUp (fun i (s : Mem 32 × Word) =>
      (store32 s.1 (entry (physToVirt pte) i) (s.2 ||| bootFlags), s.2 + pageSize)) 1024 (m₃, 0)).1 := by
    rw [← hm₃, ← hm₂, ← hm₁]
    rfl
  rw [hcreate]
  refine ⟨fun d hd => ?_, hentries⟩
  -- filling the table leaves the directory
  have hdir : load32 (forUp (fun i (s : Mem 32 × Word) =>
      (store32 s.1 (entry (physToVirt pte) i) (s.2 ||| bootFlags), s.2 + pageSize)) 1024 (m₃, 0)).1
      (entry (physToVirt pgd) d) = load32 m₂ (entry (physToVirt pgd) d) := by
    refine load32_entry_congr hd fun b hb => ?_
    have hout : ¬ InPage (physToVirt pte) b :=
      not_inPage_of_ne (physToVirt_aligned hpgd) (physToVirt_aligned hpte) (fun h => hne (physToVirt_injective h)) hb
    rw [hkeep' b hout, hkeep b hout]
  rw [hdir, ← hm₂, load32_store32_entry hd (by decide), load32_store32_entry hd (by decide), hclear d hd]
  by_cases hhigh : d = 768
  · rw [if_pos hhigh, if_pos (.inr hhigh)]
  · rw [if_neg hhigh]
    exact if_congr (or_iff_left hhigh).symm rfl rfl

theorem isEntry_boot (hp : p.toNat % 4096 = 0) : IsEntry (p ||| bootFlags) p bootFlags :=
  ⟨rfl, low_eq_zero hp, by decide⟩

/-- A walk through the boot page table. -/
theorem walk_pageCreate (hpgd : pgd.toNat % 4096 = 0) (hpte : pte.toNat % 4096 = 0) (hne : pgd ≠ pte) (vaddr : Word) :
    walk (pageCreate m pgd pte) (physToVirt pgd) vaddr =
      if vaddr.toNat / 4194304 = 0 ∨ vaddr.toNat / 4194304 = 768 then
        some
          { phys := BitVec.ofNat 32 (vaddr.toNat % 4194304)
            writable := true
            user := true }
      else none := by
  have hlt := vaddr.isLt
  obtain ⟨hdir, htable⟩ := pageCreate_entries (m := m) hpgd hpte hne
  have hpde := hdir (vaddr >>> pgdirShift).toNat (by rw [toNat_pgdIndex]; omega)
  rw [toNat_pgdIndex] at hpde
  unfold walk
  simp only [toNat_pgdIndex, hpde]
  by_cases hmapped : vaddr.toNat / 4194304 = 0 ∨ vaddr.toNat / 4194304 = 768
  · have hentry := isEntry_boot hpte
    obtain ⟨k, hk⟩ : ∃ k, vaddr.toNat / 4096 % 1024 = k := ⟨_, rfl⟩
    have hpage : (BitVec.ofNat 32 (k * 4096)).toNat % 4096 = 0 := by
      rw [BitVec.toNat_ofNat]
      omega
    have hentry' := isEntry_boot hpage
    have hflags : hasFlag bootFlags pagePresent = true ∧ hasFlag bootFlags pagePse = false ∧
        hasFlag bootFlags pageRw = true ∧ hasFlag bootFlags pageUser = true := by decide
    obtain ⟨hpresent, hpse, hrw, huser⟩ := hflags
    have hphys : BitVec.ofNat 32 (k * 4096) ||| (vaddr &&& ~~~pageMask) = BitVec.ofNat 32 (vaddr.toNat % 4194304) := by
      apply BitVec.eq_of_toNat_eq
      rw [toNat_phys (by omega), BitVec.toNat_ofNat]
      omega
    rw [if_pos hmapped, if_pos hmapped, hentry.frame_eq, toNat_pteIndex, hk, htable k (by omega), hentry'.frame_eq,
      hphys, hentry.hasFlag_eq pagePresent (by decide), hentry.hasFlag_eq pagePse (by decide),
      hentry.hasFlag_eq pageRw (by decide), hentry.hasFlag_eq pageUser (by decide),
      hentry'.hasFlag_eq pagePresent (by decide), hentry'.hasFlag_eq pageRw (by decide),
      hentry'.hasFlag_eq pageUser (by decide), hpresent, hpse, hrw, huser]
    rfl
  · rw [if_neg hmapped, if_neg hmapped, hasFlag_zero, if_pos Bool.false_ne_true]

/-- **The boot mapping**: the processor finds a byte of the direct map under its own address exactly when it lies in
the first 4 MB. -/
theorem pageCreate_maps_iff (hpgd : pgd.toNat % 4096 = 0) (hpte : pte.toNat % 4096 = 0) (hne : pgd ≠ pte) (a : Word) :
    (∃ e, walk (pageCreate m pgd pte) (physToVirt pgd) a = some e ∧ e.phys = virtToPhys a) ↔
      (virtToPhys a).toNat < 0x400000 := by
  have hoff := toNat_pageOffset_word
  have hlt := a.isLt
  have hphys : (virtToPhys a).toNat = (a.toNat + 0x40000000) % 2 ^ 32 := by
    rw [virtToPhys, BitVec.toNat_sub, hoff]
    omega
  rw [walk_pageCreate hpgd hpte hne]
  constructor
  · rintro ⟨e, he, hsame⟩
    split at he
    · cases he
      rw [← hsame, BitVec.toNat_ofNat]
      omega
    · cases he
  · intro hlow
    rw [if_pos (by omega)]
    refine ⟨_, rfl, BitVec.eq_of_toNat_eq ?_⟩
    show (BitVec.ofNat 32 (a.toNat % 4194304)).toNat = _
    rw [BitVec.toNat_ofNat]
    omega

end

end XosKernel.Paging
