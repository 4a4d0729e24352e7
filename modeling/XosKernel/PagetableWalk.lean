import XosKernel.PagetableInit
import XosKernel.E820Model

/-! What the processor sees after `pagetable_init`: the low memory from `PAGE_OFFSET` on, writable and for the
kernel only, and no other address. -/

namespace XosKernel.Paging

open Memory Word E820

/-! ### The parts of an address -/

theorem toNat_pgdIndex (vaddr : Word) : (vaddr >>> pgdirShift).toNat = vaddr.toNat / 4194304 := by
  have hshift : 2 ^ pgdirShift = 4194304 := rfl
  rw [BitVec.toNat_ushiftRight, Nat.shiftRight_eq_div_pow, hshift]

theorem toNat_pteIndex (vaddr : Word) :
    ((vaddr >>> pageShift) &&& (1024 - 1)).toNat = vaddr.toNat / 4096 % 1024 := by
  have hpow : (1024 : Word).toNat.isPowerOfTwo := ⟨10, rfl⟩
  rw [toNat_and_sub_one hpow, BitVec.toNat_ushiftRight, Nat.shiftRight_eq_div_pow]
  rfl

theorem toNat_pageOffset_bits (vaddr : Word) : (vaddr &&& ~~~pageMask).toNat = vaddr.toNat % 4096 := by
  have hmask : ~~~pageMask = pageSize - 1 := by decide
  have hpow : pageSize.toNat.isPowerOfTwo := ⟨12, rfl⟩
  rw [hmask, toNat_and_sub_one hpow]
  rfl

/-- The physical address that an entry for page frame `n` gives. -/
theorem toNat_phys {n : Nat} (hn : n < 1048576) (vaddr : Word) :
    (BitVec.ofNat 32 (n * 4096) ||| (vaddr &&& ~~~pageMask)).toNat = n * 4096 + vaddr.toNat % 4096 := by
  have hframe : (BitVec.ofNat 32 (n * 4096)).toNat = n * 4096 := by
    rw [BitVec.toNat_ofNat]
    omega
  have hdisjoint : BitVec.ofNat 32 (n * 4096) &&& (vaddr &&& ~~~pageMask) = 0#32 := by
    have hmask : ~~~pageMask = pageSize - 1 := by decide
    have hlow := low_eq_zero (q := BitVec.ofNat 32 (n * 4096)) (by omega)
    rw [hmask, BitVec.and_comm vaddr, ← BitVec.and_assoc, hlow]
    simp
  rw [← BitVec.add_eq_or_of_and_eq_zero _ _ hdisjoint, BitVec.toNat_add, hframe, toNat_pageOffset_bits]
  omega

section

variable {pgDir : Word} {count : Nat} {source : LowPages pgDir count} {maxLowPfn : Word} {s : State} {t : Nat}

theorem hasFlag_zero (flag : Word) : hasFlag 0 flag = false := by
  simp [hasFlag]

/-- A walk through one of the page tables. -/
theorem walk_of_table (hs : Mapped source maxLowPfn t s) (htc : t ≤ count) (ht : t ≤ 256) {u k : Nat} (hu : u < t)
    (hk : k < 1024) {vaddr : Word} (hpgd : vaddr.toNat / 4194304 = 768 + u) (hpte : vaddr.toNat / 4096 % 1024 = k) :
    walk s.mem pgDir vaddr =
      if u * 1024 + k < maxLowPfn.toNat then
        some
          { phys := BitVec.ofNat 32 ((u * 1024 + k) * 4096) ||| (vaddr &&& ~~~pageMask)
            writable := true
            user := false }
      else none := by
  have hpde : load32 s.mem (entry pgDir (vaddr >>> pgdirShift).toNat) =
      kernpgTable + virtToPhys (source.page u) := by
    rw [toNat_pgdIndex, hpgd, hs.dir _ (by omega), if_pos (by omega), Nat.add_sub_cancel_left]
  have hentry := isEntry_pde (source.aligned u (by omega))
  have hpresent := hentry.hasFlag_eq pagePresent (by decide)
  have hpse := hentry.hasFlag_eq pagePse (by decide)
  have hrw := hentry.hasFlag_eq pageRw (by decide)
  have huser := hentry.hasFlag_eq pageUser (by decide)
  have htable : load32 s.mem (entry (physToVirt ((kernpgTable + virtToPhys (source.page u)) &&& pageMask))
      ((vaddr >>> pageShift) &&& (1024 - 1)).toNat) = tableEntry maxLowPfn (u * 1024 + k) := by
    rw [hentry.frame_eq, physToVirt_virtToPhys, toNat_pteIndex, hpte, hs.tables u hu k hk]
  have hflags : hasFlag kernpgTable pagePresent = true ∧ hasFlag kernpgTable pagePse = false := by decide
  unfold walk
  simp only [hpde]
  rw [hpresent, if_neg (by rw [hflags.1]; decide), hpse, if_neg (by rw [hflags.2]; decide), htable, tableEntry]
  by_cases hlow : u * 1024 + k < maxLowPfn.toNat
  · have hentry' := isEntry_pte (n := u * 1024 + k)
    have hpresent' := hentry'.hasFlag_eq pagePresent (by decide)
    rw [if_pos hlow, if_pos hlow, hpresent', if_neg (by decide), hentry'.frame_eq, hrw,
      hentry'.hasFlag_eq pageRw (by decide), huser]
    congr 2
  · rw [if_neg hlow, if_neg hlow, hasFlag_zero, if_pos (by decide)]

/-- The whole address space after `t` tables that cover the low memory. -/
theorem walk_mapped (hs : Mapped source maxLowPfn t s) (htc : t ≤ count) (ht : t ≤ 256)
    (hcover : maxLowPfn.toNat ≤ t * 1024) (vaddr : Word) :
    walk s.mem pgDir vaddr =
      if (vaddr - pageOffset).toNat < maxLowPfn.toNat * 4096 ∧ pageOffset ≤ vaddr then
        some { phys := vaddr - pageOffset, writable := true, user := false }
      else none := by
  have hoff := toNat_pageOffset_word
  have hlt := vaddr.isLt
  by_cases htable : 768 ≤ vaddr.toNat / 4194304 ∧ vaddr.toNat / 4194304 < 768 + t
  · obtain ⟨u, hu⟩ := Nat.exists_eq_add_of_le htable.1
    have hsub : (vaddr - pageOffset).toNat = vaddr.toNat - 0xC0000000 := by
      rw [BitVec.toNat_sub_of_le (by rw [BitVec.le_def, hoff]; omega), hoff]
    rw [walk_of_table hs htc ht (by omega) (Nat.mod_lt _ (by decide)) hu rfl]
    refine ite_congr ?_ (fun hlow => ?_) fun _ => rfl
    · rw [BitVec.le_def, hoff, hsub, eq_iff_iff]
      omega
    · congr 2
      apply BitVec.eq_of_toNat_eq
      rw [toNat_phys (by omega), hsub]
      omega
  · have hpde : load32 s.mem (entry pgDir (vaddr >>> pgdirShift).toNat) = 0 := by
      rw [toNat_pgdIndex, hs.dir _ (by omega), if_neg htable]
    rw [walk]
    simp only [hpde]
    rw [if_pos (by rw [hasFlag_zero]; decide), if_neg]
    rintro ⟨hlow, hle⟩
    rw [BitVec.le_def, hoff] at hle
    rw [BitVec.toNat_sub_of_le (by rw [BitVec.le_def, hoff]; omega), hoff] at hlow
    omega

end

/-- **The kernel mapping.** `pagetable_init` reaches no `BUG()`; after it a walk takes `PAGE_OFFSET + x` to `x` for
every `x` in the low memory, writable and for the kernel only, and takes no other address anywhere. -/
theorem pagetableInit_maps {pgDir maxLowPfn : Word} (source : LowPages pgDir ((maxLowPfn.toNat + 1023) / 1024))
    {m : Mem 32} (hmax : maxLowPfn ≤ maxmemPfn) (hdir : pgDir.toNat % 4096 = 0)
    (hclear : ∀ b, InPage pgDir b → m b = 0) :
    ∃ s, pagetableInit source maxLowPfn m = some s ∧
      (∀ x : Word, x.toNat < maxLowPfn.toNat * 4096 →
        walk s.mem pgDir (pageOffset + x) = some { phys := x, writable := true, user := false }) ∧
      ∀ vaddr, (∀ x : Word, x.toNat < maxLowPfn.toNat * 4096 → vaddr ≠ pageOffset + x) →
        walk s.mem pgDir vaddr = none := by
  have hoff := toNat_pageOffset_word
  have hmax' : maxLowPfn.toNat ≤ 0x38000 := by
    have hval : maxmemPfn.toNat = 0x38000 := by decide
    rwa [BitVec.le_def, hval] at hmax
  obtain ⟨t, s, hrun, hmapped, hcover, hlast⟩ := pagetableInit_spec source hdir hmax' le_rfl hclear
  have hwalk := walk_mapped hmapped (by omega) (by omega) hcover
  refine ⟨s, hrun, fun x hx => ?_, fun vaddr hout => ?_⟩
  · have hsub : pageOffset + x - pageOffset = x := by rw [BitVec.add_comm, BitVec.add_sub_cancel]
    have hle : pageOffset ≤ pageOffset + x := by
      rw [BitVec.le_def, BitVec.toNat_add, hoff]
      omega
    rw [hwalk, hsub, if_pos ⟨hx, hle⟩]
  · rw [hwalk, if_neg]
    rintro ⟨hlow, -⟩
    exact hout _ hlow (by rw [BitVec.add_comm, BitVec.sub_add_cancel])

theorem toNat_consecutive {n : Nat} (hn : n < 256) :
    (0xC0201000 + BitVec.ofNat 32 (n * 4096) : Word).toNat = 0xC0201000 + n * 4096 := by
  have hfirst : (0xC0201000 : Word).toNat = 0xC0201000 := rfl
  rw [BitVec.toNat_add, hfirst, BitVec.toNat_ofNat]
  omega

/-- The first pages after the directory at `0xC0200000`. -/
def consecutivePage (n : Nat) : Word := 0xC0201000 + BitVec.ofNat 32 (n * 4096)

theorem inPage_consecutive {n : Nat} (hn : n < 256) {b : Word} :
    InPage (consecutivePage n) b ↔ b.toNat / 4096 = 0xC0201 + n := by
  rw [InPage, BitVec.toNat_sub, consecutivePage, toNat_consecutive hn]
  omega

theorem inPage_directory {b : Word} : InPage 0xC0200000 b ↔ b.toNat / 4096 = 0xC0200 := by
  have hdir : (0xC0200000 : Word).toNat = 0xC0200000 := rfl
  rw [InPage, BitVec.toNat_sub, hdir]
  omega

theorem consecutivePage_aligned {n : Nat} (hn : n < 256) : (consecutivePage n).toNat % 4096 = 0 := by
  rw [consecutivePage, toNat_consecutive hn]
  omega

theorem consecutivePage_ne {n k : Nat} (hn : n < 256) (hk : k < n) : consecutivePage n ≠ consecutivePage k := by
  intro h
  have hnat := congrArg BitVec.toNat h
  rw [consecutivePage, consecutivePage, toNat_consecutive hn, toNat_consecutive (by omega)] at hnat
  omega

theorem consecutivePage_ne_directory {n : Nat} (hn : n < 256) : consecutivePage n ≠ 0xC0200000 := by
  intro h
  have hdir : (0xC0200000 : Word).toNat = 0xC0200000 := rfl
  have hnat := congrArg BitVec.toNat h
  rw [consecutivePage, toNat_consecutive hn, hdir] at hnat
  omega

theorem fill_consecutive {n : Nat} (hn : n < 256) (m : Mem 32) (b : Word) :
    fill m (consecutivePage n) 0 4096 b = if b.toNat / 4096 = 0xC0201 + n then 0 else m b := by
  rw [fill_apply]
  exact if_congr (inPage_consecutive hn) rfl rfl

theorem fill_consecutive_page {n : Nat} (hn : n < 256) (m : Mem 32) {b : Word}
    (hb : InPage (consecutivePage n) b) : fill m (consecutivePage n) 0 4096 b = 0 := by
  rw [fill_consecutive hn, if_pos ((inPage_consecutive hn).mp hb)]

theorem fill_consecutive_other {n k : Nat} (hn : n < 256) (hk : k < n) (m : Mem 32) {b : Word}
    (hb : InPage (consecutivePage k) b) : fill m (consecutivePage n) 0 4096 b = m b := by
  rw [inPage_consecutive (by omega)] at hb
  rw [fill_consecutive hn, if_neg (by omega)]

theorem fill_consecutive_directory {n : Nat} (hn : n < 256) (m : Mem 32) {b : Word} (hb : InPage 0xC0200000 b) :
    fill m (consecutivePage n) 0 4096 b = m b := by
  rw [inPage_directory] at hb
  rw [fill_consecutive hn, if_neg (by omega)]

/-- The pages after the directory, one after another. -/
def consecutivePages (count : Nat) (hcount : count ≤ 256) : LowPages 0xC0200000 count where
  page := consecutivePage
  take n m := fill m (consecutivePage n) 0 4096
  aligned _ hn := consecutivePage_aligned (hn.trans_le hcount)
  apart _ hn _ hk := consecutivePage_ne (hn.trans_le hcount) hk
  apartDir _ hn := consecutivePage_ne_directory (hn.trans_le hcount)
  cleared _ hn m _ hb := fill_consecutive_page (hn.trans_le hcount) m hb
  keepsDir _ hn m _ hb := fill_consecutive_directory (hn.trans_le hcount) m hb
  keepsPage _ hn _ hk m _ hb := fill_consecutive_other (hn.trans_le hcount) hk m hb

/-- Six megabytes less 36 pages: two tables, the second one filled in part. -/
theorem pagetableInit_maps_two : ∃ s, pagetableInit (consecutivePages 2 (by decide)) 1500 (fun _ => 0) = some s ∧
    (∀ x : Word, x.toNat < 1500 * 4096 →
      walk s.mem 0xC0200000 (pageOffset + x) = some { phys := x, writable := true, user := false }) ∧
    ∀ vaddr, (∀ x : Word, x.toNat < 1500 * 4096 → vaddr ≠ pageOffset + x) → walk s.mem 0xC0200000 vaddr = none :=
  @pagetableInit_maps 0xC0200000 1500 (consecutivePages 2 (by decide)) (fun _ => 0) (by decide) (by decide)
    fun _ _ => rfl

end XosKernel.Paging
