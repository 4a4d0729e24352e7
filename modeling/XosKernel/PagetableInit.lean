import XosKernel.PagetableModel
import XosKernel.WordAlign

/-! The kernel mapping that `pagetable_init` builds: after `t` rounds of its loop, the directory has `t`
tables of kernel pages and nothing else, and at the end a walk maps the low memory and nothing
else. -/

namespace XosKernel.Paging

open Memory Loop Word

/-! ### Entries -/

/-- The page frame of an entry and its flags. -/
structure IsEntry (e frame flags : Word) : Prop where
  eq : e = frame ||| flags
  frame_low : frame &&& (pageSize - 1) = 0
  flags_high : flags &&& pageMask = 0

section

variable {e frame flags : Word}

theorem low_eq_zero {q : Word} (hq : q.toNat % 4096 = 0) : q &&& (pageSize - 1) = 0 := by
  have hpow : pageSize.toNat.isPowerOfTwo := ⟨12, rfl⟩
  apply BitVec.eq_of_toNat_eq
  rw [toNat_and_sub_one hpow]
  exact hq

theorem and_mask_of_low {q : Word} (hq : q &&& (pageSize - 1) = 0) : q &&& pageMask = q := by
  have hones : (pageSize - 1) ||| pageMask = BitVec.allOnes 32 := by decide
  have hsplit : (q &&& (pageSize - 1)) ||| (q &&& pageMask) = q := by
    rw [← BitVec.and_or_distrib_left, hones, BitVec.and_allOnes]
  rw [hq] at hsplit
  simpa using hsplit

theorem IsEntry.frame_eq (h : IsEntry e frame flags) : e &&& pageMask = frame := by
  rw [h.eq, BitVec.and_or_distrib_right, h.flags_high, and_mask_of_low h.frame_low]
  simp

theorem IsEntry.hasFlag_eq (h : IsEntry e frame flags) (flag : Word) (hflag : flag &&& (pageSize - 1) = flag) :
    hasFlag e flag = hasFlag flags flag := by
  have hframe : frame &&& flag = 0 := by
    rw [← hflag, BitVec.and_comm flag, ← BitVec.and_assoc, h.frame_low]
    simp
  rw [hasFlag, hasFlag, h.eq, BitVec.and_or_distrib_right, hframe]
  simp

end

theorem toNat_pageOffset_word : pageOffset.toNat = 0xC0000000 := rfl

theorem virtToPhys_aligned {p : Word} (hp : p.toNat % 4096 = 0) : (virtToPhys p).toNat % 4096 = 0 := by
  have hoff := toNat_pageOffset_word
  rw [virtToPhys, BitVec.toNat_sub]
  omega

theorem physToVirt_virtToPhys (p : Word) : physToVirt (virtToPhys p) = p := by
  rw [physToVirt, virtToPhys, BitVec.sub_add_cancel]

/-- A directory entry for the page table `p`. -/
theorem isEntry_pde {p : Word} (hp : p.toNat % 4096 = 0) :
    IsEntry (kernpgTable + virtToPhys p) (virtToPhys p) kernpgTable := by
  have hlow := low_eq_zero (virtToPhys_aligned hp)
  refine ⟨?_, hlow, by decide⟩
  rw [BitVec.add_comm]
  apply BitVec.add_eq_or_of_and_eq_zero
  have hflags : kernpgTable = (pageSize - 1) &&& kernpgTable := by decide
  rw [hflags, ← BitVec.and_assoc, hlow]
  simp

/-- The table entry for page frame `n`. -/
def kernelPte (n : Nat) : Word := BitVec.ofNat 32 (n * 4096) ||| pageKernel

theorem isEntry_pte {n : Nat} : IsEntry (kernelPte n) (BitVec.ofNat 32 (n * 4096)) pageKernel := by
  refine ⟨by rw [kernelPte], low_eq_zero ?_, by decide⟩
  rw [BitVec.toNat_ofNat]
  omega

/-! ### Addresses -/

theorem toNat_vaddrOf {t k : Nat} (ht : t < 256) (hk : k < 1024) :
    (vaddrOf (768 + t) 0 k).toNat = 0xC0000000 + (t * 1024 + k) * 4096 := by
  have hdir : (BitVec.ofNat 32 (768 + t) * pgdirSize).toNat = (768 + t) * 4194304 := by
    have hsize : pgdirSize.toNat = 4194304 := by decide
    rw [BitVec.toNat_mul, BitVec.toNat_ofNat, hsize]
    omega
  have hpmd : BitVec.ofNat 32 0 * pmdSize = 0#32 := by decide
  have hpage : (BitVec.ofNat 32 k * pageSize).toNat = k * 4096 := by
    have hsize : pageSize.toNat = 4096 := rfl
    rw [BitVec.toNat_mul, BitVec.toNat_ofNat, hsize]
    omega
  rw [vaddrOf, hpmd, BitVec.add_zero, BitVec.toNat_add, hdir, hpage]
  omega

theorem pastEnd_vaddrOf {maxLowPfn : Word} {t k : Nat} (hmax : maxLowPfn.toNat ≤ 0x38000) (ht : t < 256)
    (hk : k < 1024) :
    pastEnd (physToVirt (maxLowPfn * pageSize)) (vaddrOf (768 + t) 0 k) =
      decide (maxLowPfn.toNat ≤ t * 1024 + k) := by
  have hoff := toNat_pageOffset_word
  have hend : (physToVirt (maxLowPfn * pageSize)).toNat = 0xC0000000 + maxLowPfn.toNat * 4096 := by
    have hpage : pageSize.toNat = 4096 := rfl
    rw [physToVirt, BitVec.toNat_add, BitVec.toNat_mul, hpage, hoff]
    omega
  have hne : physToVirt (maxLowPfn * pageSize) ≠ 0 := fun h => by
    have hzero : (0 : Word).toNat = 0 := rfl
    rw [h, hzero] at hend
    omega
  rw [pastEnd, bne_iff_ne.mpr hne, Bool.true_and, decide_eq_decide, BitVec.le_def, toNat_vaddrOf ht hk, hend]
  omega

theorem mkPtePhys_vaddrOf {t k : Nat} (ht : t < 256) (hk : k < 1024) :
    mkPtePhys (virtToPhys (vaddrOf (768 + t) 0 k)) pageKernel = kernelPte (t * 1024 + k) := by
  have hoff := toNat_pageOffset_word
  have hphys : virtToPhys (vaddrOf (768 + t) 0 k) = BitVec.ofNat 32 ((t * 1024 + k) * 4096) := by
    apply BitVec.eq_of_toNat_eq
    rw [virtToPhys, BitVec.toNat_sub, toNat_vaddrOf ht hk, hoff, BitVec.toNat_ofNat]
    omega
  have hframe : (BitVec.ofNat 32 ((t * 1024 + k) * 4096) : Word) >>> pageShift <<< pageShift =
      BitVec.ofNat 32 ((t * 1024 + k) * 4096) := by
    apply BitVec.eq_of_toNat_eq
    have hshift : 2 ^ pageShift = 4096 := rfl
    rw [BitVec.toNat_shiftLeft, BitVec.toNat_ushiftRight, BitVec.toNat_ofNat, Nat.shiftLeft_eq,
      Nat.shiftRight_eq_div_pow, hshift]
    omega
  rw [mkPtePhys, mkPte, kernelPte, hphys, hframe]

/-! ### The loops -/

section

variable {pgDir : Word} {count : Nat} {source : LowPages pgDir count} {maxLowPfn : Word} {s : State} {t : Nat}

/-- The entry of a table for page frame `n`: present below the end of the low memory only. -/
def tableEntry (maxLowPfn : Word) (n : Nat) : Word := if n < maxLowPfn.toNat then kernelPte n else 0

/-- `fillTable` fills a cleared page up to the end of the low memory, and writes nothing else. -/
theorem fillTable_spec (hmax : maxLowPfn.toNat ≤ 0x38000) (ht : t < 256) {p : Word}
    (hclear : ∀ b, InPage p b → s.mem b = 0) :
    ∃ s', fillTable (physToVirt (maxLowPfn * pageSize)) p (768 + t) 0 s = some s' ∧ s'.calls = s.calls ∧
      (∀ b, ¬ InPage p b → s'.mem b = s.mem b) ∧
      ∀ k < 1024, load32 s'.mem (entry p k) = tableEntry maxLowPfn (t * 1024 + k) := by
  -- the first `j` entries are written, the others are still clear
  let P (j : Nat) (u : State) : Prop := j ≤ 1024 ∧ u.calls = s.calls ∧
    (∀ b, ¬ InPage p b → u.mem b = s.mem b) ∧
    ∀ k < 1024, load32 u.mem (entry p k) = if k < j then kernelPte (t * 1024 + k) else 0
  have hstart : P 0 s :=
    ⟨Nat.zero_le _, rfl, fun _ _ => rfl, fun k hk => by rw [load32_eq_zero hk hclear, if_neg (Nat.not_lt_zero k)]⟩
  obtain ⟨j, s', hrun, ⟨-, hcalls, hframe, hentries⟩, -, -, hbefore, hat⟩ := by
    refine forUntil_spec P (fun k => pastEnd (physToVirt (maxLowPfn * pageSize)) (vaddrOf (768 + t) 0 k))
      (fun k s => some { s with
        mem := store32 s.mem (entry p k) (mkPtePhys (virtToPhys (vaddrOf (768 + t) 0 k)) pageKernel) })
      (n := ptrsPerPte) hstart fun i u _ hi _ hu => ⟨_, rfl, ?_⟩
    obtain ⟨-, hcalls, hframe, hentries⟩ := hu
    have hi' : i < 1024 := by simpa using hi
    refine ⟨hi', hcalls, fun b hb => ?_, fun k hk => ?_⟩
    · exact (store32_entry_apply hi' hb).trans (hframe b hb)
    · refine (load32_store32_entry hk hi' _).trans ?_
      rw [hentries k hk, mkPtePhys_vaddrOf ht hi']
      by_cases hki : k = i
      · rw [if_pos hki, if_pos (by omega), hki]
      · rw [if_neg hki]
        exact if_congr (by omega) rfl rfl
  refine ⟨s', hrun, hcalls, hframe, fun k hk => ?_⟩
  rw [hentries k hk, tableEntry]
  refine if_congr ?_ rfl rfl
  constructor
  · intro hkj
    have hstop := hbefore k (Nat.zero_le _) hkj
    rw [pastEnd_vaddrOf hmax ht hk] at hstop
    simpa using hstop
  · intro hlow
    by_contra hkj
    have hj : j < 1024 := by omega
    have hstop := hat (by simpa using hj)
    rw [pastEnd_vaddrOf hmax ht hj] at hstop
    have : maxLowPfn.toNat ≤ t * 1024 + j := by simpa using hstop
    omega

/-- The directory after `t` tables. -/
structure Mapped (source : LowPages pgDir count) (maxLowPfn : Word) (t : Nat) (s : State) : Prop where
  calls : s.calls = t
  dir : ∀ e < 1024, load32 s.mem (entry pgDir e) =
    if 768 ≤ e ∧ e < 768 + t then kernpgTable + virtToPhys (source.page (e - 768)) else 0
  tables : ∀ u < t, ∀ k < 1024,
    load32 s.mem (entry (source.page u) k) = tableEntry maxLowPfn (u * 1024 + k)

theorem not_inPage_of_ne {p q b : Word} (hp : p.toNat % 4096 = 0) (hq : q.toNat % 4096 = 0) (hne : p ≠ q)
    (hb : InPage p b) : ¬ InPage q b := fun hqb => hne (eq_of_inPage hp hq hb hqb)

/-- The entry that `set_pmd` stores leads back to the page table. -/
theorem pteOffset_pde {m : Mem 32} {pmd p : Word} (hp : p.toNat % 4096 = 0)
    (hpmd : load32 m pmd = kernpgTable + virtToPhys p) : pteOffset m pmd 0 = p := by
  have hindex : 4 * (((0 : Word) >>> pageShift) &&& (1024 - 1)) = 0#32 := by decide
  rw [pteOffset, pmdPage, hpmd, (isEntry_pde hp).frame_eq, physToVirt_virtToPhys, hindex, BitVec.add_zero]

theorem entry_zero (p : Word) : entry p 0 = p := by
  simp [entry]

/-- The directory and its tables are what a mapping depends on. -/
theorem Mapped.congr (hs : Mapped source maxLowPfn t s) {m : Mem 32} (hdir : ∀ b, InPage pgDir b → m b = s.mem b)
    (hpage : ∀ u < t, ∀ b, InPage (source.page u) b → m b = s.mem b) :
    Mapped source maxLowPfn t { mem := m, calls := t } := by
  refine ⟨rfl, fun e he => ?_, fun u hu k hk => ?_⟩
  · exact (load32_entry_congr he hdir).trans (hs.dir e he)
  · exact (load32_entry_congr hk (hpage u hu)).trans (hs.tables u hu k hk)

/-- A table that is filled behind the others and entered into the directory. -/
theorem Mapped.addTable (hs : Mapped source maxLowPfn t s) (hdir : pgDir.toNat % 4096 = 0) (ht : t < count)
    (ht' : t < 256) {m : Mem 32} (hkeepDir : ∀ b, InPage pgDir b → m b = s.mem b)
    (hkeepPage : ∀ u < t, ∀ b, InPage (source.page u) b → m b = s.mem b)
    (hentries : ∀ k < 1024, load32 m (entry (source.page t) k) = tableEntry maxLowPfn (t * 1024 + k)) :
    Mapped source maxLowPfn (t + 1)
      { mem := store32 m (entry pgDir (768 + t)) (kernpgTable + virtToPhys (source.page t)), calls := t + 1 } := by
  refine ⟨rfl, fun e he => ?_, fun u hu k hk => ?_⟩
  · refine (load32_store32_entry he (by omega) _).trans ?_
    by_cases het : e = 768 + t
    · rw [if_pos het, if_pos (by omega), het, Nat.add_sub_cancel_left]
    · rw [if_neg het, load32_entry_congr he hkeepDir, hs.dir e he]
      exact if_congr (by omega) rfl rfl
  · have hpage : (source.page u).toNat % 4096 = 0 := source.aligned u (by omega)
    have hoff (b : Word) (hb : InPage (source.page u) b) :
        store32 m (entry pgDir (768 + t)) (kernpgTable + virtToPhys (source.page t)) b = m b :=
      store32_entry_apply (by omega) (not_inPage_of_ne hpage hdir (source.apartDir u (by omega)) hb)
    refine (load32_entry_congr hk hoff).trans ?_
    rcases Nat.lt_succ_iff_lt_or_eq.mp hu with hlt | rfl
    · rw [load32_entry_congr hk (hkeepPage u hlt), hs.tables u hlt k hk]
    · exact hentries k hk

/-- One round of the loop adds a table, and reaches no `BUG()`. -/
theorem fillPmd_spec (hdir : pgDir.toNat % 4096 = 0) (hmax : maxLowPfn.toNat ≤ 0x38000) (ht : t < count)
    (ht' : t < 256) (hs : Mapped source maxLowPfn t s) :
    ∃ s', fillPmd source (physToVirt (maxLowPfn * pageSize)) (entry pgDir (768 + t)) (768 + t) 0 s = some s' ∧
      Mapped source maxLowPfn (t + 1) s' := by
  have hp := source.aligned t ht
  obtain ⟨s₂, hfill, hcalls, hframe, hentries⟩ :=
    fillTable_spec (s := { mem := source.take t s.mem, calls := t + 1 }) hmax ht' (source.cleared t ht s.mem)
  -- what was mapped before lies outside the new table
  have hmapped := hs.addTable hdir ht ht' (m := s₂.mem)
    (fun b hb => (hframe b (not_inPage_of_ne hdir hp (source.apartDir t ht).symm hb)).trans (source.keepsDir t ht s.mem b hb))
    (fun u hu b hb => (hframe b (not_inPage_of_ne (source.aligned u (by omega)) hp (source.apart t ht u hu).symm hb)).trans
      (source.keepsPage t ht u hu s.mem b hb)) hentries
  refine ⟨{ s₂ with
    mem := store32 s₂.mem (entry pgDir (768 + t)) (kernpgTable + virtToPhys (source.page t)) }, ?_, ?_⟩
  · have hback := pteOffset_pde hp (load32_store32 s₂.mem (entry pgDir (768 + t)) _)
    rw [fillPmd, hs.calls]
    simp only [hfill, Option.bind_eq_bind, Option.bind_some]
    rw [if_neg (not_not.mpr hback.symm)]
  · exact ⟨hcalls, hmapped.dir, hmapped.tables⟩

theorem fillPgd_spec (hdir : pgDir.toNat % 4096 = 0) (hmax : maxLowPfn.toNat ≤ 0x38000) (ht : t < count)
    (ht' : t < 256) (hlow : t * 1024 < maxLowPfn.toNat) (hs : Mapped source maxLowPfn t s) :
    ∃ s', fillPgd source (physToVirt (maxLowPfn * pageSize)) (entry pgDir (768 + t)) (768 + t) s = some s' ∧
      Mapped source maxLowPfn (t + 1) s' := by
  obtain ⟨s', hrun, hs'⟩ := fillPmd_spec hdir hmax ht ht' hs
  refine ⟨s', ?_, hs'⟩
  have hgo : pastEnd (physToVirt (maxLowPfn * pageSize)) (vaddrOf (768 + t) 0 0) = false := by
    rw [pastEnd_vaddrOf hmax ht' (by decide)]
    simpa using hlow
  rw [← entry_zero (entry pgDir (768 + t))] at hrun
  rw [fillPgd, pmdOffset_eq, if_neg fun h => h (Eq.refl _), forUntil, hgo, if_neg Bool.false_ne_true, hrun,
    Option.bind_some, forUntil]

/-- **`pagetable_init`** ends with a table for every 4 MB of the low memory, and reaches no `BUG()`. -/
theorem pagetableInit_spec (source : LowPages pgDir count) {m : Mem 32} (hdir : pgDir.toNat % 4096 = 0)
    (hmax : maxLowPfn.toNat ≤ 0x38000) (hcount : (maxLowPfn.toNat + 1023) / 1024 ≤ count) (hclear : ∀ b, InPage pgDir b → m b = 0) :
    ∃ t s, pagetableInit source maxLowPfn m = some s ∧ Mapped source maxLowPfn t s ∧
      maxLowPfn.toNat ≤ t * 1024 ∧ t * 1024 < maxLowPfn.toNat + 1024 := by
  let P (i : Nat) (u : State) : Prop := 768 ≤ i ∧ Mapped source maxLowPfn (i - 768) u
  have hfirst : (pgdOffset pageOffset).toNat = 768 := by decide
  have hlast : ptrsPerPgd - 768 = 256 := by decide
  have hstart : P 768 { mem := m, calls := 0 } := by
    refine ⟨le_rfl, rfl, fun e he => ?_, fun u hu => ?_⟩
    · rw [if_neg (by omega)]
      exact load32_eq_zero he hclear
    · omega
  have hstop (t : Nat) (ht : t < 256) :
      pastEnd (physToVirt (maxLowPfn * pageSize)) (vaddrOf (768 + t) 0 0) =
        decide (maxLowPfn.toNat ≤ t * 1024) := by
    rw [pastEnd_vaddrOf hmax ht (by decide), Nat.add_zero]
  obtain ⟨j, s, hrun, ⟨hj, hmapped⟩, -, hhi, hbefore, hat⟩ := by
    refine forUntil_spec P
      (fun i => pastEnd (physToVirt (maxLowPfn * pageSize)) (vaddrOf i 0 0))
      (fun i => fillPgd source (physToVirt (maxLowPfn * pageSize)) (entry pgDir i) i)
      (n := ptrsPerPgd - 768) hstart fun i u hlo hi hgo hu => ?_
    obtain ⟨t, rfl⟩ := Nat.exists_eq_add_of_le hlo
    have ht : t < 256 := by omega
    rw [hstop t ht, decide_eq_false_iff_not] at hgo
    have hmapped : Mapped source maxLowPfn t u := by simpa only [Nat.add_sub_cancel_left] using hu.2
    obtain ⟨u', hbody, hu'⟩ := fillPgd_spec hdir hmax (by omega) ht (by omega) hmapped
    exact ⟨u', hbody, by omega, by rwa [Nat.add_assoc, Nat.add_sub_cancel_left]⟩
  obtain ⟨t, rfl⟩ := Nat.exists_eq_add_of_le hj
  rw [Nat.add_sub_cancel_left] at hmapped
  refine ⟨t, s, ?_, hmapped, ?_, ?_⟩
  · rw [pagetableInit, hfirst]
    exact hrun
  · by_cases ht : t < 256
    · have hpast := hat (by omega)
      rw [hstop t ht] at hpast
      simpa using hpast
    · omega
  · rcases Nat.eq_zero_or_pos t with rfl | hpos
    · omega
    · have hgo := hbefore (768 + (t - 1)) (by omega) (by omega)
      rw [hstop (t - 1) (by omega), decide_eq_false_iff_not] at hgo
      omega

end

end XosKernel.Paging
