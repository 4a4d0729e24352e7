import XosKernel.E820Model
import XosKernel.BootmemRun
import Mathlib.Order.Bounds.Basic

/-! What `setup_memory` leaves in the page bitmap. A page is free exactly when it lies wholly inside one RAM
entry of the memory map and is neither page 0 nor a page of the kernel or of the bitmap. -/

namespace XosKernel.E820

open Bootmem

namespace E820Entry

/-- A page lies wholly inside the entry. -/
def Whole (e : E820Entry) (p : Nat) : Prop :=
  e.addr.toNat ≤ p * 4096 ∧ (p + 1) * 4096 ≤ e.addr.toNat + e.size.toNat

/-- The entry is below 4 GB as far as its fields go. -/
def Small (e : E820Entry) : Prop := e.addr.toNat < 2 ^ 32 ∧ e.size.toNat < 2 ^ 32

end E820Entry

/-- A page lies wholly inside one RAM entry. -/
def WholeRam (es : List E820Entry) (p : Nat) : Prop := ∃ e ∈ es, e.type = e820Ram ∧ e.Whole p

/-- The RAM entries are below 4 GB and pairwise disjoint. -/
structure RamTable (es : List E820Entry) : Prop where
  small : ∀ e ∈ es, e.type = e820Ram → e.Small
  disjoint : es.Pairwise fun e f => e.type = e820Ram → f.type = e820Ram → Disjoint e.bytes f.bytes

theorem wholeRam_cons {e : E820Entry} {es : List E820Entry} {p : Nat} :
    WholeRam (e :: es) p ↔ (e.type = e820Ram ∧ e.Whole p) ∨ WholeRam es p := by
  simp [WholeRam]

theorem RamTable.tail {e : E820Entry} {es : List E820Entry} (h : RamTable (e :: es)) : RamTable es :=
  ⟨fun f hf => h.small f (List.mem_cons_of_mem _ hf), h.disjoint.of_cons⟩

/-! ### Page numbers -/

theorem toNat_setWidth_shift {x : BitVec 64} (h : x.toNat < 2 ^ 44) :
    ((x >>> pageShift).setWidth 32).toNat = x.toNat / 4096 := by
  have hpage : 2 ^ pageShift = 4096 := rfl
  rw [BitVec.toNat_setWidth, BitVec.toNat_ushiftRight, Nat.shiftRight_eq_div_pow, hpage]
  exact Nat.mod_eq_of_lt (by omega)

theorem toNat_pfnUp64 {x : BitVec 64} (h : x.toNat < 2 ^ 40) : (pfnUp64 x).toNat = (x.toNat + 4095) / 4096 := by
  have hround : x + 4096 - 1 = x + 4095 := by
    rw [BitVec.sub_eq_add_neg, BitVec.add_assoc]
    rfl
  have hsum : (x + 4095).toNat = x.toNat + 4095 := by
    have hlit : (4095 : BitVec 64).toNat = 4095 := rfl
    rw [BitVec.toNat_add, hlit]
    exact Nat.mod_eq_of_lt (by omega)
  rw [pfnUp64, hround, toNat_setWidth_shift (by omega), hsum]

namespace E820Entry

variable {e : E820Entry}

theorem Small.toNat_start (h : e.Small) : (pfnUp64 e.addr).toNat = (e.addr.toNat + 4095) / 4096 :=
  toNat_pfnUp64 (by have := h.1; omega)

theorem Small.toNat_end (h : e.Small) :
    (pfnDown64 (e.addr + e.size)).toNat = (e.addr.toNat + e.size.toNat) / 4096 := by
  obtain ⟨haddr, hsize⟩ := h
  have hsum : (e.addr + e.size).toNat = e.addr.toNat + e.size.toNat := by
    rw [BitVec.toNat_add]
    exact Nat.mod_eq_of_lt (by omega)
  rw [pfnDown64, toNat_setWidth_shift (by omega), hsum]

/-- The page lies between the rounded ends of the entry. -/
def Frees (e : E820Entry) (p : Nat) : Prop :=
  (pfnUp64 e.addr).toNat ≤ p ∧ p < (pfnDown64 (e.addr + e.size)).toNat

instance (e : E820Entry) (p : Nat) : Decidable (e.Frees p) := inferInstanceAs (Decidable (_ ∧ _))

/-- The pages between the rounded ends are the whole pages. -/
theorem Small.whole_iff (h : e.Small) {p : Nat} :
    e.Whole p ↔ (pfnUp64 e.addr).toNat ≤ p ∧ p < (pfnDown64 (e.addr + e.size)).toNat := by
  rw [h.toNat_start, h.toNat_end, Whole]
  omega

/-- A whole page holds a byte of the entry. -/
theorem Whole.mem_bytes {p : Nat} (h : e.Whole p) : p * 4096 ∈ e.bytes := by
  obtain ⟨hlo, hhi⟩ := h
  exact ⟨hlo, by omega⟩

end E820Entry

/-- A page that `register_bootmem_low_pages` frees for some RAM entry. -/
def RamPage (es : List E820Entry) (p : Nat) : Prop := ∃ e ∈ es, e.type = e820Ram ∧ e.Frees p

instance (es : List E820Entry) (p : Nat) : Decidable (RamPage es p) :=
  inferInstanceAs (Decidable (∃ e ∈ es, e.type = e820Ram ∧ e.Frees p))

theorem ramPage_cons {e : E820Entry} {es : List E820Entry} {p : Nat} :
    RamPage (e :: es) p ↔ (e.type = e820Ram ∧ e.Frees p) ∨ RamPage es p := by
  simp [RamPage]

theorem ramPage_iff_wholeRam {es : List E820Entry} (hsmall : ∀ e ∈ es, e.type = e820Ram → e.Small) {p : Nat} :
    RamPage es p ↔ WholeRam es p := by
  refine exists_congr fun e => and_congr_right fun he => and_congr_right fun hram => ?_
  exact (hsmall e he hram).whole_iff.symm

/-! ### The limits -/

/-- The pass of `find_max_pfn` over one entry. -/
theorem findMaxPfn_pass (e : E820Entry) (m : Word) :
    ∃ r : Word, (if e.type ≠ e820Ram then m
      else if pfnUp64 e.addr ≥ pfnDown64 (e.addr + e.size) then m
      else if pfnDown64 (e.addr + e.size) > m then pfnDown64 (e.addr + e.size) else m) = r ∧
      m.toNat ≤ r.toNat ∧ (∀ p, e.type = e820Ram ∧ e.Frees p → p < r.toNat) ∧
      (r = m ∨ ∃ p, (e.type = e820Ram ∧ e.Frees p) ∧ r.toNat = p + 1) := by
  refine ⟨_, rfl, ?_⟩
  split
  · rename_i hram
    exact ⟨le_rfl, fun p hp => absurd hp.1 hram, .inl rfl⟩
  rename_i hram
  rw [not_not] at hram
  split
  · rename_i hempty
    have := BitVec.le_def.mp hempty
    refine ⟨le_rfl, fun p hp => ?_, .inl rfl⟩
    obtain ⟨-, hlo, hhi⟩ := hp
    omega
  rename_i hne
  have hlt := BitVec.lt_def.mp (BitVec.not_le.mp hne)
  split
  · rename_i hgt
    have hgt := BitVec.lt_def.mp hgt
    refine ⟨by omega, fun p hp => hp.2.2, .inr ⟨(pfnDown64 (e.addr + e.size)).toNat - 1, ⟨hram, ?_⟩, by omega⟩⟩
    exact ⟨by omega, by omega⟩
  · rename_i hle
    have := BitVec.le_def.mp (BitVec.not_lt.mp hle)
    refine ⟨le_rfl, fun p hp => ?_, .inl rfl⟩
    obtain ⟨-, hlo, hhi⟩ := hp
    omega

theorem findMaxPfn_foldl (es : List E820Entry) (m : Word) :
    ∃ r : Word, es.foldl (fun maxPfn e =>
        if e.type ≠ e820Ram then maxPfn
        else if pfnUp64 e.addr ≥ pfnDown64 (e.addr + e.size) then maxPfn
        else if pfnDown64 (e.addr + e.size) > maxPfn then pfnDown64 (e.addr + e.size) else maxPfn) m = r ∧
      m.toNat ≤ r.toNat ∧ (∀ p, RamPage es p → p < r.toNat) ∧
      (r = m ∨ ∃ p, RamPage es p ∧ r.toNat = p + 1) := by
  induction es generalizing m with
  | nil =>
      refine ⟨m, rfl, le_rfl, ?_, .inl rfl⟩
      rintro p ⟨_, hmem, -⟩
      cases hmem
  | cons e es ih =>
      obtain ⟨k, hk, hmk, hek, hkcase⟩ := findMaxPfn_pass e m
      obtain ⟨r, hr, hkr, hesr, hrcase⟩ := ih k
      refine ⟨r, ?_, by omega, fun p hp => ?_, ?_⟩
      · rw [List.foldl_cons, hk, hr]
      · rcases ramPage_cons.mp hp with he | hes
        · exact lt_of_lt_of_le (hek p he) hkr
        · exact hesr p hes
      · rcases hrcase with rfl | ⟨p, hp, hrp⟩
        · rcases hkcase with rfl | ⟨p, hp, hrp⟩
          · exact .inl rfl
          · exact .inr ⟨p, ramPage_cons.mpr (.inl hp), hrp⟩
        · exact .inr ⟨p, ramPage_cons.mpr (.inr hp), hrp⟩

/-- `max_pfn` is the least bound on the pages that `register_bootmem_low_pages` frees. -/
theorem findMaxPfn_isLeast_ramPage (es : List E820Entry) :
    IsLeast {b | ∀ p, RamPage es p → p < b} (findMaxPfn es).toNat := by
  obtain ⟨r, hr, -, hbound, hcase⟩ := findMaxPfn_foldl es 0
  have hmax : findMaxPfn es = r := hr
  rw [hmax]
  refine ⟨hbound, fun b hb => ?_⟩
  rcases hcase with rfl | ⟨p, hp, hrp⟩
  · exact Nat.zero_le b
  · have := hb p hp
    omega

/-- `max_pfn` is the least bound on the whole RAM pages. -/
theorem findMaxPfn_isLeast {es : List E820Entry} (hsmall : ∀ e ∈ es, e.type = e820Ram → e.Small) :
    IsLeast {b | ∀ p, WholeRam es p → p < b} (findMaxPfn es).toNat := by
  simpa only [ramPage_iff_wholeRam hsmall] using findMaxPfn_isLeast_ramPage es

theorem toNat_findMaxLowPfn (maxPfn : Word) :
    (findMaxLowPfn maxPfn).toNat = min maxPfn.toNat 0x38000 := by
  have hmax : maxmemPfn.toNat = 0x38000 := by decide
  rw [findMaxLowPfn]
  split
  · rename_i hgt
    have := BitVec.lt_def.mp hgt
    omega
  · rename_i hle
    have := BitVec.le_def.mp (BitVec.not_lt.mp hle)
    omega

/-! ### Registering the RAM pages -/

theorem toNat_pfnPhys {p : Word} (hp : p.toNat < 2 ^ 20) : (pfnPhys p).toNat = p.toNat * 4096 := by
  have hpage : 2 ^ pageShift = 4096 := rfl
  rw [pfnPhys, BitVec.toNat_shiftLeft, Nat.shiftLeft_eq, hpage]
  exact Nat.mod_eq_of_lt (by omega)

theorem toNat_roundUp {a : Word} (h : a.toNat + 4095 < 2 ^ 32) :
    ((a + pageSize - 1) / pageSize).toNat = (a.toNat + 4095) / 4096 := toNat_pageCount h

section

variable {s t : Boot} {maxLow first last : Word}

/-- The indices of a range of whole pages of a node that starts at address 0. -/
theorem freeRange_pages {b : BootmemData} (hstart : b.nodeBootStart = 0) (hmax : last.toNat < 2 ^ 20)
    (hlt : first.toNat < last.toNat) : freeSidx b (pfnPhys first) = first ∧
      freeEidx b (pfnPhys first) (pfnPhys (last - first)) = last ∧ pfnPhys (last - first) ≠ 0 ∧
      (pfnPhys first + pfnPhys (last - first)) / pageSize = last := by
  have hcount : (last - first).toNat = last.toNat - first.toNat :=
    BitVec.toNat_sub_of_le (BitVec.le_def.mpr (Nat.le_of_lt hlt))
  have haddr := toNat_pfnPhys (p := first) (by omega)
  have hsize := toNat_pfnPhys (p := last - first) (by omega)
  rw [hcount] at hsize
  obtain ⟨addr, haddrdef⟩ : ∃ addr, pfnPhys first = addr := ⟨_, rfl⟩
  obtain ⟨size, hsizedef⟩ : ∃ size, pfnPhys (last - first) = size := ⟨_, rfl⟩
  rw [haddrdef] at haddr ⊢
  rw [hsizedef] at hsize ⊢
  have hzero : (0 : Word).toNat = 0 := rfl
  have hsum : (addr + size).toNat = last.toNat * 4096 := by
    rw [BitVec.toNat_add, haddr, hsize, Nat.mod_eq_of_lt (by omega)]
    omega
  have hend : (addr + size) / pageSize = last := by
    apply BitVec.eq_of_toNat_eq
    rw [toNat_div_pageSize, hsum, Nat.mul_div_cancel _ (by decide)]
  refine ⟨?_, ?_, fun h => ?_, hend⟩
  · apply BitVec.eq_of_toNat_eq
    have hnode : (0 : Word) / pageSize = 0 := by decide
    rw [freeSidx, hstart, hnode, show ∀ a : Word, a - 0 = a from fun a => BitVec.sub_zero a,
      toNat_roundUp (by omega), haddr]
    omega
  · rw [freeEidx, hstart, show ∀ a : Word, a - 0 = a from fun a => BitVec.sub_zero a, hend]
  · rw [h, hzero] at hsize
    omega

/-- Freeing a range of whole reserved pages of a node that starts at address 0. -/
theorem freeBootmemCore_pages (hstart : s.bdata.nodeBootStart = 0) (hlow : s.bdata.nodeLowPfn.toNat < 2 ^ 20)
    (hlt : first.toNat < last.toNat) (hle : last.toNat ≤ s.bdata.nodeLowPfn.toNat)
    (hset : ∀ p, first.toNat ≤ p → p < last.toNat → s.reserved p = true) :
    ∃ t, freeBootmemCore s (pfnPhys first) (pfnPhys (last - first)) = .ret () t := by
  obtain ⟨hsidx, heidx, hne, hend⟩ := freeRange_pages hstart (by omega) hlt
  obtain ⟨t, ht⟩ := clearBits_ret s first (passes first last) (passes_fit _ _) fun nr h1 h2 => by
    rw [← reserved_toNat]
    exact hset _ h1 (passes_range.mp ⟨h1, h2⟩).2
  refine ⟨t, ?_⟩
  rw [freeBootmemCore, if_neg hne, if_neg (by rw [gt_iff_lt, BitVec.lt_def, hend]; omega)]
  show clearBits s (freeSidx s.bdata _) (passes (freeSidx s.bdata _) (freeEidx s.bdata _ _)) = _
  rw [hsidx, heidx]
  exact ht

theorem freeBootmemCore_pages_written (hstart : s.bdata.nodeBootStart = 0) (hmax : last.toNat < 2 ^ 20)
    (hlt : first.toNat < last.toNat)
    (h : freeBootmemCore s (pfnPhys first) (pfnPhys (last - first)) = .ret () t) :
    BitsWritten s t first.toNat last.toNat false := by
  obtain ⟨hsidx, heidx, -, -⟩ := freeRange_pages hstart hmax hlt
  have hwritten := freeBootmemCore_written h
  rw [hsidx, heidx] at hwritten
  rwa [show first.toNat + passes first last = last.toNat by rw [passes]; omega] at hwritten

/-- One pass of `register_bootmem_low_pages`: it skips an entry that frees no page below the limit, or frees the
pages of the entry below the limit. -/
theorem registerPass_cases (e : E820Entry) (s : Boot) (maxLow : Word) :
    ((∀ es, registerBootmemLowPages s maxLow (e :: es) = registerBootmemLowPages s maxLow es) ∧
      ∀ p, p < maxLow.toNat → ¬ (e.type = e820Ram ∧ e.Frees p)) ∨
    ∃ first last, e.type = e820Ram ∧ first.toNat < last.toNat ∧ last.toNat ≤ maxLow.toNat ∧
      (∀ p, p < maxLow.toNat → (first.toNat ≤ p ∧ p < last.toNat ↔ e.Frees p)) ∧
      ∀ es, registerBootmemLowPages s maxLow (e :: es) =
        match freeBootmemCore s (pfnPhys first) (pfnPhys (last - first)) with
        | .ret () s => registerBootmemLowPages s maxLow es
        | .bug s => .bug s
        | .hang => .hang := by
  simp only [registerBootmemLowPages]
  split
  · rename_i hram
    exact .inl ⟨fun _ => rfl, fun p _ he => hram he.1⟩
  rename_i hram
  rw [not_not] at hram
  obtain ⟨first, hfirst⟩ : ∃ first, pfnUp64 e.addr = first := ⟨_, rfl⟩
  obtain ⟨last, hlast⟩ : ∃ last, pfnDown64 (e.addr + e.size) = last := ⟨_, rfl⟩
  simp only [hfirst, hlast, E820Entry.Frees]
  obtain ⟨clip, hclip, hclipNat⟩ : ∃ clip, (if last > maxLow then maxLow else last) = clip ∧
      clip.toNat = min last.toNat maxLow.toNat := by
    refine ⟨_, rfl, ?_⟩
    split
    · rename_i hgt
      have := BitVec.lt_def.mp hgt
      omega
    · rename_i hle
      have := BitVec.le_def.mp (BitVec.not_lt.mp hle)
      omega
  rw [hclip]
  split
  · rename_i hge
    have := BitVec.le_def.mp hge
    exact .inl ⟨fun _ => rfl, fun p hp he => by omega⟩
  split
  · rename_i hle
    have := BitVec.le_def.mp hle
    exact .inl ⟨fun _ => rfl, fun p hp he => by omega⟩
  rename_i hgt
  have hlt := BitVec.lt_def.mp (BitVec.not_le.mp hgt)
  refine .inr ⟨first, clip, hram, hlt, by omega, fun p hp => ?_, fun es => ?_⟩
  · omega
  · cases freeBootmemCore s (pfnPhys first) (pfnPhys (clip - first)) with
    | ret _ u => rfl
    | bug u => rfl
    | hang => rfl

/-- A pass that reaches no `BUG` frees the pages of the entry. -/
theorem registerPass_ret {e : E820Entry} {es : List E820Entry} (hstart : s.bdata.nodeBootStart = 0)
    (hmax : maxLow.toNat < 2 ^ 20) (h : registerBootmemLowPages s maxLow (e :: es) = .ret () t) :
    ∃ u, registerBootmemLowPages u maxLow es = .ret () t ∧ u.bdata = s.bdata ∧
      ∀ p, p < maxLow.toNat → (u.reserved p = false ↔ s.reserved p = false ∨ (e.type = e820Ram ∧ e.Frees p)) := by
  rcases registerPass_cases e s maxLow with ⟨hskip, hnone⟩ | ⟨first, last, hram, hlt, hle, hrange, hpass⟩
  · exact ⟨s, by rw [← h, hskip], rfl, fun p hp => (or_iff_left (hnone p hp)).symm⟩
  · rw [hpass] at h
    split at h
    · rename_i u hu
      have hwritten := freeBootmemCore_pages_written hstart (by omega) hlt hu
      refine ⟨u, h, hwritten.bdata, fun p hp => ?_⟩
      rw [hwritten.reserved (by omega)]
      by_cases hin : first.toNat ≤ p ∧ p < last.toNat
      · rw [if_pos hin]
        exact iff_of_true rfl (.inr ⟨hram, (hrange p hp).mp hin⟩)
      · rw [if_neg hin]
        exact (or_iff_left fun he => hin ((hrange p hp).mpr he.2)).symm
    · cases h
    · cases h

/-- The pages that `register_bootmem_low_pages` frees when it reaches no `BUG`. -/
theorem registerBootmemLowPages_ret {es : List E820Entry} (hstart : s.bdata.nodeBootStart = 0)
    (hmax : maxLow.toNat < 2 ^ 20) (h : registerBootmemLowPages s maxLow es = .ret () t) :
    t.bdata = s.bdata ∧
      ∀ p, p < maxLow.toNat → (t.reserved p = false ↔ s.reserved p = false ∨ RamPage es p) := by
  induction es generalizing s with
  | nil =>
      cases h
      refine ⟨rfl, fun p _ => (or_iff_left ?_).symm⟩
      rintro ⟨_, hmem, -⟩
      cases hmem
  | cons e es ih =>
      obtain ⟨u, hu, hub, hubits⟩ := registerPass_ret hstart hmax h
      obtain ⟨htb, htbits⟩ := ih (by rw [hub]; exact hstart) hu
      refine ⟨htb.trans hub, fun p hp => ?_⟩
      rw [htbits p hp, hubits p hp, ramPage_cons, or_assoc]

/-- Registering reaches no `BUG` when the pages of the RAM entries are reserved before and the RAM entries are
disjoint. -/
theorem registerBootmemLowPages_spec {es : List E820Entry} (hstart : s.bdata.nodeBootStart = 0)
    (hlow : s.bdata.nodeLowPfn = maxLow) (hmax : maxLow.toNat < 2 ^ 20) (htable : RamTable es)
    (hset : ∀ p, p < maxLow.toNat → WholeRam es p → s.reserved p = true) :
    ∃ t, registerBootmemLowPages s maxLow es = .ret () t := by
  induction es generalizing s with
  | nil => exact ⟨s, rfl⟩
  | cons e es ih =>
      have hwhole := fun p hram => (htable.small e List.mem_cons_self hram).whole_iff (p := p)
      rcases registerPass_cases e s maxLow with ⟨hskip, -⟩ | ⟨first, last, hram, hlt, hle, hrange, hpass⟩
      · rw [hskip]
        exact ih hstart hlow htable.tail fun p hp he => hset p hp (wholeRam_cons.mpr (.inr he))
      · obtain ⟨u, hu⟩ := freeBootmemCore_pages hstart (by rw [hlow]; exact hmax) hlt (by rw [hlow]; exact hle)
          fun p h1 h2 => by
            have hfrees := (hrange p (by omega)).mp ⟨h1, h2⟩
            exact hset p (by omega) (wholeRam_cons.mpr (.inl ⟨hram, (hwhole p hram).mpr hfrees⟩))
        have hwritten := freeBootmemCore_pages_written hstart (by omega) hlt hu
        rw [hpass, hu]
        refine ih (by rw [hwritten.bdata]; exact hstart) (by rw [hwritten.bdata]; exact hlow) htable.tail ?_
        -- the pages of the other entries are still reserved
        rintro p hp ⟨f, hf, hfram, hfwhole⟩
        rw [hwritten.reserved (by omega), if_neg fun hin => ?_]
        · exact hset p hp (wholeRam_cons.mpr (.inr ⟨f, hf, hfram, hfwhole⟩))
        · have hewhole := (hwhole p hram).mpr ((hrange p hp).mp hin)
          have hdisjoint := List.rel_of_pairwise_cons htable.disjoint hf hram hfram
          exact Set.disjoint_left.mp hdisjoint hewhole.mem_bytes hfwhole.mem_bytes

/-- A reservation on a node that starts at address 0. -/
theorem reserveBootmemCore_pages {addr size : Word} (hstart : s.bdata.nodeBootStart = 0)
    (h : reserveBootmemCore s addr size = .ret () t) :
    addr.toNat / 4096 < ((addr + size).toNat + 4095) % 2 ^ 32 / 4096 ∧
      ((addr + size).toNat + 4095) % 2 ^ 32 / 4096 ≤ s.bdata.nodeLowPfn.toNat ∧
      BitsWritten s t (addr.toNat / 4096) (((addr + size).toNat + 4095) % 2 ^ 32 / 4096) true := by
  have hround : addr + size + pageSize - 1 = addr + size + 4095 := by
    rw [BitVec.sub_eq_add_neg, BitVec.add_assoc _ pageSize]
    rfl
  have hend : ((addr + size + pageSize - 1) / pageSize).toNat = ((addr + size).toNat + 4095) % 2 ^ 32 / 4096 := by
    rw [toNat_div_pageSize, hround, BitVec.toNat_add]
    rfl
  have hsub : ∀ a : Word, a - 0 = a := fun a => BitVec.sub_zero a
  have hsidx : (reserveSidx s.bdata addr).toNat = addr.toNat / 4096 := by
    rw [reserveSidx, hstart, hsub, toNat_div_pageSize]
  have heidx : (reserveEidx s.bdata addr size).toNat = ((addr + size).toNat + 4095) % 2 ^ 32 / 4096 := by
    rw [reserveEidx, hstart, hsub, hend]
  have hwritten := reserveBootmemCore_written h
  rw [reserveBootmemCore] at h
  split at h
  · cases h
  split at h
  · cases h
  rename_i hlt
  have hlt : (reserveSidx s.bdata addr).toNat < (reserveEidx s.bdata addr size).toNat :=
    BitVec.lt_def.mp (BitVec.not_le.mp hlt)
  split at h
  · cases h
  split at h
  · cases h
  rename_i hle
  have hle := BitVec.le_def.mp (BitVec.not_lt.mp hle)
  rw [hend] at hle
  rw [passes, Nat.add_sub_cancel' (Nat.le_of_lt hlt), hsidx, heidx] at hwritten
  rw [hsidx, heidx] at hlt
  exact ⟨hlt, hle, hwritten⟩

end

/-! ### The whole of `setup_memory` -/

section

variable {s t : Boot} {e820 : List E820Entry} {kernelEnd : Word}

/-- The node after `init_bootmem`, and the size of its bitmap. -/
def initNode (s : Boot) (e820 : List E820Entry) (kernelEnd : Word) : Word × Boot :=
  initBootmemCore s (pfnUp (virtToPhys kernelEnd)) 0 (findMaxLowPfn (findMaxPfn e820))

theorem initNode_start : (initNode s e820 kernelEnd).2.bdata.nodeBootStart = 0 := by
  show (0 : Word) <<< pageShift = 0
  decide

/-- What `setup_memory` leaves. The page range of the kernel and the bitmap starts at page 256, the page of
`HIGH_MEMORY`. -/
structure SetupOk (e820 : List E820Entry) (kernelEnd bootmapSize : Word) (limits : PfnLimits) (t : Boot) :
    Prop where
  maxPfn : IsLeast {b | ∀ p, WholeRam e820 p → p < b} limits.maxPfn.toNat
  maxLowPfn : limits.maxLowPfn.toNat = min limits.maxPfn.toNat 0x38000
  pages : t.bdata.pages = limits.maxLowPfn.toNat
  free_iff : ∀ p, p < limits.maxLowPfn.toNat → (t.FreePage p ↔ WholeRam e820 p ∧ p ≠ 0 ∧
    ¬ (256 ≤ p ∧ p * 4096 < (reserveEnd (pfnUp (virtToPhys kernelEnd)) bootmapSize).toNat))
  kernel : ∀ p, 256 ≤ p → p * 4096 < (virtToPhys kernelEnd).toNat → ¬ t.FreePage p
  /-- The linker script puts the kernel at `HIGH_MEMORY`. -/
  bitmap : highMemory ≤ virtToPhys kernelEnd → ∀ p, t.HoldsMap bootmapSize p → ¬ t.FreePage p

theorem initNode_reserved {p : Nat} (hp : p < (findMaxLowPfn (findMaxPfn e820)).toNat) :
    (initNode s e820 kernelEnd).2.reserved p = true := by
  have hmax := toNat_findMaxLowPfn (findMaxPfn e820)
  have hzero : (0 : Word).toNat = 0 := rfl
  exact initBootmemCore_reserved (by rw [hzero]; omega) (by rw [hzero]; omega) (by omega) (by rw [hzero]; omega)

/-- Registering the RAM pages of a new node reaches no `BUG`. -/
theorem register_initNode (htable : RamTable e820) :
    ∃ u, registerBootmemLowPages (initNode s e820 kernelEnd).2 (findMaxLowPfn (findMaxPfn e820)) e820 =
        .ret () u := by
  have hmax := toNat_findMaxLowPfn (findMaxPfn e820)
  exact @registerBootmemLowPages_spec (initNode s e820 kernelEnd).2 (findMaxLowPfn (findMaxPfn e820)) e820 rfl rfl
    (by omega) htable fun p hp _ => initNode_reserved hp

theorem add_pageMask (a : Word) : a + pageSize - 1 = a + 4095 := by
  rw [BitVec.sub_eq_add_neg, BitVec.add_assoc]
  rfl

theorem toNat_add_pageMask (a : Word) : (a + pageSize - 1).toNat = (a.toNat + 4095) % 2 ^ 32 := by
  rw [add_pageMask, BitVec.toNat_add]
  rfl

theorem toNat_pfnUp (a : Word) : (pfnUp a).toNat = (a.toNat + 4095) % 2 ^ 32 / 4096 := by
  rw [pfnUp, toNat_shift, toNat_add_pageMask]

/-- When the reservation of the kernel passes the checks, none of the sums before it has wrapped. -/
theorem reserveEnd_toNat {pa bootmapSize : Word} (hsize : bootmapSize.toNat ≤ 0x8000)
    (h : 256 < ((reserveEnd (pfnUp pa) bootmapSize).toNat + 4095) % 2 ^ 32 / 4096) :
    (pfnUp pa).toNat = (pa.toNat + 4095) / 4096 ∧
      (reserveEnd (pfnUp pa) bootmapSize).toNat = (pfnUp pa).toNat * 4096 + bootmapSize.toNat + 4095 ∧
      (reserveEnd (pfnUp pa) bootmapSize).toNat + 4095 < 2 ^ 32 := by
  have hpfn := toNat_pfnUp pa
  have hpa := pa.isLt
  have hphys := toNat_pfnPhys (p := pfnUp pa) (by omega)
  have hend : (reserveEnd (pfnUp pa) bootmapSize).toNat =
      ((pfnUp pa).toNat * 4096 + bootmapSize.toNat + 4095) % 2 ^ 32 := by
    rw [reserveEnd, toNat_add_pageMask, BitVec.toNat_add, hphys, Nat.mod_add_mod]
  rw [hend] at h ⊢
  omega

/-- The pages of a bitmap that starts at byte `m` of the node. -/
theorem holdsMap_range {m p : Nat} {mapsize : Word} (hmap : t.bdata.nodeBootmemMap = t.bdata.va m)
    (hp : p < 2 ^ 20) (hm : m < 2 ^ 32) (hfit : m + mapsize.toNat ≤ 2 ^ 32) (h : t.HoldsMap mapsize p) :
    m ≤ p * 4096 + 4095 ∧ p * 4096 < m + mapsize.toNat := by
  obtain ⟨y, hy, hlt⟩ := h
  rw [hmap] at hlt
  rcases Nat.lt_or_ge y m with hbelow | habove
  · rw [BootmemData.va_toNat_sub_of_lt hbelow hm] at hlt
    omega
  · rw [BootmemData.va_toNat_sub habove (by omega)] at hlt
    omega

/-- What `setup_memory` leaves when it reaches no `BUG`, for any memory map. -/
structure SetupLeaves (s : Boot) (e820 : List E820Entry) (kernelEnd : Word) (limits : PfnLimits) (t : Boot) :
    Prop where
  limits_eq : limits = ⟨findMaxPfn e820, findMaxLowPfn (findMaxPfn e820), pfnUp (virtToPhys kernelEnd)⟩
  bdata : t.bdata = (initNode s e820 kernelEnd).2.bdata
  pages : t.bdata.pages = (findMaxLowPfn (findMaxPfn e820)).toNat
  startPfn : (pfnUp (virtToPhys kernelEnd)).toNat = ((virtToPhys kernelEnd).toNat + 4095) / 4096
  reserveEnd : (reserveEnd (pfnUp (virtToPhys kernelEnd)) (initNode s e820 kernelEnd).1).toNat =
    (pfnUp (virtToPhys kernelEnd)).toNat * 4096 + (initNode s e820 kernelEnd).1.toNat + 4095
  fits : ((E820.reserveEnd (pfnUp (virtToPhys kernelEnd)) (initNode s e820 kernelEnd).1).toNat + 4095) / 4096 ≤
    (findMaxLowPfn (findMaxPfn e820)).toNat
  free_iff : ∀ p, p < (findMaxLowPfn (findMaxPfn e820)).toNat → (t.FreePage p ↔ RamPage e820 p ∧ p ≠ 0 ∧
    ¬ (256 ≤ p ∧ p * 4096 < (E820.reserveEnd (pfnUp (virtToPhys kernelEnd)) (initNode s e820 kernelEnd).1).toNat))

theorem setupMemory_leaves {limits : PfnLimits} (h : setupMemory s e820 kernelEnd = .ret limits t) :
    SetupLeaves s e820 kernelEnd limits t := by
  have hmax := toNat_findMaxLowPfn (findMaxPfn e820)
  have hzero : (0 : Word).toNat = 0 := rfl
  have hsize : (initNode s e820 kernelEnd).1.toNat ≤ 0x8000 := by
    rw [initNode, initBootmemCore_mapsize (by rw [hzero]; omega) (by omega), hzero]
    omega
  have hinit : initBootmemCore s (pfnUp (virtToPhys kernelEnd)) 0 (findMaxLowPfn (findMaxPfn e820)) =
      initNode s e820 kernelEnd := rfl
  simp only [setupMemory, hinit] at h
  split at h
  · rename_i u hu
    obtain ⟨hub, hubits⟩ := registerBootmemLowPages_ret initNode_start (by omega) hu
    -- the two reservations
    split at h
    · rename_i v hv
      obtain ⟨_, hw, hlimits⟩ := Outcome.map_eq_ret h
      obtain ⟨hlt, hle, hkernel⟩ := reserveBootmemCore_pages (by rw [hub, initNode_start]) hv
      obtain ⟨-, -, hfirst⟩ := reserveBootmemCore_pages (by rw [hkernel.bdata, hub, initNode_start]) hw
      obtain ⟨x, hx⟩ : ∃ x, reserveEnd (pfnUp (virtToPhys kernelEnd)) (initNode s e820 kernelEnd).1 = x := ⟨_, rfl⟩
      have hhigh : highMemory.toNat / 4096 = 256 := by decide
      have hback : highMemory + (x - highMemory) = x := by rw [BitVec.add_comm, BitVec.sub_add_cancel]
      have hone : (((0 : Word) + pageSize).toNat + 4095) % 2 ^ 32 / 4096 = 1 := by decide
      rw [hx, hback, hhigh] at hlt hkernel
      rw [hx, hback] at hle
      rw [hzero, hone, Nat.zero_div] at hfirst
      obtain ⟨hpfn, hxNat, hfit⟩ := reserveEnd_toNat hsize (by rw [hx]; exact hlt)
      rw [hx] at hxNat hfit
      rw [Nat.mod_eq_of_lt hfit] at hkernel hle
      have hbits : ∀ p, p < (findMaxLowPfn (findMaxPfn e820)).toNat → (t.reserved p = false ↔
          RamPage e820 p ∧ p ≠ 0 ∧ ¬ (256 ≤ p ∧ p * 4096 < x.toNat)) := fun p hp => by
        rw [hfirst.reserved (by omega), hkernel.reserved (by omega)]
        have hram : u.reserved p = false ↔ RamPage e820 p := by
          rw [hubits p hp, initNode_reserved hp]
          exact or_iff_right (by decide)
        by_cases hpage : p = 0
        · simp [hpage]
        · have hrange : 256 ≤ p ∧ p < (x.toNat + 4095) / 4096 ↔ 256 ≤ p ∧ p * 4096 < x.toNat := by omega
          rw [if_neg (by omega)]
          simp [hrange, hpage, hram, and_comm]
      have hbdata : t.bdata = (initNode s e820 kernelEnd).2.bdata := by rw [hfirst.bdata, hkernel.bdata, hub]
      have hpages : t.bdata.pages = (findMaxLowPfn (findMaxPfn e820)).toNat := by
        rw [hbdata, initNode, initBootmemCore_pages (by decide)]
        rfl
      have hlow : u.bdata.nodeLowPfn = findMaxLowPfn (findMaxPfn e820) := by
        rw [hub]
        rfl
      refine ⟨hlimits.symm, hbdata, hpages, hpfn, by rw [hx, hxNat], by rw [hx, ← hlow]; exact hle, fun p hp => ?_⟩
      rw [hx, ← hbits p hp, Boot.FreePage, hpages]
      exact and_iff_right hp
    · cases h
    · cases h
  · cases h
  · cases h

theorem initNode_map : (initNode s e820 kernelEnd).2.bdata.nodeBootmemMap =
    (initNode s e820 kernelEnd).2.bdata.va ((pfnUp (virtToPhys kernelEnd)).toNat * 4096) := by
  have hpage := va_pageStart (initNode s e820 kernelEnd).2.bdata (pfnUp (virtToPhys kernelEnd))
  have hshift : pfnUp (virtToPhys kernelEnd) <<< pageShift = pfnUp (virtToPhys kernelEnd) * pageSize :=
    BitVec.shiftLeft_eq_mul_twoPow ..
  rw [← hpage, initNode_start, show ∀ a : Word, a + 0 = a from fun a => BitVec.add_zero a, ← hshift]
  rfl

/-- The pages of the kernel and of the bitmap are not free. -/
theorem SetupLeaves.holdsMap {limits : PfnLimits} (h : SetupLeaves s e820 kernelEnd limits t)
    (hhigh : highMemory ≤ virtToPhys kernelEnd) {p : Nat} (hmap : t.HoldsMap (initNode s e820 kernelEnd).1 p) :
    ¬ t.FreePage p := by
  intro hpfree
  have hp := hpfree.1
  rw [h.pages] at hp
  have hmax := toNat_findMaxLowPfn (findMaxPfn e820)
  have hend := h.reserveEnd
  have hfits := h.fits
  have hpfn := h.startPfn
  obtain ⟨hlo, hhi⟩ := holdsMap_range (by rw [h.bdata]; exact initNode_map) (by omega) (by omega) (by omega) hmap
  have hhigh := BitVec.le_def.mp hhigh
  have hhighNat : highMemory.toNat = 1048576 := by decide
  exact ((h.free_iff p hp).mp hpfree).2.2 ⟨by omega, by omega⟩

/-- **The bitmap after `setup_memory`**: no call of `free_bootmem` reaches `BUG`, and when neither
reservation does, exactly the whole RAM pages outside page 0, the kernel and the bitmap are free. -/
theorem setupMemory_ok (htable : RamTable e820) :
    (∃ u, registerBootmemLowPages (initNode s e820 kernelEnd).2 (findMaxLowPfn (findMaxPfn e820)) e820 =
      .ret () u) ∧
    ∀ limits t, setupMemory s e820 kernelEnd = .ret limits t →
      SetupOk e820 kernelEnd (initNode s e820 kernelEnd).1 limits t := by
  refine ⟨register_initNode htable, fun limits t h => ?_⟩
  have hleaves := setupMemory_leaves h
  have hmax := toNat_findMaxLowPfn (findMaxPfn e820)
  have hlimits := hleaves.limits_eq
  subst hlimits
  have hend := hleaves.reserveEnd
  have hpfn := hleaves.startPfn
  refine ⟨findMaxPfn_isLeast htable.small, hmax, hleaves.pages, fun p hp => ?_, fun p hp hkernel hpfree => ?_,
    fun hhigh p hmap => hleaves.holdsMap hhigh hmap⟩
  · rw [hleaves.free_iff p hp, ramPage_iff_wholeRam htable.small]
  · have hp' := hpfree.1
    rw [hleaves.pages] at hp'
    exact ((hleaves.free_iff p hp').mp hpfree).2.2 ⟨hp, by omega⟩

end

theorem setupMemory_ok_sixteen_pages :
    ∃ limits t, setupMemory bootStart [⟨0, 0x800, e820Ram⟩, ⟨0x100000, 0x10000, e820Ram⟩] 0xC0100800 = .ret limits t ∧
      limits.maxLowPfn = 0x110 ∧ ¬ t.FreePage 0x100 ∧ IsLeast {b | ∀ p,
        WholeRam [⟨0, 0x800, e820Ram⟩, ⟨0x100000, 0x10000, e820Ram⟩] p → p < b} limits.maxPfn.toNat := by
  have hrun : (setupMemory bootStart [⟨0, 0x800, e820Ram⟩, ⟨0x100000, 0x10000, e820Ram⟩] 0xC0100800).returns
      (·.maxLowPfn == 0x110) = true := by decide +kernel
  obtain ⟨limits, t, hret, hlow⟩ := Outcome.exists_of_returns hrun
  have htable : RamTable [⟨0, 0x800, e820Ram⟩, ⟨0x100000, 0x10000, e820Ram⟩] := by
    refine ⟨?_, ?_⟩
    · simp [E820Entry.Small]
    · simp [E820Entry.bytes, Set.disjoint_left]
      omega
  have hok := (setupMemory_ok htable).2 limits t hret
  exact ⟨limits, t, hret, eq_of_beq hlow, hok.kernel 0x100 (by decide) (by decide), hok.maxPfn⟩

/-- A kernel that ends below `HIGH_MEMORY` leaves the bitmap in a page that is free. -/
theorem setupMemory_bitmap_below_high_memory : ¬ ∀ (e820 : List E820Entry) (kernelEnd : Word), RamTable e820 →
    ∀ limits t, setupMemory bootStart e820 kernelEnd = .ret limits t →
      ∀ p, t.HoldsMap (initNode bootStart e820 kernelEnd).1 p → ¬ t.FreePage p := by
  intro h
  have htable : RamTable [⟨0, 0x110000, e820Ram⟩] := ⟨by simp [E820Entry.Small], by simp⟩
  have hrun : (setupMemory bootStart [⟨0, 0x110000, e820Ram⟩] 0xC00FF000).returns (fun _ => true) = true := by
    decide +kernel
  obtain ⟨limits, t, hret, -⟩ := Outcome.exists_of_returns hrun
  have hleaves := setupMemory_leaves hret
  have hfree : t.FreePage 0xFF := by
    rw [hleaves.free_iff 0xFF (by decide +kernel), ramPage_iff_wholeRam htable.small]
    exact ⟨⟨⟨0, 0x110000, e820Ram⟩, by simp, rfl, by decide, by decide⟩, by decide, by omega⟩
  refine h _ _ htable limits t hret 0xFF ⟨0xFF000, rfl, ?_⟩ hfree
  rw [hleaves.bdata]
  decide +kernel

end XosKernel.E820
