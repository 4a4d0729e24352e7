import XosKernel.BootmemAlloc
import XosKernel.WordSearch
import Mathlib.Order.Bounds.Basic

/-! The scan of `__alloc_bootmem_core` with its restart, on every node, bitmap and request. The pages it can come to
are those whose physical address is a multiple of the alignment; it looks at them from `preferred` on and then from
the first one on. `scan_spec` says which page it chooses and when it never ends. -/

namespace XosKernel.Bootmem

open Loop

namespace BootmemData

/-- `eidx`. -/
def eidx (b : BootmemData) : Word := b.nodeLowPfn - b.nodeBootStart >>> pageShift

/-- `offset`, after the shift. -/
def offset (b : BootmemData) (align : Word) : Word := gridOffset b align >>> pageShift

/-- `preferred`, when the scan starts. -/
def preferred (b : BootmemData) (align goal : Word) : Word :=
  ((preferredByte b goal + align - 1) &&& ~~~(align - 1)) >>> pageShift + b.offset align

end BootmemData

/-- `areasize`. -/
def areaSize (size : Word) : Word := (size + pageSize - 1) / pageSize

/-- The end of a call, by what the scan has found. -/
def afterScan (s : Boot) (size align : Word) : Option (Option Word) → Outcome Boot (Option Word)
  | none => .hang
  | some none => .ret none s
  | some (some start) => placeBlock s size align s.bdata.eidx (areaSize size) start

theorem allocBootmemCore_scan {s : Boot} {size align : Word} (goal : Word) (hne : size ≠ 0)
    (halign : align &&& (align - 1) = 0) : allocBootmemCore s size align goal =
      afterScan s size align (scan s s.bdata.eidx (areaSize size) (stride align) (s.bdata.offset align)
        (s.bdata.preferred align goal)) :=
  allocBootmemCore_eq goal hne halign

/-- The scan accepts page `i`: it is free, and so are the pages behind it that the area needs. -/
def Boot.fits (s : Boot) (eidx areasize i : Word) : Bool :=
  !s.testBit i && restFree s eidx (i + 1) (passes (i + 1) (i + areasize))

/-- One pass from `restart_scan` on. -/
def restartPass (s : Boot) (eidx areasize incr offset preferred : Word) : Pass Word (Option (Option Word)) :=
  match scanFrom s eidx areasize incr preferred with
  | none => .done none
  | some (some start) => .done (some (some start))
  | some none => if preferred ≠ 0 then .next offset else .done (some none)

section

variable {s : Boot} {eidx areasize incr offset preferred : Word}

theorem scan_eq_run : scan s eidx areasize incr offset preferred =
    (run (restartPass s eidx areasize incr offset) wordCount preferred).join := rfl

theorem scanFrom_eq_search :
    scanFrom s eidx areasize incr preferred = search (s.fits eidx areasize) eidx incr preferred := by
  rw [scanFrom, search]
  congr 1
  funext i
  rw [Boot.fits]
  cases s.testBit i <;> simp

/-- A page that the scan would take when it comes to it. -/
structure Candidate (s : Boot) (eidx areasize incr offset i : Word) : Prop where
  way : OnWay incr offset i
  lt : i < eidx
  fits : s.fits eidx areasize i = true

/-- The page that the scan chooses: the first candidate from `preferred` on, or the first candidate at all. -/
def Chosen (s : Boot) (eidx areasize incr offset preferred start : Word) : Prop :=
  IsLeast {i | Candidate s eidx areasize incr offset i ∧ preferred ≤ i} start ∨
    (∀ i, Candidate s eidx areasize incr offset i → i < preferred) ∧
      IsLeast {i | Candidate s eidx areasize incr offset i} start

/-- A page on the way behind the end of the node, where a pass of the scan ends. -/
def HasEnd (eidx incr offset : Word) : Prop := ∃ q, OnWay incr offset q ∧ eidx ≤ q

/-- How the scan ends. -/
inductive ScanSpec (s : Boot) (eidx areasize incr offset preferred : Word) : Option (Option Word) → Prop
  | found (start : Word) (h : Chosen s eidx areasize incr offset preferred start)
      (htwice : (run (restartPass s eidx areasize incr offset) 2 preferred).isSome = true) :
      ScanSpec s eidx areasize incr offset preferred (some (some start))
  | null (hnone : ∀ i, ¬ Candidate s eidx areasize incr offset i) (hzero : offset = 0)
      (hend : HasEnd eidx incr offset)
      (htwice : (run (restartPass s eidx areasize incr offset) 2 preferred).isSome = true) :
      ScanSpec s eidx areasize incr offset preferred (some none)
  | hang (hnone : ∀ i, ¬ Candidate s eidx areasize incr offset i)
      (hend : ¬ (offset = 0 ∧ HasEnd eidx incr offset)) : ScanSpec s eidx areasize incr offset preferred none

/-- What one pass of the scan answers. -/
inductive PassSpec (s : Boot) (eidx areasize incr offset first : Word) : Option (Option Word) → Prop
  | found (start : Word) (h : Chosen s eidx areasize incr offset first start) :
      PassSpec s eidx areasize incr offset first (some (some start))
  | missed (hnone : ∀ i, Candidate s eidx areasize incr offset i → i < first) (hend : HasEnd eidx incr offset) :
      PassSpec s eidx areasize incr offset first (some none)
  | hang (hnone : ∀ i, ¬ Candidate s eidx areasize incr offset i) (hend : ¬ HasEnd eidx incr offset) :
      PassSpec s eidx areasize incr offset first none

theorem Candidate.not_passes {i : Word} (h : Candidate s eidx areasize incr offset i)
    (hpasses : Passes (s.fits eidx areasize) eidx i) : False := by
  have hfits := h.fits
  rw [hpasses.2] at hfits
  cases hfits

theorem scanFrom_spec {first : Word} (hpos : 0 < incr.toNat) (hdvd : incr.toNat ∣ 2 ^ 32)
    (hfirst : OnWay incr offset first) :
    PassSpec s eidx areasize incr offset first (scanFrom s eidx areasize incr first) := by
  have hway (i : Word) : OnWay incr first i ↔ OnWay incr offset i := by
    rw [onWay_iff hdvd, onWay_iff hdvd, (onWay_iff hdvd).mp hfirst]
  have hspec := search_spec (s.fits eidx areasize) eidx first hpos hdvd
  rw [scanFrom_eq_search]
  generalize search (s.fits eidx areasize) eidx incr first = r at hspec
  cases hspec with
  | found q hq hlt haccept hbefore =>
      have hcand : Candidate s eidx areasize incr offset q := ⟨(hway q).mp hq, hlt, haccept⟩
      refine .found q ?_
      by_cases hle : first ≤ q
      · refine .inl ⟨⟨hcand, hle⟩, fun i hi => BitVec.not_lt.mp fun hless => ?_⟩
        exact hi.1.not_passes (hbefore i ((hway i).mpr hi.1.way) (dist_lt_of_le hi.2 hless))
      · have hwrap := BitVec.not_le.mp hle
        refine .inr ⟨fun i hi => BitVec.not_le.mp fun hge => ?_, hcand, fun i hi => BitVec.not_lt.mp fun hless => ?_⟩
        · exact hi.not_passes (hbefore i ((hway i).mpr hi.way) (dist_lt_of_lt hwrap (.inl hge)))
        · exact hi.not_passes (hbefore i ((hway i).mpr hi.way) (dist_lt_of_lt hwrap (.inr hless)))
  | missed q hq hge hbefore =>
      refine .missed (fun i hi => BitVec.not_le.mp fun hfrom => ?_) ⟨q, (hway q).mp hq, hge⟩
      have hlt := BitVec.lt_def.mp hi.lt
      have hend := BitVec.le_def.mp hge
      refine hi.not_passes (hbefore i ((hway i).mpr hi.way) (dist_lt_of_le hfrom ?_))
      exact BitVec.lt_def.mpr (by omega)
  | hang hall =>
      refine .hang (fun i hi => hi.not_passes (hall i ((hway i).mpr hi.way))) ?_
      rintro ⟨q, hq, hge⟩
      exact absurd (hall q ((hway q).mpr hq)).1 (BitVec.not_lt.mpr hge)

/-- The first page of the way is the least one. -/
theorem offset_le_of_onWay {i : Word} (hdvd : incr.toNat ∣ 2 ^ 32) (hoffset : offset.toNat < incr.toNat)
    (h : OnWay incr offset i) : offset ≤ i := by
  rw [onWay_iff hdvd, Nat.mod_eq_of_lt hoffset] at h
  rw [BitVec.le_def, ← h]
  exact Nat.mod_le _ _

theorem restartPass_taken {first start : Word} (h : scanFrom s eidx areasize incr first = some (some start)) :
    restartPass s eidx areasize incr offset first = .done (some (some start)) := by
  rw [restartPass, h]

theorem restartPass_lost {first : Word} (h : scanFrom s eidx areasize incr first = none) :
    restartPass s eidx areasize incr offset first = .done none := by
  rw [restartPass, h]

theorem restartPass_last {first : Word} (h : scanFrom s eidx areasize incr first = some none) (hzero : first = 0) :
    restartPass s eidx areasize incr offset first = .done (some none) := by
  rw [restartPass, h]
  exact if_neg (not_not_intro hzero)

theorem restartPass_restart {first : Word} (h : scanFrom s eidx areasize incr first = some none) (hne : first ≠ 0) :
    restartPass s eidx areasize incr offset first = .next offset := by
  rw [restartPass, h]
  exact if_pos hne

theorem wordCount_eq : wordCount = 4294967294 + 1 + 1 := rfl

/-- The second pass, from `offset` on, comes to every candidate. When it misses and `offset` is not zero, so do all others. -/
theorem scan_restarted (hdvd : incr.toNat ∣ 2 ^ 32) (hoffset : offset.toNat < incr.toNat)
    (hbody : restartPass s eidx areasize incr offset preferred = .next offset)
    (hnone : ∀ i, Candidate s eidx areasize incr offset i → i < preferred) (hend : HasEnd eidx incr offset) :
    ScanSpec s eidx areasize incr offset preferred (scan s eidx areasize incr offset preferred) := by
  have hleast : ∀ i, Candidate s eidx areasize incr offset i → offset ≤ i := fun i hi =>
    offset_le_of_onWay hdvd hoffset hi.way
  have hpass := @scanFrom_spec s eidx areasize incr offset offset (by omega) hdvd (onWay_self incr offset)
  rw [scan_eq_run, wordCount_eq, run_succ_next hbody]
  generalize hsecond : scanFrom s eidx areasize incr offset = r at hpass
  cases hpass with
  | found start hchosen =>
      have htaken := @restartPass_taken s eidx areasize incr offset offset start hsecond
      rw [run_succ_done htaken]
      refine .found start (.inr ⟨hnone, ?_⟩) (by rw [run_succ_next hbody, run_succ_done htaken]; rfl)
      rcases hchosen with ⟨hmem, hfirst⟩ | ⟨-, hfirst⟩
      · exact ⟨hmem.1, fun i hi => hfirst ⟨hi, hleast i hi⟩⟩
      · exact hfirst
  | hang _ hnoEnd => exact absurd hend hnoEnd
  | missed hbelow _ =>
      have hempty : ∀ i, ¬ Candidate s eidx areasize incr offset i := fun i hi =>
        absurd (hbelow i hi) (BitVec.not_lt.mpr (hleast i hi))
      by_cases hzero : offset = 0
      · have hlast := @restartPass_last s eidx areasize incr offset offset hsecond hzero
        rw [run_succ_done hlast]
        exact .null hempty hzero hend (by rw [run_succ_next hbody, run_succ_done hlast]; rfl)
      · rw [run_repeats (restartPass_restart hsecond hzero)]
        exact .hang hempty fun h => hzero h.1

/-- **The scan**: it chooses the first candidate from `preferred` on, or the first candidate at all when there is none
from there on, in at most two passes. Without a candidate it ends only when `offset` is zero. -/
theorem scan_spec (hdvd : incr.toNat ∣ 2 ^ 32) (hoffset : offset.toNat < incr.toNat)
    (hpreferred : OnWay incr offset preferred) :
    ScanSpec s eidx areasize incr offset preferred (scan s eidx areasize incr offset preferred) := by
  have hpass := @scanFrom_spec s eidx areasize incr offset preferred (by omega) hdvd hpreferred
  generalize hfirst : scanFrom s eidx areasize incr preferred = r at hpass
  cases hpass with
  | found start hchosen =>
      have htaken := @restartPass_taken s eidx areasize incr offset preferred start hfirst
      rw [scan_eq_run, wordCount_eq, run_succ_done htaken]
      exact .found start hchosen (by rw [run_succ_done htaken]; rfl)
  | hang hnone hend =>
      rw [scan_eq_run, wordCount_eq, run_succ_done (restartPass_lost hfirst)]
      exact .hang hnone fun h => hend h.2
  | missed hnone hend =>
      by_cases hzero : preferred = 0
      · have hlast := @restartPass_last s eidx areasize incr offset preferred hfirst hzero
        have hoffsetZero : offset = 0 := by
          have hle := offset_le_of_onWay hdvd hoffset hpreferred
          rw [hzero] at hle
          exact BitVec.le_zero_iff.mp hle
        rw [scan_eq_run, wordCount_eq, run_succ_done hlast]
        refine .null (fun i hi => ?_) hoffsetZero hend (by rw [run_succ_done hlast]; rfl)
        have hlt := hnone i hi
        rw [hzero] at hlt
        exact absurd hlt BitVec.not_lt_zero
      · exact scan_restarted hdvd hoffset (restartPass_restart hfirst hzero) hnone hend

end

/-! ### The arguments of the scan -/

section

variable {b : BootmemData} {align : Word}

theorem toNat_stride (align : Word) :
    (stride align).toNat = if 4096 ≤ align.toNat then align.toNat / 4096 else 1 := by
  have hshift := toNat_shift align
  have hzero : (0 : Word).toNat = 0 := rfl
  rw [stride]
  split
  · rename_i hne
    rw [hshift, if_pos]
    by_contra hlt
    exact hne (BitVec.eq_of_toNat_eq (by rw [hshift, hzero]; omega))
  · rename_i heq
    rw [not_not] at heq
    rw [heq, hzero] at hshift
    rw [if_neg (by omega)]
    rfl

/-- The stride is the alignment in pages, and one page for an alignment below a page. -/
theorem stride_cases (halign : align.toNat.isPowerOfTwo) :
    (stride align).toNat * 4096 = align.toNat ∨ (stride align).toNat = 1 ∧ align.toNat < 4096 ∧ align.toNat ∣ 4096 := by
  rw [toNat_stride]
  split
  · rename_i hge
    rcases dvd_pageSize_or halign with ⟨-, hle⟩ | ⟨hdvd, -⟩
    · have heq := Nat.le_antisymm hle hge
      rw [heq]
      exact .inl rfl
    · exact .inl (Nat.div_mul_cancel hdvd)
  · rename_i hlt
    rcases dvd_pageSize_or halign with ⟨hdvd, -⟩ | ⟨-, hgt⟩
    · exact .inr ⟨rfl, Nat.not_le.mp hlt, hdvd⟩
    · omega

theorem stride_dvd (halign : align.toNat.isPowerOfTwo) : (stride align).toNat ∣ 2 ^ 32 := by
  rcases stride_cases halign with h | h
  · exact Nat.dvd_trans ⟨4096, h.symm⟩ (Word.toNat_dvd_two_pow halign)
  · rw [h.1]
    exact Nat.one_dvd _

theorem toNat_gridOffset (halign : align.toNat.isPowerOfTwo) :
    (gridOffset b align).toNat = if align.toNat ∣ b.nodeBootStart.toNat then 0
      else align.toNat - b.nodeBootStart.toNat % align.toNat := by
  have hpos := Nat.pos_of_isPowerOfTwo halign
  have hmod := Word.toNat_and_sub_one halign b.nodeBootStart
  have hlt := Nat.mod_lt b.nodeBootStart.toNat hpos
  have hzero : (0 : Word).toNat = 0 := rfl
  rw [gridOffset]
  split
  · rename_i hcond
    rw [if_neg, BitVec.toNat_sub_of_le (by rw [BitVec.le_def, hmod]; omega), hmod]
    intro hdvd
    exact hcond.2 (BitVec.eq_of_toNat_eq (hmod.trans (Nat.mod_eq_zero_of_dvd hdvd)))
  · rename_i hcond
    rw [if_pos]
    · rfl
    · refine Nat.dvd_of_mod_eq_zero ?_
      by_contra hne
      refine hcond ⟨fun h => ?_, fun h => hne (by rw [← hmod, h]; rfl)⟩
      rw [h, hzero] at hpos
      exact Nat.lt_irrefl 0 hpos

theorem offset_lt_stride (halign : align.toNat.isPowerOfTwo) :
    (b.offset align).toNat < (stride align).toNat := by
  have hpos := Nat.pos_of_isPowerOfTwo halign
  have hlt : (gridOffset b align).toNat < align.toNat := by
    rw [toNat_gridOffset halign]
    split
    · exact hpos
    · rename_i hdvd
      have hne : b.nodeBootStart.toNat % align.toNat ≠ 0 := fun h => hdvd (Nat.dvd_of_mod_eq_zero h)
      omega
  rw [BootmemData.offset, toNat_shift]
  rcases stride_cases halign with h | h
  · exact Nat.div_lt_of_lt_mul (by omega)
  · omega

/-- A node that starts at a multiple of the alignment has no offset. -/
theorem offset_eq_zero (halign : align.toNat.isPowerOfTwo) (hdvd : align.toNat ∣ b.nodeBootStart.toNat) :
    b.offset align = 0 := by
  have hoff := toNat_gridOffset (b := b) halign
  rw [if_pos hdvd] at hoff
  apply BitVec.eq_of_toNat_eq
  rw [BootmemData.offset, toNat_shift, hoff]
  rfl

/-- `preferred` is on the way of the scan. -/
theorem onWay_preferred (halign : align.toNat.isPowerOfTwo) (goal : Word) :
    OnWay (stride align) (b.offset align) (b.preferred align goal) := by
  have hround := Word.toNat_and_not_sub_one halign (preferredByte b goal + align - 1)
  rw [BootmemData.preferred, OnWay, BitVec.add_sub_cancel, toNat_shift, hround]
  rcases stride_cases halign with h | h
  · rw [← h, ← Nat.mul_assoc, Nat.mul_div_cancel _ (by decide : 0 < 4096)]
    exact Nat.dvd_mul_left _ _
  · rw [h.1]
    exact Nat.one_dvd _

/-- The pages on the way are those whose physical address is a multiple of the alignment, in a node that starts at a
page or at a multiple of the alignment. -/
theorem onWay_iff_dvd (halign : align.toNat.isPowerOfTwo)
    (hstart : b.nodeBootStart.toNat % 4096 = 0 ∨ align.toNat ∣ b.nodeBootStart.toNat) (i : Word) :
    OnWay (stride align) (b.offset align) i ↔ align.toNat ∣ i.toNat * 4096 + b.nodeBootStart.toNat := by
  rw [onWay_iff (stride_dvd halign)]
  rcases stride_cases halign with h | ⟨hone, -, hdvd⟩
  · have hpage : b.nodeBootStart.toNat % 4096 = 0 := by
      rcases hstart with hpage | hdvd
      · exact hpage
      · exact Nat.mod_eq_zero_of_dvd (Nat.dvd_trans ⟨_, by rw [← h, Nat.mul_comm]⟩ hdvd)
    have hoffset := onGrid_offset hpage halign fun hzero => by
      have hpos := Nat.pos_of_isPowerOfTwo halign
      rw [hzero] at hpos
      exact absurd hpos (by decide)
    rw [← BootmemData.offset, ← h] at hoffset
    rw [← h]
    have hiff : i.toNat * 4096 + b.nodeBootStart.toNat ≡ (b.offset align).toNat * 4096 + b.nodeBootStart.toNat
        [MOD (stride align).toNat * 4096] ↔ i.toNat ≡ (b.offset align).toNat [MOD (stride align).toNat] :=
      ⟨fun hcongr => Nat.ModEq.mul_right_cancel' (by decide) (Nat.ModEq.add_right_cancel' _ hcongr),
        fun hcongr => Nat.ModEq.add_right _ (Nat.ModEq.mul_right' 4096 hcongr)⟩
    constructor
    · intro hmod
      exact ((hiff.mpr hmod).dvd_iff (Nat.dvd_refl _)).mpr hoffset
    · intro hmul
      exact hiff.mp ((Nat.mod_eq_zero_of_dvd hmul).trans (Nat.mod_eq_zero_of_dvd hoffset).symm)
  · rw [hone, Nat.mod_one, Nat.mod_one]
    refine iff_of_true rfl (Nat.dvd_add (Nat.dvd_trans hdvd (Nat.dvd_mul_left _ _)) ?_)
    rcases hstart with hpage | hdvd'
    · exact Nat.dvd_trans hdvd (Nat.dvd_of_mod_eq_zero hpage)
    · exact hdvd'

/-- The offset is zero just when the node starts at a multiple of the alignment. -/
theorem offset_eq_zero_iff (halign : align.toNat.isPowerOfTwo)
    (hstart : b.nodeBootStart.toNat % 4096 = 0 ∨ align.toNat ∣ b.nodeBootStart.toNat) :
    b.offset align = 0 ↔ align.toNat ∣ b.nodeBootStart.toNat := by
  refine ⟨fun h => ?_, offset_eq_zero halign⟩
  have hzero : (0 : Word).toNat = 0 := rfl
  have hway := (onWay_iff_dvd halign hstart (0 : Word)).mp (by rw [h]; exact onWay_self _ _)
  rwa [hzero, Nat.zero_mul, Nat.zero_add] at hway

/-- A pass over a way without offset ends unless the next step wraps before the end of the node. -/
theorem hasEnd_iff {eidx incr : Word} (hdvd : incr.toNat ∣ 2 ^ 32) (hpos : 0 < incr.toNat) :
    HasEnd eidx incr 0 ↔ eidx.toNat + incr.toNat ≤ 2 ^ 32 := by
  have hwide := incr.isLt
  constructor
  · rintro ⟨q, hway, hle⟩
    rw [onWay_zero] at hway
    obtain ⟨a, ha⟩ := hway
    obtain ⟨c, hc⟩ := hdvd
    have hqlt := q.isLt
    have hac : a < c := Nat.lt_of_mul_lt_mul_left (ha ▸ hc ▸ hqlt)
    have hstep := Nat.mul_le_mul_left incr.toNat (Nat.succ_le_of_lt hac)
    rw [Nat.mul_succ] at hstep
    have := BitVec.le_def.mp hle
    omega
  · intro hfit
    refine ⟨BitVec.ofNat 32 (2 ^ 32 - incr.toNat), ?_, ?_⟩
    · rw [onWay_zero, BitVec.toNat_ofNat, Nat.dvd_mod_iff hdvd]
      exact Nat.dvd_sub hdvd (Nat.dvd_refl _)
    · rw [BitVec.le_def, BitVec.toNat_ofNat, Nat.mod_eq_of_lt (by omega)]
      omega

end

end XosKernel.Bootmem
