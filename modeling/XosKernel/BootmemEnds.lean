import XosKernel.BootmemSearch
import XosKernel.BootmemSetup

/-! How a call of `__alloc_bootmem_core` ends, for every node, cursor, bitmap and request. The restart of the scan
sets `preferred` to `offset`; where the node does not start at a multiple of the alignment that is not zero, so a
scan that finds nothing starts again for ever. -/

namespace XosKernel.Bootmem

open Memory Loop

/-! ### The end of the call -/

/-- The block is put behind the last one, into the page before the one that the scan has chosen. -/
def Boot.Merges (s : Boot) (align start : Word) : Prop :=
  align ≤ pageSize ∧ s.bdata.lastOffset ≠ 0 ∧ s.bdata.lastPos + 1 = start

instance (s : Boot) (align start : Word) : Decidable (s.Merges align start) := inferInstanceAs (Decidable (_ ∧ _))

/-- `areasize` of a merge that needs more than the rest of the page. -/
def spillArea (b : BootmemData) (size align : Word) : Word :=
  (size - (pageSize - nextOffset b align) + pageSize - 1) / pageSize

/-- The pages that are reserved for the block. -/
def Boot.takenArea (s : Boot) (size align start : Word) : Word :=
  if s.Merges align start then if size < pageSize - nextOffset s.bdata align then 0 else spillArea s.bdata size align
  else areaSize size

/-- The address of the block. -/
def Boot.blockAddr (s : Boot) (align start : Word) : Word :=
  if s.Merges align start then
    physToVirt (s.bdata.lastPos * pageSize + nextOffset s.bdata align + s.bdata.nodeBootStart)
  else physToVirt (start * pageSize + s.bdata.nodeBootStart)

/-- The end of the call comes to a `BUG`. -/
def Boot.Stops (s : Boot) (size align start : Word) : Prop :=
  (s.Merges align start ∧ pageSize < nextOffset s.bdata align) ∨
    ∃ nr, start ≤ nr ∧ nr < start + s.takenArea size align start ∧ s.oldBit nr = true

/-- What a call has done that returns a block. -/
structure Ret (s t : Boot) (size align start : Word) : Prop where
  node : BootmemData.SameNode s.bdata t.bdata
  reserved : ∃ u : Boot, u.bdata.nodeBootmemMap = s.bdata.nodeBootmemMap ∧
    (∀ nr, u.oldBit nr = if start ≤ nr ∧ nr < start + s.takenArea size align start then true else s.oldBit nr) ∧
    t.mem = fill u.mem (s.blockAddr align start) 0 size.toNat

section

variable {s t : Boot} {size align start : Word}

theorem takeBits_cases (s : Boot) (i : Word) (n : Nat) (hn : i.toNat + n < 2 ^ 32) :
    (∃ t, takeBits s i n = .ret () t ∧ BitsWritten s t i.toNat (i.toNat + n) true ∧
        ∀ nr : Word, i.toNat ≤ nr.toNat → nr.toNat < i.toNat + n → s.oldBit nr = false) ∨
      ∃ t nr, takeBits s i n = .bug t ∧ i.toNat ≤ nr.toNat ∧ nr.toNat < i.toNat + n ∧ s.oldBit nr = true := by
  induction n generalizing s i with
  | zero => exact .inl ⟨s, rfl, .refl s _ _, fun nr h1 h2 => absurd h2 (by omega)⟩
  | succ n ih =>
      have hsucc := toNat_succ (i := i) (by omega)
      rw [takeBits]
      cases hbit : s.oldBit i with
      | true => exact .inr ⟨_, i, rfl, le_rfl, by omega, hbit⟩
      | false =>
          have hstep := bitsWritten_setBit s i
          rcases ih (s.setBit i) (i + 1) (by omega) with ⟨t, ht, hwritten, hclear⟩ | ⟨t, nr, ht, hlo, hhi, hset⟩
          · rw [hsucc, show i.toNat + 1 + n = i.toNat + (n + 1) by omega] at hwritten
            refine .inl ⟨t, ht, hstep.trans (by omega) (by omega) hwritten, fun nr h1 h2 => ?_⟩
            rcases Nat.eq_or_lt_of_le h1 with heq | hlt
            · rw [← BitVec.eq_of_toNat_eq heq]
              exact hbit
            · have hrest := hclear nr (by omega) (by omega)
              rwa [hstep.bits, if_neg (by omega)] at hrest
          · rw [hstep.bits, if_neg (by omega)] at hset
            exact .inr ⟨t, nr, ht, by omega, by omega, hset⟩

theorem reserveArea_cases (s : Boot) (start areasize ret size : Word) :
    (∃ u : Boot, reserveArea s start areasize ret size = .ret (some ret) (u.memset ret 0 size) ∧ u.bdata = s.bdata ∧
        (∀ nr, u.oldBit nr = if start ≤ nr ∧ nr < start + areasize then true else s.oldBit nr) ∧
        ∀ nr, start ≤ nr → nr < start + areasize → s.oldBit nr = false) ∨
      (∃ t nr, reserveArea s start areasize ret size = .bug t ∧ start ≤ nr ∧ nr < start + areasize ∧
        s.oldBit nr = true) := by
  have hrange (nr : Word) : start.toNat ≤ nr.toNat ∧ nr.toNat < start.toNat + passes start (start + areasize) ↔
      start ≤ nr ∧ nr < start + areasize := passes_range
  rw [reserveArea]
  rcases takeBits_cases s start _ (passes_fit start (start + areasize)) with
    ⟨u, hu, hwritten, hclear⟩ | ⟨t, nr, ht, hlo, hhi, hset⟩
  · rw [hu]
    refine .inl ⟨u, rfl, hwritten.bdata, fun nr => ?_, fun nr h1 h2 => ?_⟩
    · rw [hwritten.bits]
      simp only [hrange]
    · exact hclear nr ((hrange nr).mpr ⟨h1, h2⟩).1 ((hrange nr).mpr ⟨h1, h2⟩).2
  · rw [ht]
    exact .inr ⟨t, nr, rfl, ((hrange nr).mp ⟨hlo, hhi⟩).1, ((hrange nr).mp ⟨hlo, hhi⟩).2, hset⟩

/-- How the end of the call ends. -/
inductive EndSpec (s : Boot) (size align start : Word) : Outcome Boot (Option Word) → Prop
  | ret (t : Boot) (hret : Ret s t size align start) (hstops : ¬ s.Stops size align start) :
      EndSpec s size align start (.ret (some (s.blockAddr align start)) t)
  | bug (t : Boot) (hstops : s.Stops size align start) : EndSpec s size align start (.bug t)

theorem reserveArea_endSpec {b : BootmemData} (hsame : BootmemData.SameNode s.bdata b)
    (hoffset : s.Merges align start → ¬ pageSize < nextOffset s.bdata align) {areasize ret : Word}
    (harea : areasize = s.takenArea size align start) (haddr : ret = s.blockAddr align start) :
    EndSpec s size align start (reserveArea { s with bdata := b } start areasize ret size) := by
  subst harea haddr
  have hold : ∀ nr, Boot.oldBit { s with bdata := b } nr = s.oldBit nr := fun nr => by
    simp only [Boot.oldBit, hsame.map]
  rcases reserveArea_cases { s with bdata := b } start (s.takenArea size align start) (s.blockAddr align start) size with
    ⟨u, hu, hbdata, hbits, hclear⟩ | ⟨t, nr, ht, hlo, hhi, hset⟩
  · rw [hu]
    refine .ret _ ⟨?_, u, ?_, fun nr => ?_, rfl⟩ ?_
    · show BootmemData.SameNode s.bdata u.bdata
      rw [hbdata]
      exact hsame
    · rw [hbdata]
      exact hsame.map
    · rw [hbits, hold]
    · rintro (⟨hmerges, hover⟩ | ⟨nr, hlo, hhi, hset⟩)
      · exact hoffset hmerges hover
      · rw [← hold, hclear nr hlo hhi] at hset
        cases hset
  · rw [ht]
    exact .bug t (.inr ⟨nr, hlo, hhi, by rw [← hold]; exact hset⟩)

/-- **The end of the call**: it returns the block, or it comes to a `BUG`. -/
theorem placeBlock_endSpec {eidx : Word} (hlt : start < eidx) :
    EndSpec s size align start (placeBlock s size align eidx (areaSize size) start) := by
  rw [placeBlock, if_neg (BitVec.not_le.mpr hlt)]
  by_cases hmerges : s.Merges align start
  · have hcond := hmerges
    rw [Boot.Merges] at hcond
    simp only [if_pos hcond]
    show EndSpec s size align start (if nextOffset s.bdata align > pageSize then .bug s else _)
    split
    · rename_i hover
      exact .bug s (.inl ⟨hmerges, hover⟩)
    rename_i hover
    split
    · rename_i hfits
      apply reserveArea_endSpec
      · exact ⟨rfl, rfl, rfl⟩
      · exact fun _ => hover
      · exact ((if_pos hmerges).trans (if_pos hfits)).symm
      · exact (if_pos hmerges).symm
    · rename_i hspills
      apply reserveArea_endSpec
      · exact ⟨rfl, rfl, rfl⟩
      · exact fun _ => hover
      · exact ((if_pos hmerges).trans (if_neg hspills)).symm
      · exact (if_pos hmerges).symm
  · have hcond := hmerges
    rw [Boot.Merges] at hcond
    simp only [if_neg hcond]
    apply reserveArea_endSpec
    · exact ⟨rfl, rfl, rfl⟩
    · exact fun h => absurd h hmerges
    · exact (if_neg hmerges).symm
    · exact (if_neg hmerges).symm

end

/-! ### The pages that the scan accepts -/

section

variable {s : Boot} {eidx areasize size align start i : Word}

theorem restFree_iff {j : Word} {n : Nat} (hn : j.toNat + n < 2 ^ 32) : restFree s eidx j n = true ↔
    ∀ nr : Word, j.toNat ≤ nr.toNat → nr.toNat < j.toNat + n → nr < eidx ∧ s.oldBit nr = false := by
  refine ⟨restFree_spec hn, fun h => ?_⟩
  induction n generalizing j with
  | zero => rfl
  | succ n ih =>
      obtain ⟨hlt, hclear⟩ := h j le_rfl (by omega)
      have hsucc := toNat_succ (i := j) (by omega)
      rw [restFree, if_neg (BitVec.not_le.mpr hlt), if_neg (by rw [Boot.testBit_eq, hclear]; exact Bool.false_ne_true)]
      exact ih (by omega) fun nr h1 h2 => h nr (by omega) (by omega)

/-- The scan accepts a page of the node when it is free and the pages behind it are free pages of the node. -/
theorem fits_iff (hlt : i < eidx) : s.fits eidx areasize i = true ↔
    s.oldBit i = false ∧ ∀ nr, i < nr → nr < i + areasize → nr < eidx ∧ s.oldBit nr = false := by
  have hltNat := BitVec.lt_def.mp hlt
  have hwide := eidx.isLt
  have hsucc := toNat_succ (i := i) (by omega)
  rw [Boot.fits, Bool.and_eq_true, Bool.not_eq_true', Boot.testBit_eq, restFree_iff (passes_fit _ _)]
  refine and_congr_right fun _ => ⟨fun h nr h1 h2 => ?_, fun h nr h1 h2 => ?_⟩
  · have hlo := BitVec.lt_def.mp h1
    have hhi := BitVec.lt_def.mp h2
    have hin := @passes_range (i + 1) (i + areasize) nr.toNat
    exact h nr (by omega) (hin.mpr ⟨by omega, hhi⟩).2
  · have hin := (@passes_range (i + 1) (i + areasize) nr.toNat).mp ⟨h1, h2⟩
    exact h nr (BitVec.lt_def.mpr (by omega)) (BitVec.lt_def.mpr hin.2)

/-- Where a merge comes to a `BUG`: the last block ended behind its page, or a page that the block needs besides those
that the scan has looked at is taken. -/
def Boot.MergeStops (s : Boot) (size align start : Word) : Prop :=
  s.Merges align start ∧ (pageSize < nextOffset s.bdata align ∨ pageSize - nextOffset s.bdata align ≤ size ∧
    ∃ nr, start ≤ nr ∧ nr < start + spillArea s.bdata size align ∧ s.oldBit nr = true)

/-- Only a merge can come to a `BUG`. -/
theorem stops_iff_mergeStops (hlt : start < eidx) (hfits : s.fits eidx (areaSize size) start = true) :
    s.Stops size align start ↔ s.MergeStops size align start := by
  rw [Boot.Stops, Boot.MergeStops, Boot.takenArea]
  by_cases hmerges : s.Merges align start
  · rw [if_pos hmerges]
    by_cases hrest : size < pageSize - nextOffset s.bdata align
    · have hempty : ¬ ∃ nr, start ≤ nr ∧ nr < start + 0 ∧ s.oldBit nr = true := by
        rintro ⟨nr, hlo, hhi, -⟩
        rw [show start + 0 = start from BitVec.add_zero start] at hhi
        exact BitVec.not_lt.mpr hlo hhi
      rw [if_pos hrest]
      simp only [hmerges, true_and, hempty, or_false, BitVec.not_le.mpr hrest, false_and]
    · rw [if_neg hrest]
      simp only [hmerges, true_and, BitVec.not_lt.mp hrest]
  · obtain ⟨hclear, hrest⟩ := (fits_iff hlt).mp hfits
    rw [if_neg hmerges]
    simp only [hmerges, false_and, false_or, iff_false]
    rintro ⟨nr, hlo, hhi, hset⟩
    rcases Nat.eq_or_lt_of_le (BitVec.le_def.mp hlo) with heq | hless
    · rw [← BitVec.eq_of_toNat_eq heq, hclear] at hset
      cases hset
    · rw [(hrest nr (BitVec.lt_def.mpr hless) hhi).2] at hset
      cases hset

end

/-! ### The call -/

/-- The page starts at a multiple of the alignment, lies in the node and is accepted by the scan. -/
def Boot.Suits (s : Boot) (size align i : Word) : Prop :=
  align.toNat ∣ i.toNat * 4096 + s.bdata.nodeBootStart.toNat ∧ i < s.bdata.eidx ∧
    s.fits s.bdata.eidx (areaSize size) i = true

/-- The first page that suits from `preferred` on, or the first one at all when there is none from there on. -/
def Boot.Chooses (s : Boot) (size align goal start : Word) : Prop :=
  IsLeast {i | s.Suits size align i ∧ s.bdata.preferred align goal ≤ i} start ∨
    (∀ i, s.Suits size align i → i < s.bdata.preferred align goal) ∧ IsLeast {i | s.Suits size align i} start

/-- `restart_scan` is come to at most twice. -/
def Boot.ScansTwice (s : Boot) (size align goal : Word) : Prop :=
  (run (restartPass s s.bdata.eidx (areaSize size) (stride align) (s.bdata.offset align)) 2
    (s.bdata.preferred align goal)).isSome = true

/-- How a call ends. -/
inductive CallSpec (s : Boot) (size align goal : Word) : Outcome Boot (Option Word) → Prop
  | block (start : Word) (t : Boot) (hchooses : s.Chooses size align goal start) (hret : Ret s t size align start)
      (hstops : ¬ s.MergeStops size align start) (htwice : s.ScansTwice size align goal) :
      CallSpec s size align goal (.ret (some (s.blockAddr align start)) t)
  | bug (start : Word) (t : Boot) (hchooses : s.Chooses size align goal start)
      (hstops : s.MergeStops size align start) : CallSpec s size align goal (.bug t)
  | null (hnone : ∀ i, ¬ s.Suits size align i) (hdvd : align.toNat ∣ s.bdata.nodeBootStart.toNat)
      (hend : s.bdata.eidx.toNat + (stride align).toNat ≤ 2 ^ 32) (htwice : s.ScansTwice size align goal) :
      CallSpec s size align goal (.ret none s)
  | hang (hnone : ∀ i, ¬ s.Suits size align i)
      (hend : ¬ (align.toNat ∣ s.bdata.nodeBootStart.toNat ∧ s.bdata.eidx.toNat + (stride align).toNat ≤ 2 ^ 32)) :
      CallSpec s size align goal .hang

section

variable {s : Boot} {size align goal start : Word}

theorem Boot.Chooses.suits (h : s.Chooses size align goal start) : s.Suits size align start := by
  rcases h with h | h
  · exact h.1.1
  · exact h.2.1

/-- No two pages are chosen. -/
theorem Boot.Chooses.unique {start' : Word} (h : s.Chooses size align goal start)
    (h' : s.Chooses size align goal start') : start = start' := by
  have hanti {i j : Word} (hij : i ≤ j) (hji : j ≤ i) : i = j :=
    BitVec.eq_of_toNat_eq (Nat.le_antisymm (BitVec.le_def.mp hij) (BitVec.le_def.mp hji))
  rcases h with ⟨hmem, hleast⟩ | ⟨hbelow, hmem, hleast⟩
  · rcases h' with ⟨hmem', hleast'⟩ | ⟨hbelow', -⟩
    · exact hanti (hleast hmem') (hleast' hmem)
    · exact absurd (hbelow' start hmem.1) (BitVec.not_lt.mpr hmem.2)
  · rcases h' with ⟨hmem', -⟩ | ⟨-, hmem', hleast'⟩
    · exact absurd (hbelow start' hmem'.1) (BitVec.not_lt.mpr hmem'.2)
    · exact hanti (hleast hmem') (hleast' hmem)

theorem candidate_iff_suits (halign : align.toNat.isPowerOfTwo)
    (hstart : s.bdata.nodeBootStart.toNat % 4096 = 0 ∨ align.toNat ∣ s.bdata.nodeBootStart.toNat) (i : Word) :
    Candidate s s.bdata.eidx (areaSize size) (stride align) (s.bdata.offset align) i ↔ s.Suits size align i := by
  have hway := onWay_iff_dvd halign hstart i
  exact ⟨fun h => ⟨hway.mp h.way, h.lt, h.fits⟩, fun h => ⟨hway.mpr h.1, h.2.1, h.2.2⟩⟩

theorem chosen_iff_chooses (halign : align.toNat.isPowerOfTwo)
    (hstart : s.bdata.nodeBootStart.toNat % 4096 = 0 ∨ align.toNat ∣ s.bdata.nodeBootStart.toNat) :
    Chosen s s.bdata.eidx (areaSize size) (stride align) (s.bdata.offset align) (s.bdata.preferred align goal) start ↔
      s.Chooses size align goal start := by
  simp only [Chosen, Boot.Chooses, candidate_iff_suits halign hstart]

/-- **One call**: what it returns, where it comes to a `BUG` and when it never ends. -/
theorem allocBootmemCore_callSpec (goal : Word) (hsize : size ≠ 0) (halign : align.toNat.isPowerOfTwo)
    (hstart : s.bdata.nodeBootStart.toNat % 4096 = 0 ∨ align.toNat ∣ s.bdata.nodeBootStart.toNat) :
    CallSpec s size align goal (allocBootmemCore s size align goal) := by
  have hlt := offset_lt_stride (b := s.bdata) halign
  have hscan := @scan_spec s s.bdata.eidx (areaSize size) _ _ _ (stride_dvd halign) hlt (onWay_preferred halign goal)
  have hnone := fun i => (@candidate_iff_suits s size align halign hstart i).not
  have hend : s.bdata.offset align = 0 ∧ HasEnd s.bdata.eidx (stride align) (s.bdata.offset align) ↔
      align.toNat ∣ s.bdata.nodeBootStart.toNat ∧ s.bdata.eidx.toNat + (stride align).toNat ≤ 2 ^ 32 := by
    rw [← offset_eq_zero_iff halign hstart]
    refine and_congr_right fun hzero => ?_
    rw [hzero]
    exact hasEnd_iff (stride_dvd halign) (by omega)
  rw [allocBootmemCore_scan goal hsize ((Word.and_sub_one_eq_zero_iff align).mpr (.inr halign))]
  generalize scan s s.bdata.eidx (areaSize size) (stride align) (s.bdata.offset align) (s.bdata.preferred align goal) =
    r at hscan
  cases hscan with
  | found start hchosen htwice =>
      have hchooses := (chosen_iff_chooses halign hstart).mp hchosen
      obtain ⟨-, hless, hfits⟩ := hchooses.suits
      have hplace := @placeBlock_endSpec s size align start _ hless
      show CallSpec s size align goal (placeBlock s size align s.bdata.eidx (areaSize size) start)
      generalize placeBlock s size align s.bdata.eidx (areaSize size) start = o at hplace
      have hiff := @stops_iff_mergeStops s _ size align start hless hfits
      cases hplace with
      | ret t hret hstops => exact .block start t hchooses hret (fun h => hstops (hiff.mpr h)) htwice
      | bug t hstops => exact .bug start t hchooses (hiff.mp hstops)
  | null hnone' hzero hend' htwice =>
      obtain ⟨hdvd, hfit⟩ := hend.mp ⟨hzero, hend'⟩
      exact .null (fun i => (hnone i).mp (hnone' i)) hdvd hfit htwice
  | hang hnone' hend' => exact .hang (fun i => (hnone i).mp (hnone' i)) fun h => hend' (hend.mpr h)

/-- **When a call returns**: with a size, when some page suits or the node starts at a multiple of the alignment (and
the search of a full node does not wrap), and when the page chosen is none where a merge comes to a `BUG`. -/
theorem allocBootmemCore_returns_iff (goal : Word) (halign : align.toNat.isPowerOfTwo)
    (hstart : s.bdata.nodeBootStart.toNat % 4096 = 0) :
    (s.ScansTwice size align goal ∧ ∃ r t, allocBootmemCore s size align goal = .ret r t) ↔
      size ≠ 0 ∧
        ((∃ i, s.Suits size align i) ∨
          align.toNat ∣ s.bdata.nodeBootStart.toNat ∧ s.bdata.eidx.toNat + (stride align).toNat ≤ 2 ^ 32) ∧
        ∀ start, s.Chooses size align goal start → ¬ s.MergeStops size align start := by
  by_cases hsize : size = 0
  · have hbug : allocBootmemCore s size align goal = .bug s := by rw [allocBootmemCore, if_pos hsize]
    refine ⟨fun h => ?_, fun h => absurd hsize h.1⟩
    obtain ⟨-, r, t, hret⟩ := h
    rw [hbug] at hret
    cases hret
  have hspec := allocBootmemCore_callSpec (s := s) goal hsize halign (.inl hstart)
  generalize allocBootmemCore s size align goal = o at hspec
  constructor
  · rintro ⟨-, r, t, hret⟩
    refine ⟨hsize, ?_⟩
    cases hspec with
    | block start t hchooses _ hstops _ =>
        refine ⟨.inl ⟨start, hchooses.suits⟩, fun start' hchooses' => ?_⟩
        rw [hchooses'.unique hchooses]
        exact hstops
    | bug => cases hret
    | null hnone hdvd hend _ => exact ⟨.inr ⟨hdvd, hend⟩, fun start hchooses => absurd hchooses.suits (hnone start)⟩
    | hang => cases hret
  · rintro ⟨-, hfound, hmerge⟩
    cases hspec with
    | block start t _ _ _ htwice => exact ⟨htwice, _, t, rfl⟩
    | bug start t hchooses hstops => exact absurd hstops (hmerge start hchooses)
    | null _ _ _ htwice => exact ⟨htwice, none, s, rfl⟩
    | hang hnone hend =>
        rcases hfound with ⟨i, hi⟩ | hfit
        · exact absurd hi (hnone i)
        · exact absurd hfit hend

/-- No page of a node suits whose pages are all reserved. -/
theorem not_suits_of_reserved (hnode : s.bdata.NodeOk) (hall : ∀ p < s.bdata.pages, s.reserved p = true) (i : Word) :
    ¬ s.Suits size align i := by
  rintro ⟨-, hlt, hfits⟩
  have hpage := BitVec.lt_def.mp hlt
  rw [BootmemData.eidx, hnode.toNat_eidx] at hpage
  have hset := hall _ hpage
  rw [reserved_toNat, ((fits_iff hlt).mp hfits).1] at hset
  cases hset

/-- So it is right after `init_bootmem_core`. -/
theorem initBootmemCore_not_suits {s₀ : Boot} {mapstart first endPfn : Word} (hfirst : first.toNat < 2 ^ 20)
    (hle : first.toNat ≤ endPfn.toNat) (hend : endPfn.toNat ≤ 2 ^ 20) (i : Word) :
    ¬ (initBootmemCore s₀ mapstart first endPfn).2.Suits size align i := by
  refine not_suits_of_reserved (initBootmemCore_nodeOk hfirst hle hend) (fun p hp => ?_) i
  rw [initBootmemCore_pages hfirst] at hp
  exact initBootmemCore_reserved hfirst hle hend hp

end

/-- A node of eight pages, all of them reserved. -/
theorem allocBootmemCore_returns_iff_full : ∃ r t,
    allocBootmemCore (initBootmemCore ⟨fun _ => 0, ⟨0, 0, 0, 0, 0⟩⟩ 0x100 0 8).2 1 16 0 = .ret r t := by
  have hnone := @initBootmemCore_not_suits 1 16 ⟨fun _ => 0, ⟨0, 0, 0, 0, 0⟩⟩ 0x100 0 8 (by decide) (by decide)
    (by decide)
  exact ((allocBootmemCore_returns_iff 0 ⟨4, rfl⟩ (by decide)).mpr
    ⟨by decide, .inr ⟨⟨0, rfl⟩, by decide⟩, fun start hchooses => absurd hchooses.suits (hnone start)⟩).2

/-- The same from page 1 on, and an alignment of two pages: the call searches for ever. -/
theorem allocBootmemCore_restarts_for_ever :
    allocBootmemCore (initBootmemCore ⟨fun _ => 0, ⟨0, 0, 0, 0, 0⟩⟩ 0x100 1 9).2 1 0x2000 0 = .hang := by
  have hnone := @initBootmemCore_not_suits 1 0x2000 ⟨fun _ => 0, ⟨0, 0, 0, 0, 0⟩⟩ 0x100 1 9 (by decide) (by decide)
    (by decide)
  have hspec := @allocBootmemCore_callSpec (initBootmemCore ⟨fun _ => 0, ⟨0, 0, 0, 0, 0⟩⟩ 0x100 1 9).2 1 0x2000 0
    (by decide) ⟨13, rfl⟩ (.inl (by decide))
  generalize allocBootmemCore (initBootmemCore ⟨fun _ => 0, ⟨0, 0, 0, 0, 0⟩⟩ 0x100 1 9).2 1 0x2000 0 = o at hspec
  cases hspec with
  | block start _ hchooses => exact absurd hchooses.suits (hnone start)
  | bug start _ hchooses => exact absurd hchooses.suits (hnone start)
  | null _ hdvd => exact absurd hdvd (by decide)
  | hang => rfl

end XosKernel.Bootmem
