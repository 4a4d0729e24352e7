import XosKernel.BootmemLowest

/-! The goal of an allocation. The scan starts at the page of the goal, but the address is made up afterwards: a merge
moves the block back into the page before the one that was chosen. In a node that does not start at a multiple of the
alignment the rounding of the goal and the offset both skip to the next multiple, so the scan starts behind the
goal. -/

namespace XosKernel.Bootmem

open Loop

/-- A free run that starts at a multiple of the alignment, as a physical address. -/
def Boot.AlignedRun (s : Boot) (size align : Word) (i : Nat) : Prop :=
  align.toNat ∣ i * 4096 + s.bdata.nodeBootStart.toNat ∧ s.FreeRun size i

/-- The page of a goal inside the node. -/
def BootmemData.goalIndex (b : BootmemData) (goal : Word) : Nat := (goal.toNat - b.nodeBootStart.toNat) / 4096

/-- The run at the goal is chosen and merged with the rest of the page below the goal. -/
def Boot.MergesBelow (s : Boot) (size align goal : Word) : Prop :=
  goal ≠ 0 ∧ s.Merges align (BitVec.ofNat 32 (s.bdata.goalIndex goal)) ∧ nextOffset s.bdata align < pageSize ∧
    s.FreeRun size (s.bdata.goalIndex goal)

/-- The run at the goal is skipped, there is none behind it, and there is one before it. -/
def Boot.SkipsGoal (s : Boot) (size align goal : Word) : Prop :=
  ¬ align.toNat ∣ s.bdata.nodeBootStart.toNat ∧
    (∀ i, s.AlignedRun size align i → i * 4096 + s.bdata.nodeBootStart.toNat ≤ goal.toNat) ∧
      ∃ i, s.AlignedRun size align i ∧ i * 4096 + s.bdata.nodeBootStart.toNat < goal.toNat

/-- A goal at a page and at a multiple of the alignment inside the node. -/
structure BootmemData.GoalOk (b : BootmemData) (align goal : Word) : Prop where
  page : goal.toNat % 4096 = 0
  dvd : align.toNat ∣ goal.toNat
  start_le : b.nodeBootStart.toNat ≤ goal.toNat
  lt_low : goal.toNat / 4096 < b.nodeLowPfn.toNat

section

variable {s : Boot} {b : BootmemData} {size align goal : Word}

theorem BootmemData.GoalOk.index (h : b.GoalOk align goal) (hnode : b.NodeOk) :
    b.goalIndex goal * 4096 + b.nodeBootStart.toNat = goal.toNat := by
  have hpage := h.page
  have hstart := hnode.aligned
  have hle := h.start_le
  rw [BootmemData.goalIndex]
  omega

/-- Where the scan starts: at the goal, or one alignment behind it when the node does not start at a multiple of the
alignment. -/
theorem toNat_preferred_goal (hnode : b.NodeOk) (halign : align.toNat.isPowerOfTwo) (hgoal : b.GoalOk align goal)
    (hne : goal ≠ 0) : (b.preferred align goal).toNat =
      b.goalIndex goal + if align.toNat ∣ b.nodeBootStart.toNat then 0 else align.toNat / 4096 := by
  have hpos := Nat.pos_of_isPowerOfTwo halign
  have hstart := hnode.aligned
  have hle := hgoal.start_le
  have hpage := hgoal.page
  have hbyte : (preferredByte b goal).toNat = goal.toNat - b.nodeBootStart.toNat := by
    rw [toNat_preferredByte, if_pos ⟨hne, hle, hgoal.lt_low⟩]
  obtain ⟨q, hq⟩ := hgoal.dvd
  obtain ⟨c, hc⟩ := Word.toNat_dvd_two_pow halign
  have hsplit := Nat.div_add_mod b.nodeBootStart.toNat align.toNat
  have hmod := Nat.mod_lt b.nodeBootStart.toNat hpos
  -- the distance of the goal from the start, rounded up
  obtain ⟨n, hn⟩ : ∃ n, goal.toNat - b.nodeBootStart.toNat + b.nodeBootStart.toNat % align.toNat = align.toNat * n := by
    refine ⟨q - b.nodeBootStart.toNat / align.toNat, ?_⟩
    rw [Nat.mul_sub]
    omega
  have hnc : n < c := by
    have hlt := goal.isLt
    refine Nat.lt_of_mul_lt_mul_left (a := align.toNat) ?_
    omega
  have hfit : align.toNat * n + align.toNat ≤ 2 ^ 32 := by
    rw [← Nat.mul_succ, hc]
    exact Nat.mul_le_mul_left _ hnc
  have hround : (goal.toNat - b.nodeBootStart.toNat + (align.toNat - 1)) / align.toNat * align.toNat =
      align.toNat * n := by
    rw [Nat.mul_comm]
    congr 1
    rw [Nat.div_eq_iff hpos]
    rw [Nat.mul_comm n]
    omega
  have hrounded : ((preferredByte b goal + align - 1) &&& ~~~(align - 1)).toNat = align.toNat * n := by
    rw [toNat_roundUp halign, hbyte, if_pos (by omega), hround]
  have hoffset := toNat_gridOffset (b := b) halign
  rw [BootmemData.preferred, BitVec.toNat_add, toNat_shift, hrounded, BootmemData.offset, toNat_shift, hoffset,
    BootmemData.goalIndex]
  split
  · rename_i hdvd
    have hzero := Nat.mod_eq_zero_of_dvd hdvd
    rw [Nat.mod_eq_of_lt (by omega)]
    omega
  · rename_i hdvd
    rcases dvd_pageSize_or halign with ⟨hdiv, -⟩ | ⟨⟨g, hg⟩, -⟩
    · exact absurd (Nat.dvd_trans hdiv (Nat.dvd_of_mod_eq_zero hstart)) hdvd
    · have hmodPage : b.nodeBootStart.toNat % align.toNat % 4096 = 0 := by
        rw [hg, Nat.mod_mul_right_mod]
        exact hstart
      rw [Nat.mod_eq_of_lt (by omega)]
      omega

theorem suits_iff_alignedRun (hnode : s.bdata.NodeOk) (hsize : size ≠ 0) (hwrap : size.toNat + 4095 < 2 ^ 32)
    (i : Word) : s.Suits size align i ↔ s.AlignedRun size align i.toNat :=
  and_congr Iff.rfl (fits_iff_freeRun hnode.nodeRange hsize hwrap i)

/-- The physical address of a page of the node. -/
theorem toNat_pageAddr (hnode : s.bdata.NodeOk) {start : Word} (hlt : start.toNat < s.bdata.pages)
    (hmerges : ¬ s.Merges align start) :
    (virtToPhys (s.blockAddr align start)).toNat = start.toNat * 4096 + s.bdata.nodeBootStart.toNat := by
  obtain ⟨-, hbytes⟩ := hnode.pages_le
  rw [Boot.blockAddr, if_neg hmerges, va_pageStart, toNat_virtToPhys_va (by omega), Nat.add_comm]

/-- The physical address of a merged block. -/
theorem toNat_mergedAddr_mod {start : Word} (hmerges : s.Merges align start) : (virtToPhys (s.blockAddr align start)).toNat =
    (start.toNat * 4096 + s.bdata.nodeBootStart.toNat + (nextOffset s.bdata align).toNat + (2 ^ 32 - 4096)) %
      2 ^ 32 := by
  have hone : (1 : Word).toNat = 1 := rfl
  have hnext : start.toNat = (s.bdata.lastPos.toNat + 1) % 2 ^ 32 := by rw [← hmerges.2.2, BitVec.toNat_add, hone]
  have hlt := s.bdata.lastPos.isLt
  rw [Boot.blockAddr, if_pos hmerges, va_page, virtToPhys_va, BitVec.toNat_add, BitVec.toNat_ofNat, Nat.add_mod_mod]
  rcases Nat.lt_or_ge (s.bdata.lastPos.toNat + 1) (2 ^ 32) with hsmall | hbig
  · rw [Nat.mod_eq_of_lt hsmall] at hnext
    have hsum : start.toNat * 4096 + s.bdata.nodeBootStart.toNat + (nextOffset s.bdata align).toNat + (2 ^ 32 - 4096) =
        s.bdata.nodeBootStart.toNat + (s.bdata.lastPos.toNat * 4096 + (nextOffset s.bdata align).toNat) + 2 ^ 32 := by
      omega
    rw [hsum, Nat.add_mod_right]
  · have hlast : s.bdata.lastPos.toNat = 2 ^ 32 - 1 := by omega
    rw [hlast] at hnext ⊢
    have hzero : start.toNat = 0 := hnext
    have hsum : s.bdata.nodeBootStart.toNat + ((2 ^ 32 - 1) * 4096 + (nextOffset s.bdata align).toNat) =
        start.toNat * 4096 + s.bdata.nodeBootStart.toNat + (nextOffset s.bdata align).toNat + (2 ^ 32 - 4096) +
          4095 * 2 ^ 32 := by omega
    rw [hsum, Nat.add_mul_mod_self_right]

/-- The physical address of a block that is moved back into the page before the one chosen. -/
theorem toNat_mergedAddr (hnode : s.bdata.NodeOk) {start : Word} (hlt : start.toNat < s.bdata.pages)
    (hmerges : s.Merges align start) (hoff : (nextOffset s.bdata align).toNat ≤ 4096)
    (hlow : 4096 ≤ start.toNat * 4096 + s.bdata.nodeBootStart.toNat) :
    (virtToPhys (s.blockAddr align start)).toNat =
      start.toNat * 4096 + s.bdata.nodeBootStart.toNat - (4096 - (nextOffset s.bdata align).toNat) := by
  obtain ⟨-, hbytes⟩ := hnode.pages_le
  rw [toNat_mergedAddr_mod hmerges]
  omega

/-- A merge needs no more pages than the scan has looked at. -/
theorem toNat_spillArea_le (hwrap : size.toNat + 4095 < 2 ^ 32) (hoff : nextOffset b align ≤ pageSize)
    (hspills : pageSize - nextOffset b align ≤ size) : (spillArea b size align).toNat ≤ pageCount size := by
  have hrest : (pageSize - nextOffset b align).toNat = 4096 - (nextOffset b align).toNat :=
    BitVec.toNat_sub_of_le hoff
  have hsub : (size - (pageSize - nextOffset b align)).toNat = size.toNat - (4096 - (nextOffset b align).toNat) := by
    rw [BitVec.toNat_sub_of_le hspills, hrest]
  rw [spillArea, toNat_pageCount (by omega), hsub, pageCount]
  exact Nat.div_le_div_right (by omega)

/-- A request with a free run at or above its goal. -/
structure Request (s : Boot) (size align goal : Word) : Prop where
  node : s.bdata.NodeOk
  size_ne : size ≠ 0
  fits : size.toNat + 4095 < 2 ^ 32
  pow : align.toNat.isPowerOfTwo
  goalOk : s.bdata.GoalOk align goal
  goal_ne : goal ≠ 0
  run : ∃ i, s.AlignedRun size align i ∧ goal.toNat ≤ i * 4096 + s.bdata.nodeBootStart.toNat

namespace Request

variable {start : Word}

theorem suits_iff (h : Request s size align goal) (i : Word) :
    s.Suits size align i ↔ s.AlignedRun size align i.toNat := suits_iff_alignedRun h.node h.size_ne h.fits i

theorem lt_pages (h : Request s size align goal) {i : Nat} (hi : s.AlignedRun size align i) : i < s.bdata.pages := by
  have hone := one_le_pageCount h.size_ne
  have hin := hi.2.1
  omega

theorem toNat_ofNat (h : Request s size align goal) {i : Nat} (hi : s.AlignedRun size align i) :
    (BitVec.ofNat 32 i).toNat = i := by
  have hlt := h.lt_pages hi
  have hpages := h.node.pages_le.1
  exact ofNat_toNat_of_lt (by omega)

theorem suits_ofNat (h : Request s size align goal) {i : Nat} (hi : s.AlignedRun size align i) :
    s.Suits size align (BitVec.ofNat 32 i) := (h.suits_iff _).mpr (by rw [h.toNat_ofNat hi]; exact hi)

/-- The page that is chosen is at or above the goal unless the goal is skipped. -/
theorem le_start_iff (h : Request s size align goal) (hchooses : s.Chooses size align goal start) :
    goal.toNat ≤ start.toNat * 4096 + s.bdata.nodeBootStart.toNat ↔ ¬ s.SkipsGoal size align goal := by
  have hindex := h.goalOk.index h.node
  have hpreferred := toNat_preferred_goal h.node h.pow h.goalOk h.goal_ne
  have hpos := Nat.pos_of_isPowerOfTwo h.pow
  have hchosen := (h.suits_iff _).mp hchooses.suits
  constructor
  · rintro hge ⟨hdvd, hnone, i, hi, hbelow⟩
    rw [if_neg hdvd] at hpreferred
    have hstride : 0 < align.toNat / 4096 := by
      rcases dvd_pageSize_or h.pow with ⟨hdiv, -⟩ | ⟨-, hgt⟩
      · exact absurd (Nat.dvd_trans hdiv (Nat.dvd_of_mod_eq_zero h.node.aligned)) hdvd
      · omega
    rcases hchooses with ⟨⟨-, hfrom⟩, -⟩ | ⟨-, -, hmin⟩
    · have hfrom := BitVec.le_def.mp hfrom
      have hatmost := hnone _ hchosen
      omega
    · have hle := BitVec.le_def.mp (hmin (h.suits_ofNat hi))
      rw [h.toNat_ofNat hi] at hle
      omega
  · intro hskips
    rcases hchooses with ⟨⟨-, hfrom⟩, -⟩ | ⟨hbefore, -⟩
    · have hfrom := BitVec.le_def.mp hfrom
      omega
    · obtain ⟨i, hi, hge⟩ := h.run
      have hlast := BitVec.lt_def.mp (hbefore _ (h.suits_ofNat hi))
      rw [h.toNat_ofNat hi, hpreferred] at hlast
      by_cases hdvd : align.toNat ∣ s.bdata.nodeBootStart.toNat
      · rw [if_pos hdvd, Nat.add_zero] at hlast
        exact absurd (Nat.mul_lt_mul_of_pos_right hlast (by decide : 0 < 4096)) (by omega)
      · by_contra hbelow
        refine hskips ⟨hdvd, fun j hj => ?_, start.toNat, hchosen, Nat.not_le.mp hbelow⟩
        -- a run before the start of the scan is less than one alignment behind the goal
        have hless := BitVec.lt_def.mp (hbefore _ (h.suits_ofNat hj))
        rw [h.toNat_ofNat hj, hpreferred, if_neg hdvd] at hless
        obtain ⟨c, hc⟩ := hj.1
        obtain ⟨q, hq⟩ := h.goalOk.dvd
        have hpageDvd : align.toNat / 4096 * 4096 ≤ align.toNat := Nat.div_mul_le_self _ _
        have hmul : align.toNat * (q + 1) = align.toNat * q + align.toNat := Nat.mul_succ _ _
        have hbound : align.toNat * c < align.toNat * (q + 1) := by omega
        have hcq := Nat.lt_succ_iff.mp (Nat.lt_of_mul_lt_mul_left hbound)
        rw [hc, hq]
        exact Nat.mul_le_mul_left _ hcq

/-- A merge is made for an alignment of at most a page, which divides the start of the node. -/
theorem dvd_of_merges (h : Request s size align goal) (hmerges : s.Merges align start) :
    align.toNat ∣ s.bdata.nodeBootStart.toNat := by
  rcases dvd_pageSize_or h.pow with ⟨hdiv, -⟩ | ⟨-, hgt⟩
  · exact Nat.dvd_trans hdiv (Nat.dvd_of_mod_eq_zero h.node.aligned)
  · exact absurd (BitVec.le_def.mp hmerges.1) (Nat.not_le.mpr hgt)

theorem goalRun (h : Request s size align goal) (hfree : s.FreeRun size (s.bdata.goalIndex goal)) :
    s.AlignedRun size align (s.bdata.goalIndex goal) :=
  ⟨by rw [h.goalOk.index h.node]; exact h.goalOk.dvd, hfree⟩

/-- Where the run at the goal is to be merged with the page below, it is the run chosen. -/
theorem chooses_goal (h : Request s size align goal) (hbelow : s.MergesBelow size align goal) :
    s.Chooses size align goal (BitVec.ofNat 32 (s.bdata.goalIndex goal)) := by
  obtain ⟨-, hmerges, -, hfree⟩ := hbelow
  have hrun := h.goalRun hfree
  have hpreferred := toNat_preferred_goal h.node h.pow h.goalOk h.goal_ne
  rw [if_pos (h.dvd_of_merges hmerges), Nat.add_zero, ← h.toNat_ofNat hrun] at hpreferred
  refine .inl ⟨⟨h.suits_ofNat hrun, BitVec.le_def.mpr hpreferred.le⟩, fun j hj => BitVec.le_def.mpr ?_⟩
  rw [← hpreferred]
  exact BitVec.le_def.mp hj.2

/-- A run is free for all the pages that a merge takes. -/
theorem not_mergeStops (h : Request s size align goal) (hfree : s.FreeRun size start.toNat)
    (hoff : nextOffset s.bdata align ≤ pageSize) : ¬ s.MergeStops size align start := by
  rintro ⟨-, hover | ⟨hspills, nr, hlo, hhi, hset⟩⟩
  · exact BitVec.not_lt.mpr hoff hover
  · have hspill := toNat_spillArea_le h.fits hoff hspills
    have hlo := BitVec.le_def.mp hlo
    have hhi := BitVec.lt_def.mp hhi
    have hsum := Nat.mod_le (start.toNat + (spillArea s.bdata size align).toNat) (2 ^ 32)
    rw [BitVec.toNat_add] at hhi
    rw [← reserved_toNat, hfree.2 _ hlo (by omega)] at hset
    cases hset

/-- The block that is returned starts at or above the goal just when the goal is neither skipped nor merged with the
page below. -/
theorem le_blockAddr_iff (h : Request s size align goal) (hchooses : s.Chooses size align goal start)
    (hstops : ¬ s.MergeStops size align start) :
    goal.toNat ≤ (virtToPhys (s.blockAddr align start)).toNat ↔
      ¬ s.MergesBelow size align goal ∧ ¬ s.SkipsGoal size align goal := by
  have hindex := h.goalOk.index h.node
  have hchosen := (h.suits_iff _).mp hchooses.suits
  have hlt := h.lt_pages hchosen
  have hpage : 4096 ≤ goal.toNat := by
    have hne : goal.toNat ≠ 0 := fun hzero => h.goal_ne (BitVec.eq_of_toNat_eq hzero)
    have hmod := h.goalOk.page
    omega
  by_cases hmerges : s.Merges align start
  · have hskips : ¬ s.SkipsGoal size align goal := fun hskips => hskips.1 (h.dvd_of_merges hmerges)
    have habove := (h.le_start_iff hchooses).mpr hskips
    have hoff : (nextOffset s.bdata align).toNat ≤ 4096 := by
      by_contra hover
      exact hstops ⟨hmerges, .inl (BitVec.lt_def.mpr (Nat.not_le.mp hover))⟩
    have hsize : pageSize.toNat = 4096 := rfl
    rw [toNat_mergedAddr h.node hlt hmerges hoff (by omega), and_iff_left hskips]
    constructor
    · intro hge hbelow
      have hword := h.toNat_ofNat (h.goalRun hbelow.2.2.2)
      have hless := BitVec.lt_def.mp hbelow.2.2.1
      rw [hchooses.unique (h.chooses_goal hbelow), hword] at hge
      omega
    · intro hbelow
      rcases Nat.eq_or_lt_of_le habove with heq | hmore
      · -- the run at the goal: the rounding leaves no room in the page below
        have hstart : start.toNat = s.bdata.goalIndex goal := by omega
        have hpageEnd : ¬ nextOffset s.bdata align < pageSize := fun hless => by
          refine hbelow ⟨h.goal_ne, ?_, hless, hstart ▸ hchosen.2⟩
          rwa [← hstart, BitVec.ofNat_toNat, BitVec.setWidth_eq]
        have hfull := BitVec.le_def.mp (BitVec.not_lt.mp hpageEnd)
        omega
      · have hstartPage := h.node.aligned
        have hgoalPage := h.goalOk.page
        omega
  · rw [toNat_pageAddr h.node hlt hmerges, h.le_start_iff hchooses]
    refine (and_iff_right fun hbelow => hmerges ?_).symm
    rw [hchooses.unique (h.chooses_goal hbelow)]
    exact hbelow.2.1

end Request

/-- **The goal**: where a free run lies at or above the goal, a block that is returned starts at or above it, except
when the run at the goal is merged with the page below or skipped. -/
theorem allocBootmemCore_above_goal_iff (hnode : s.bdata.NodeOk) (halign : align.toNat.isPowerOfTwo)
    (hgoal : s.bdata.GoalOk align goal)
    (hrun : ∃ i, s.AlignedRun size align i ∧ goal.toNat ≤ i * 4096 + s.bdata.nodeBootStart.toNat) :
    (∀ a t, allocBootmemCore s size align goal = .ret (some a) t → goal.toNat ≤ (virtToPhys a).toNat) ↔
      size = 0 ∨ ¬ s.MergesBelow size align goal ∧ ¬ s.SkipsGoal size align goal := by
  by_cases hsize : size = 0
  · have hbug : allocBootmemCore s size align goal = .bug s := by rw [allocBootmemCore, if_pos hsize]
    refine iff_of_true (fun a t h => ?_) (.inl hsize)
    rw [hbug] at h
    cases h
  obtain ⟨hpages, hbytes⟩ := hnode.pages_le
  by_cases hzero : goal = 0
  · refine iff_of_true (fun a t _ => ?_) (.inr ⟨fun h => h.1 hzero, fun h => ?_⟩)
    · rw [hzero]
      exact Nat.zero_le _
    · obtain ⟨-, -, i, -, hbelow⟩ := h
      rw [hzero] at hbelow
      exact absurd hbelow (Nat.not_lt_zero _)
  have hpage : 4096 ≤ goal.toNat := by
    have hne : goal.toNat ≠ 0 := fun h => hzero (BitVec.eq_of_toNat_eq h)
    have := hgoal.page
    omega
  -- a run above the goal leaves no room for a size whose pages wrap
  have hwrap : size.toNat + 4095 < 2 ^ 32 := by
    obtain ⟨i, ⟨-, hin, -⟩, hge⟩ := hrun
    rw [pageCount] at hin
    omega
  have h : Request s size align goal := ⟨hnode, hsize, hwrap, halign, hgoal, hzero, hrun⟩
  have hspec := allocBootmemCore_callSpec (s := s) goal hsize halign (.inl hnode.aligned)
  obtain ⟨i, hi, -⟩ := hrun
  rw [or_iff_right hsize]
  generalize allocBootmemCore s size align goal = o at hspec
  cases hspec with
  | block start t hchooses _ hstops =>
      rw [← h.le_blockAddr_iff hchooses hstops]
      refine ⟨fun hall => hall _ t rfl, fun hge a t' heq => ?_⟩
      cases heq
      exact hge
  | bug start t hchooses hstops =>
      refine iff_of_true (fun a t h => by cases h) ⟨fun hbelow => ?_, fun hskips => ?_⟩
      · obtain rfl := hchooses.unique (h.chooses_goal hbelow)
        refine h.not_mergeStops ?_ (BitVec.le_of_lt hbelow.2.2.1) hstops
        rw [h.toNat_ofNat (h.goalRun hbelow.2.2.2)]
        exact hbelow.2.2.2
      · exact hskips.1 (h.dvd_of_merges hstops.1)
  | null hnone => exact absurd (h.suits_ofNat hi) (hnone _)
  | hang hnone => exact absurd (h.suits_ofNat hi) (hnone _)

end

theorem allocBootmemCore_above_goal_page_three : ∃ s,
    (initBootmemCore bootStart 0x100 0 8).2.call (.free 0 0x8000) = .ret none s ∧
      ∀ a t, allocBootmemCore s 100 16 0x3000 = .ret (some a) t → (0x3000 : Word).toNat ≤ (virtToPhys a).toNat := by
  obtain ⟨s, hfree, hbdata, hclear⟩ := exists_freeNode
  have hpages : s.bdata.pages = 8 := by rw [hbdata]; rfl
  have hstart : s.bdata.nodeBootStart = 0 := by rw [hbdata]; rfl
  have hoff : s.bdata.lastOffset = 0 := by rw [hbdata]; rfl
  have hnode : s.bdata.NodeOk := by rw [hbdata]; exact ⟨by decide, by decide, by decide⟩
  have hgoal : s.bdata.GoalOk 16 0x3000 := by
    rw [hbdata]
    exact ⟨by decide, by decide, by decide, by decide⟩
  have hrun : s.AlignedRun 100 16 3 := by
    refine ⟨by rw [hstart]; decide, by rw [hpages]; decide, fun p _ hhi => hclear p (lt_of_lt_of_le hhi (by decide))⟩
  refine ⟨s, hfree, (allocBootmemCore_above_goal_iff hnode ⟨4, rfl⟩ hgoal ⟨3, hrun, ?_⟩).mpr (.inr ⟨?_, ?_⟩)⟩
  · rw [hstart]
    decide
  · exact fun h => h.2.1.2.1 hoff
  · exact fun h => h.1 (by rw [hstart]; exact Nat.dvd_zero _)

/-- Page 1 is free and is the page chosen for the goal at its start, and the block begins in page 0. -/
theorem allocBootmemCore_merges_below_goal : ∃ s t,
    (initBootmemCore bootStart 0x100 0 8).2.replay [.alloc 100 16 0, .free 0 0x8000] =
        some ([(.alloc 100 16 0, some 0xC0000000), (.free 0 0x8000, none)], s) ∧
      s.bdata.NodeOk ∧ s.bdata.GoalOk 16 0x1000 ∧ s.AlignedRun 100 16 1 ∧
        allocBootmemCore s 100 16 0x1000 = .ret (some 0xC0000070) t ∧
          (virtToPhys 0xC0000070).toNat < (0x1000 : Word).toNat := by
  have hrun : ((initBootmemCore bootStart 0x100 0 8).2.replay [.alloc 100 16 0, .free 0 0x8000]).any (fun r =>
      r.1 == [(.alloc 100 16 0, some 0xC0000000), (.free 0 0x8000, none)] &&
        (r.2.bdata.nodeBootStart == 0 && r.2.bdata.nodeLowPfn == 8 && !r.2.reserved 1 &&
          (allocBootmemCore r.2 100 16 0x1000).returns (fun a => a == some 0xC0000070))) = true := by decide +kernel
  obtain ⟨⟨es, s⟩, hreplay, hvalues⟩ := (Option.any_eq_true _ _).mp hrun
  simp only [Bool.and_eq_true, beq_iff_eq, Bool.not_eq_true'] at hvalues
  obtain ⟨rfl, ⟨⟨hstart, hlow⟩, hclear⟩, hreturns⟩ := hvalues
  obtain ⟨a, t, halloc, hvalue⟩ := Outcome.exists_of_returns hreturns
  obtain rfl := eq_of_beq hvalue
  have hcount : pageCount 100 = 1 := rfl
  refine ⟨s, t, hreplay, ⟨?_, ?_, ?_⟩, ⟨by decide, by decide, ?_, ?_⟩, ⟨?_, ?_, fun p hlo hhi => ?_⟩, halloc, by decide⟩
  · rw [hstart]
    decide
  · rw [hstart, hlow]
    decide
  · rw [hlow]
    decide
  · rw [hstart]
    decide
  · rw [hlow]
    decide
  · rw [hstart]
    decide
  · rw [BootmemData.pages, hstart, hlow]
    decide
  · obtain rfl : p = 1 := by omega
    exact hclear

end XosKernel.Bootmem
