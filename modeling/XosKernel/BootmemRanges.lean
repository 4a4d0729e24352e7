import XosKernel.BootmemLowest
import XosKernel.BootmemReserve

/-! Which bits `reserve_bootmem_core` and `free_bootmem_core` touch, for every node, bitmap and range. Their indices are
differences of unsigned words, so the comparisons of `sidx` and `eidx` with 0 never hold: a range below the node is
counted from the top of the words. A free of a page that is free already stops at a `BUG` after the bits before it
have been cleared. -/

namespace XosKernel.Bootmem

open Memory BootmemData

namespace BootmemData

/-- The pages of the node that meet a range. -/
def pagesMeeting (b : BootmemData) (addr size : Word) : Set Nat :=
  {p | p < b.pages ∧ ∃ y, addr.toNat ≤ y ∧ y < addr.toNat + size.toNat ∧ y / 4096 = p + b.nodeBootStart.toNat / 4096}

/-- The pages of the node that lie in a range as a whole. -/
def pagesInside (b : BootmemData) (addr size : Word) : Set Nat :=
  {p | p < b.pages ∧ addr.toNat ≤ (p + b.nodeBootStart.toNat / 4096) * 4096 ∧
    (p + b.nodeBootStart.toNat / 4096 + 1) * 4096 ≤ addr.toNat + size.toNat}

/-- The indices of the loop of `reserve_bootmem_core`. -/
def reservedPages (b : BootmemData) (addr size : Word) : Set Nat :=
  {p | (reserveSidx b addr).toNat ≤ p ∧ p < (reserveEidx b addr size).toNat}

/-- The range lies in the page before the node. -/
def InPageBefore (b : BootmemData) (addr size : Word) : Prop :=
  addr.toNat + size.toNat < b.nodeBootStart.toNat ∧ b.nodeBootStart.toNat ≤ addr.toNat + 4095

/-- The range begins at least a page before the node and covers its first page. -/
def BeginsBefore (b : BootmemData) (addr size : Word) : Prop :=
  addr.toNat + 4096 ≤ b.nodeBootStart.toNat ∧ b.nodeBootStart.toNat + 4096 ≤ addr.toNat + size.toNat

end BootmemData

/-- A reservation stops at a `BUG` and leaves the bitmap, or sets the bits of the pages of the node that meet the range
and no others. -/
def Boot.ReservesExactly (s : Boot) (addr size : Word) : Prop :=
  reserveBootmemCore s addr size = .bug s ∨
    (∃ t, reserveBootmemCore s addr size = .ret () t ∧
        BitsWritten s t (reserveSidx s.bdata addr).toNat (reserveEidx s.bdata addr size).toNat true) ∧
      s.bdata.reservedPages addr size = s.bdata.pagesMeeting addr size

/-- A free stops at a `BUG` and leaves the bitmap, or clears the bits of the pages of the node that lie in the range as a
whole and no others. -/
def Boot.FreesExactly (s : Boot) (addr size : Word) : Prop :=
  freeBootmemCore s addr size = .bug s ∨
    (∃ t, freeBootmemCore s addr size = .ret () t ∧
        BitsWritten s t (freeSidx s.bdata addr).toNat (freeEidx s.bdata addr size).toNat false) ∧
      freedPages s.bdata addr size = s.bdata.pagesInside addr size

/-- The frees that do so: with no size or behind the node, which is a `BUG`; in the page before the node when page 0 is
free, which is a `BUG` too; and all others that do not begin a page before the node, when the pages in the range are
all reserved or the first one is free. -/
def Boot.FreeFits (s : Boot) (addr size : Word) : Prop :=
  size = 0 ∨ s.bdata.nodeLowPfn.toNat < (addr.toNat + size.toNat) / 4096 ∨
    (s.bdata.InPageBefore addr size ∧ s.reserved 0 = false) ∨
      (¬ s.bdata.InPageBefore addr size ∧ ¬ s.bdata.BeginsBefore addr size ∧
        ((∀ p ∈ s.bdata.pagesInside addr size, s.reserved p = true) ∨
          ∃ p, IsLeast (s.bdata.pagesInside addr size) p ∧ s.reserved p = false))

/-- A node with at least one page. -/
structure BootmemData.PagedNode (b : BootmemData) : Prop where
  aligned : b.nodeBootStart.toNat % 4096 = 0
  start_lt : b.nodeBootStart.toNat / 4096 < b.nodeLowPfn.toNat

theorem BitsWritten.of_range {s t : Boot} {lo hi lo' hi' : Nat} {value : Bool} (h : BitsWritten s t lo hi value)
    (hrange : ∀ p, lo ≤ p ∧ p < hi ↔ lo' ≤ p ∧ p < hi') : BitsWritten s t lo' hi' value := by
  refine ⟨h.bdata, fun nr => ?_, fun a ha => h.frame a fun nr h1 h2 => ?_⟩
  · rw [h.bits]
    simp only [hrange]
  · obtain ⟨hlo, hhi⟩ := (hrange nr.toNat).mp ⟨h1, h2⟩
    exact ha nr hlo hhi

/-! ### Reservations -/

section

variable {s : Boot} {addr size : Word}

theorem reserveBootmemCore_eq (hsize : size ≠ 0) : reserveBootmemCore s addr size =
    if reserveSidx s.bdata addr ≥ reserveEidx s.bdata addr size then .bug s
    else if addr >>> pageShift ≥ s.bdata.nodeLowPfn then .bug s
    else if (addr + size + pageSize - 1) / pageSize > s.bdata.nodeLowPfn then .bug s
    else .ret () (setBits s (reserveSidx s.bdata addr)
      (passes (reserveSidx s.bdata addr) (reserveEidx s.bdata addr size))) := by
  rw [reserveBootmemCore, if_neg hsize]
  rfl

/-- The last page of a range, as a page number of the memory. -/
theorem toNat_endPfn (hfit : addr.toNat + size.toNat + 4095 < 2 ^ 32) :
    ((addr + size + pageSize - 1) / pageSize).toNat = (addr.toNat + size.toNat + 4095) / 4096 := by
  have hround : addr + size + pageSize - 1 = addr + size + 4095 := by
    rw [BitVec.sub_eq_add_neg _ (1 : Word), BitVec.add_assoc]
    rfl
  have hlast : (4095 : Word).toNat = 4095 := rfl
  rw [toNat_div_pageSize, hround, BitVec.toNat_add, BitVec.toNat_add, hlast, Nat.mod_add_mod, Nat.mod_eq_of_lt hfit]

/-- A range that does not end before the node. -/
theorem reservesExactly_of_le (hnode : s.bdata.PagedNode) (hfit : addr.toNat + size.toNat + 4095 < 2 ^ 32)
    (hsize : size ≠ 0) (hle : s.bdata.nodeBootStart.toNat ≤ addr.toNat + size.toNat + 4095) :
    s.ReservesExactly addr size := by
  have haligned := hnode.aligned
  have hwide := s.bdata.nodeBootStart.isLt
  have hne : size.toNat ≠ 0 := fun h => hsize (BitVec.eq_of_toNat_eq h)
  have hsidx := toNat_reserveSidx s.bdata addr
  have heidx := toNat_reserveEidx s.bdata addr size
  rw [Nat.mod_eq_of_lt (a := addr.toNat + size.toNat) (by omega)] at heidx
  rcases Nat.lt_or_ge addr.toNat s.bdata.nodeBootStart.toNat with hbelow | habove
  · -- the range begins behind its end
    rw [Nat.mod_eq_of_lt (by omega)] at hsidx
    refine .inl ?_
    rw [reserveBootmemCore_eq hsize, if_pos]
    rw [ge_iff_le, BitVec.le_def]
    rcases Nat.lt_or_ge (addr.toNat + size.toNat) s.bdata.nodeBootStart.toNat with hend | hend
    · rw [Nat.mod_eq_of_lt (a := 2 ^ 32 - s.bdata.nodeBootStart.toNat + (addr.toNat + size.toNat)) (by omega)] at heidx
      omega
    · have hsum : 2 ^ 32 - s.bdata.nodeBootStart.toNat + (addr.toNat + size.toNat) =
          addr.toNat + size.toNat - s.bdata.nodeBootStart.toNat + 2 ^ 32 := by omega
      rw [hsum, Nat.add_mod_right, Nat.mod_eq_of_lt (by omega), Nat.mod_eq_of_lt (by omega)] at heidx
      omega
  · have hsumStart : 2 ^ 32 - s.bdata.nodeBootStart.toNat + addr.toNat =
        addr.toNat - s.bdata.nodeBootStart.toNat + 2 ^ 32 := by omega
    have hsumEnd : 2 ^ 32 - s.bdata.nodeBootStart.toNat + (addr.toNat + size.toNat) =
        addr.toNat + size.toNat - s.bdata.nodeBootStart.toNat + 2 ^ 32 := by omega
    rw [hsumStart, Nat.add_mod_right, Nat.mod_eq_of_lt (by omega)] at hsidx
    rw [hsumEnd, Nat.add_mod_right, Nat.mod_eq_of_lt (by omega), Nat.mod_eq_of_lt (by omega)] at heidx
    rw [Boot.ReservesExactly, reserveBootmemCore_eq hsize]
    split
    · exact .inl rfl
    split
    · exact .inl rfl
    split
    · exact .inl rfl
    rename_i hend
    rw [gt_iff_lt, BitVec.not_lt, BitVec.le_def, toNat_endPfn hfit] at hend
    refine .inr ⟨⟨_, rfl, (setBits_written s _ _ (passes_fit _ _)).of_range fun p => passes_range⟩, ?_⟩
    ext p
    show (reserveSidx s.bdata addr).toNat ≤ p ∧ p < (reserveEidx s.bdata addr size).toNat ↔
      p < s.bdata.pages ∧ ∃ y, addr.toNat ≤ y ∧ y < addr.toNat + size.toNat ∧
        y / 4096 = p + s.bdata.nodeBootStart.toNat / 4096
    rw [hsidx, heidx, BootmemData.pages]
    constructor
    · rintro ⟨hlo, hhi⟩
      refine ⟨by omega, ?_⟩
      rcases Nat.lt_or_ge addr.toNat ((p + s.bdata.nodeBootStart.toNat / 4096) * 4096) with hfirst | hfirst
      · exact ⟨(p + s.bdata.nodeBootStart.toNat / 4096) * 4096, hfirst.le, by omega, by omega⟩
      · exact ⟨addr.toNat, le_rfl, by omega, by omega⟩
    · rintro ⟨-, y, hlo, hhi, hpage⟩
      omega

/-- A range that ends a page before the node or earlier sets bits that are not in the bitmap. -/
theorem not_reservesExactly_of_lt (hnode : s.bdata.PagedNode) (hsize : size ≠ 0)
    (hlt : addr.toNat + size.toNat + 4095 < s.bdata.nodeBootStart.toNat) : ¬ s.ReservesExactly addr size := by
  have haligned := hnode.aligned
  have hstart := hnode.start_lt
  have hwide := s.bdata.nodeBootStart.isLt
  have hne : size.toNat ≠ 0 := fun h => hsize (BitVec.eq_of_toNat_eq h)
  have hsidx := toNat_reserveSidx s.bdata addr
  have heidx := toNat_reserveEidx s.bdata addr size
  rw [Nat.mod_eq_of_lt (by omega)] at hsidx
  rw [Nat.mod_eq_of_lt (a := addr.toNat + size.toNat) (by omega),
    Nat.mod_eq_of_lt (a := 2 ^ 32 - s.bdata.nodeBootStart.toNat + (addr.toNat + size.toNat)) (by omega),
    Nat.mod_eq_of_lt (by omega)] at heidx
  have hend := @toNat_endPfn addr size (by omega)
  have hless : (reserveSidx s.bdata addr).toNat < (reserveEidx s.bdata addr size).toNat := by omega
  rintro (hbug | ⟨-, hpages⟩)
  · rw [reserveBootmemCore_eq hsize, if_neg, if_neg, if_neg] at hbug
    · cases hbug
    · rw [gt_iff_lt, BitVec.not_lt, BitVec.le_def, hend]
      omega
    · rw [ge_iff_le, BitVec.not_le, BitVec.lt_def, toNat_shift]
      omega
    · rw [ge_iff_le, BitVec.not_le]
      exact BitVec.lt_def.mpr hless
  · have hmem : (reserveSidx s.bdata addr).toNat ∈ s.bdata.reservedPages addr size := ⟨le_rfl, hless⟩
    rw [hpages] at hmem
    obtain ⟨-, y, -, hy, hpage⟩ := hmem
    omega

theorem reservesExactly_iff (hnode : s.bdata.PagedNode) (hfit : addr.toNat + size.toNat + 4095 < 2 ^ 32) :
    s.ReservesExactly addr size ↔
      size = 0 ∨ s.bdata.nodeBootStart.toNat ≤ addr.toNat + size.toNat + 4095 := by
  by_cases hsize : size = 0
  · refine iff_of_true (.inl ?_) (.inl hsize)
    rw [reserveBootmemCore, if_pos hsize]
  rw [or_iff_right hsize]
  refine ⟨fun h => ?_, fun hle => reservesExactly_of_le hnode hfit hsize hle⟩
  by_contra hlt
  exact not_reservesExactly_of_lt hnode hsize (Nat.not_le.mp hlt) h

end

/-! ### Frees -/

/-- How the loop of `free_bootmem_core` ends. -/
inductive ClearSpec (s : Boot) (i : Word) (n : Nat) : Outcome Boot Unit → Prop
  | ret (t : Boot) (hwritten : BitsWritten s t i.toNat (i.toNat + n) false)
      (hset : ∀ nr : Word, i.toNat ≤ nr.toNat → nr.toNat < i.toNat + n → s.oldBit nr = true) :
      ClearSpec s i n (.ret () t)
  | first (hpos : 0 < n) (hclear : s.oldBit i = false) : ClearSpec s i n (.bug s)
  | later (t : Boot) (hfirst : s.oldBit i = true) (hchanged : t ≠ s)
      (hclear : ∃ nr : Word, i.toNat ≤ nr.toNat ∧ nr.toNat < i.toNat + n ∧ s.oldBit nr = false) :
      ClearSpec s i n (.bug t)

section

variable {s t : Boot} {i nr : Word} {n : Nat}

/-- The `btrl` of a bit that is clear changes nothing. -/
theorem clearBit_of_clear (h : s.oldBit nr = false) : s.clearBit nr = s := by
  have hmem : clearBitAt s.mem s.bdata.nodeBootmemMap nr = s.mem := by
    rw [clearBitAt, store8]
    refine Function.update_eq_self_iff.mpr ?_
    apply BitVec.eq_of_getLsbD_eq
    intro k hk
    rw [BitVec.getLsbD_and, BitVec.getLsbD_not, BitVec.getLsbD_twoPow]
    by_cases heq : nr.toNat % 8 = k
    · rw [Boot.oldBit, bitAt, heq] at h
      simp [h]
    · simp [hk, heq]
  rw [Boot.clearBit, hmem]

/-- A bit that is clear stays clear. -/
theorem clearBits_bug_clear (h : clearBits s i n = .bug t) (hclear : s.oldBit nr = false) : t.oldBit nr = false := by
  have hstep (s : Boot) (i : Word) (hclear : s.oldBit nr = false) : (s.clearBit i).oldBit nr = false := by
    rw [(bitsWritten_clearBit s i).bits, hclear, ite_self]
  induction n generalizing s i with
  | zero => cases h
  | succ n ih =>
      rw [clearBits] at h
      split at h
      · exact ih h (hstep s i hclear)
      · cases h
        exact hstep s i hclear

theorem clearBits_spec (s : Boot) (i : Word) (n : Nat) (hn : i.toNat + n < 2 ^ 32) :
    ClearSpec s i n (clearBits s i n) := by
  induction n generalizing s i with
  | zero => exact .ret s (.refl s _ _) fun nr h1 h2 => absurd h2 (by omega)
  | succ n ih =>
      have hsucc := toNat_succ (i := i) (by omega)
      have hstep := bitsWritten_clearBit s i
      cases hfirst : s.oldBit i with
      | false =>
          rw [clearBits, hfirst, if_neg Bool.false_ne_true, clearBit_of_clear hfirst]
          exact .first (Nat.succ_pos n) hfirst
      | true =>
          have hspec := ih (s.clearBit i) (i + 1) (by omega)
          have hgone : (s.clearBit i).oldBit i = false := by
            rw [hstep.bits, if_pos ⟨le_rfl, Nat.lt_succ_self _⟩]
          rw [clearBits, hfirst, if_pos rfl]
          generalize ho : clearBits (s.clearBit i) (i + 1) n = o at hspec
          cases hspec with
          | ret t hwritten hset =>
              rw [hsucc, show i.toNat + 1 + n = i.toNat + (n + 1) by omega] at hwritten
              refine .ret t (hstep.trans (by omega) (by omega) hwritten) fun nr h1 h2 => ?_
              rcases Nat.eq_or_lt_of_le h1 with heq | hlt
              · rw [← BitVec.eq_of_toNat_eq heq]
                exact hfirst
              · have hrest := hset nr (by omega) (by omega)
                rwa [hstep.bits, if_neg (by omega)] at hrest
          | first hpos hclear =>
              rw [hstep.bits, if_neg (by omega)] at hclear
              refine .later _ hfirst (fun heq => ?_) ⟨i + 1, by omega, by omega, hclear⟩
              rw [heq, hfirst] at hgone
              cases hgone
          | later t hfirst' _ hclear =>
              obtain ⟨nr, hlo, hhi, hclear⟩ := hclear
              rw [hstep.bits, if_neg (by omega)] at hclear
              refine .later t hfirst (fun heq => ?_) ⟨nr, by omega, by omega, hclear⟩
              have hgone := clearBits_bug_clear ho hgone
              rw [heq, hfirst] at hgone
              cases hgone

end

section

variable {s : Boot} {b : BootmemData} {addr size : Word}

theorem freeBootmemCore_eq (hsize : size ≠ 0) : freeBootmemCore s addr size =
    if (addr + size) / pageSize > s.bdata.nodeLowPfn then .bug s
    else clearBits s (freeSidx s.bdata addr) (passes (freeSidx s.bdata addr) (freeEidx s.bdata addr size)) := by
  rw [freeBootmemCore, if_neg hsize]
  rfl

theorem toNat_freeSidx (hfit : addr.toNat + size.toNat + 4095 < 2 ^ 32) : (freeSidx b addr).toNat =
    (2 ^ 32 - b.nodeBootStart.toNat / 4096 + (addr.toNat + 4095) / 4096) % 2 ^ 32 := by
  have hround : addr + pageSize - 1 = addr + 4095 := by
    rw [BitVec.sub_eq_add_neg _ (1 : Word), BitVec.add_assoc]
    rfl
  have hlast : (4095 : Word).toNat = 4095 := rfl
  rw [freeSidx, BitVec.toNat_sub, toNat_div_pageSize, toNat_div_pageSize, hround, BitVec.toNat_add, hlast,
    Nat.mod_eq_of_lt (a := addr.toNat + 4095) (by omega)]

theorem toNat_freeEidx (hfit : addr.toNat + size.toNat + 4095 < 2 ^ 32) : (freeEidx b addr size).toNat =
    (2 ^ 32 - b.nodeBootStart.toNat + (addr.toNat + size.toNat)) % 2 ^ 32 / 4096 := by
  rw [freeEidx, toNat_div_pageSize, BitVec.toNat_sub, BitVec.toNat_add, Nat.mod_eq_of_lt (a := addr.toNat + size.toNat)]
  omega

/-- A range that begins in the page before the node or later. -/
theorem toNat_freeSidx_of_le (hnode : b.PagedNode) (hfit : addr.toNat + size.toNat + 4095 < 2 ^ 32)
    (hle : b.nodeBootStart.toNat ≤ addr.toNat + 4095) :
    (freeSidx b addr).toNat = (addr.toNat + 4095) / 4096 - b.nodeBootStart.toNat / 4096 := by
  have haligned := hnode.aligned
  have hwide := b.nodeBootStart.isLt
  have hsum : 2 ^ 32 - b.nodeBootStart.toNat / 4096 + (addr.toNat + 4095) / 4096 =
      (addr.toNat + 4095) / 4096 - b.nodeBootStart.toNat / 4096 + 2 ^ 32 := by omega
  rw [toNat_freeSidx hfit, hsum, Nat.add_mod_right, Nat.mod_eq_of_lt (by omega)]

/-- The loop makes no pass for a range that begins earlier. -/
theorem freedPages_eq_empty (hnode : b.PagedNode) (hfit : addr.toNat + size.toNat + 4095 < 2 ^ 32)
    (hlt : addr.toNat + 4095 < b.nodeBootStart.toNat) : freedPages b addr size = ∅ := by
  have haligned := hnode.aligned
  have hwide := b.nodeBootStart.isLt
  have hsidx := toNat_freeSidx (b := b) hfit
  rw [Nat.mod_eq_of_lt (by omega)] at hsidx
  have heidx := toNat_freeEidx (b := b) hfit
  have hmod := Nat.mod_lt (2 ^ 32 - b.nodeBootStart.toNat + (addr.toNat + size.toNat)) (by decide : 0 < 2 ^ 32)
  refine Set.eq_empty_iff_forall_notMem.mpr fun p hp => ?_
  obtain ⟨hlo, hhi⟩ := hp
  omega

/-- In the page before the node the loop begins at page 0 and does not end in the node. -/
theorem freedPages_of_inPageBefore (hnode : b.PagedNode) (hfit : addr.toNat + size.toNat + 4095 < 2 ^ 32)
    (hbefore : b.InPageBefore addr size) : (freeSidx b addr).toNat = 0 ∧ (freeEidx b addr size).toNat = 2 ^ 20 - 1 := by
  obtain ⟨hlt, hle⟩ := hbefore
  have haligned := hnode.aligned
  have hwide := b.nodeBootStart.isLt
  have hsidx := toNat_freeSidx_of_le hnode hfit hle
  have heidx := toNat_freeEidx (b := b) hfit
  rw [Nat.mod_eq_of_lt (by omega)] at heidx
  omega

/-- The indices of the loop are the pages inside the range, for the ranges in the node. -/
theorem freedPages_eq_pagesInside (hnode : b.PagedNode) (hfit : addr.toNat + size.toNat + 4095 < 2 ^ 32)
    (hend : (addr.toNat + size.toNat) / 4096 ≤ b.nodeLowPfn.toNat) (hbefore : ¬ b.InPageBefore addr size)
    (hbegins : ¬ b.BeginsBefore addr size) : freedPages b addr size = b.pagesInside addr size := by
  have haligned := hnode.aligned
  have hwide := b.nodeBootStart.isLt
  rw [InPageBefore] at hbefore
  rw [BeginsBefore] at hbegins
  ext p
  show _ ↔ p < b.pages ∧ addr.toNat ≤ (p + b.nodeBootStart.toNat / 4096) * 4096 ∧
    (p + b.nodeBootStart.toNat / 4096 + 1) * 4096 ≤ addr.toNat + size.toNat
  rcases Nat.lt_or_ge (addr.toNat + 4095) b.nodeBootStart.toNat with hlow | hhigh
  · rw [freedPages_eq_empty hnode hfit hlow]
    refine iff_of_false (Set.notMem_empty p) ?_
    rintro ⟨-, -, hcovered⟩
    omega
  · have hsidx := toNat_freeSidx_of_le hnode hfit hhigh
    have heidx := toNat_freeEidx (b := b) hfit
    have hsum : 2 ^ 32 - b.nodeBootStart.toNat + (addr.toNat + size.toNat) =
        addr.toNat + size.toNat - b.nodeBootStart.toNat + 2 ^ 32 := by omega
    rw [hsum, Nat.add_mod_right, Nat.mod_eq_of_lt (by omega)] at heidx
    show (freeSidx b addr).toNat ≤ p ∧ p < (freeEidx b addr size).toNat ↔ _
    rw [hsidx, heidx, BootmemData.pages]
    omega

/-- They are not for the others. -/
theorem not_inPageBefore_of_freedPages (hnode : b.PagedNode) (hfit : addr.toNat + size.toNat + 4095 < 2 ^ 32)
    (hpages : freedPages b addr size = b.pagesInside addr size) :
    ¬ b.InPageBefore addr size ∧ ¬ b.BeginsBefore addr size := by
  have haligned := hnode.aligned
  have hstart := hnode.start_lt
  constructor
  · intro hbefore
    obtain ⟨hsidx, heidx⟩ := freedPages_of_inPageBefore hnode hfit hbefore
    have hmem : 0 ∈ freedPages b addr size := ⟨hsidx.le, by rw [heidx]; decide⟩
    rw [hpages] at hmem
    obtain ⟨-, -, hcovered⟩ := hmem
    have hlt := hbefore.1
    omega
  · rintro ⟨hlow, hhigh⟩
    have hmem : 0 ∈ b.pagesInside addr size := ⟨by rw [BootmemData.pages]; omega, by omega, by omega⟩
    rw [← hpages, freedPages_eq_empty hnode hfit (by omega)] at hmem
    exact hmem

/-- What a free that passes the checks needs. -/
def Boot.FreeRange (s : Boot) (addr size : Word) : Prop :=
  (s.bdata.InPageBefore addr size ∧ s.reserved 0 = false) ∨
    (¬ s.bdata.InPageBefore addr size ∧ ¬ s.bdata.BeginsBefore addr size ∧
      ((∀ p ∈ s.bdata.pagesInside addr size, s.reserved p = true) ∨
        ∃ p, IsLeast (s.bdata.pagesInside addr size) p ∧ s.reserved p = false))

/-- When the loop comes to reserved pages only, its indices decide. -/
theorem freeRange_iff_of_reserved (hnode : s.bdata.PagedNode) (hfit : addr.toNat + size.toNat + 4095 < 2 ^ 32)
    (hend : (addr.toNat + size.toNat) / 4096 ≤ s.bdata.nodeLowPfn.toNat)
    (hall : ∀ p ∈ freedPages s.bdata addr size, s.reserved p = true) :
    s.FreeRange addr size ↔ freedPages s.bdata addr size = s.bdata.pagesInside addr size := by
  constructor
  · rintro (⟨hbefore, hclear⟩ | ⟨hbefore, hbegins, -⟩)
    · obtain ⟨hsidx, heidx⟩ := freedPages_of_inPageBefore hnode hfit hbefore
      rw [hall 0 ⟨hsidx.le, by rw [heidx]; decide⟩] at hclear
      cases hclear
    · exact freedPages_eq_pagesInside hnode hfit hend hbefore hbegins
  · intro hpages
    obtain ⟨hbefore, hbegins⟩ := not_inPageBefore_of_freedPages hnode hfit hpages
    exact .inr ⟨hbefore, hbegins, .inl (hpages ▸ hall)⟩

/-- A free page at the first index stops the loop before it changes anything. -/
theorem freeRange_of_first (hnode : s.bdata.PagedNode) (hfit : addr.toNat + size.toNat + 4095 < 2 ^ 32)
    (hend : (addr.toNat + size.toNat) / 4096 ≤ s.bdata.nodeLowPfn.toNat)
    (hmem : (freeSidx s.bdata addr).toNat ∈ freedPages s.bdata addr size)
    (hclear : s.reserved (freeSidx s.bdata addr).toNat = false) : s.FreeRange addr size := by
  by_cases hbefore : s.bdata.InPageBefore addr size
  · rw [(freedPages_of_inPageBefore hnode hfit hbefore).1] at hclear
    exact .inl ⟨hbefore, hclear⟩
  · have hbegins : ¬ s.bdata.BeginsBefore addr size := fun hbegins => by
      have hlow := hbegins.1
      rw [freedPages_eq_empty hnode hfit (by omega)] at hmem
      exact hmem
    have hpages := freedPages_eq_pagesInside hnode hfit hend hbefore hbegins
    refine .inr ⟨hbefore, hbegins, .inr ⟨_, ⟨hpages ▸ hmem, fun p hp => ?_⟩, hclear⟩⟩
    rw [← hpages] at hp
    exact hp.1

/-- A free page behind a reserved one stops it too late. -/
theorem not_freeRange_of_later (hnode : s.bdata.PagedNode) (hfit : addr.toNat + size.toNat + 4095 < 2 ^ 32)
    (hend : (addr.toNat + size.toNat) / 4096 ≤ s.bdata.nodeLowPfn.toNat) {nr : Word}
    (hset : s.reserved (freeSidx s.bdata addr).toNat = true) (hmem : nr.toNat ∈ freedPages s.bdata addr size)
    (hclear : s.oldBit nr = false) : ¬ s.FreeRange addr size := by
  rintro (⟨hbefore, hzero⟩ | ⟨hbefore, hbegins, hall | ⟨p, hleast, hzero⟩⟩)
  · rw [(freedPages_of_inPageBefore hnode hfit hbefore).1, hzero] at hset
    cases hset
  · have hbit := hall nr.toNat (freedPages_eq_pagesInside hnode hfit hend hbefore hbegins ▸ hmem)
    rw [reserved_toNat, hclear] at hbit
    cases hbit
  · rw [← freedPages_eq_pagesInside hnode hfit hend hbefore hbegins] at hleast
    have hle := hleast.2 ⟨le_rfl, lt_of_le_of_lt hmem.1 hmem.2⟩
    rw [Nat.le_antisymm hle hleast.1.1, hset] at hzero
    cases hzero

/-- A free that passes the checks. -/
theorem freesExactly_iff_of_le (hnode : s.bdata.PagedNode) (hfit : addr.toNat + size.toNat + 4095 < 2 ^ 32)
    (hsize : size ≠ 0) (hend : (addr.toNat + size.toNat) / 4096 ≤ s.bdata.nodeLowPfn.toNat) :
    s.FreesExactly addr size ↔ s.FreeRange addr size := by
  have hchecks : ¬ (addr + size) / pageSize > s.bdata.nodeLowPfn := by
    rw [gt_iff_lt, BitVec.not_lt, BitVec.le_def, toNat_div_pageSize, BitVec.toNat_add, Nat.mod_eq_of_lt (by omega)]
    exact hend
  have hspec := clearBits_spec s (freeSidx s.bdata addr) _ (passes_fit _ (freeEidx s.bdata addr size))
  have hfirst : s.reserved (freeSidx s.bdata addr).toNat = s.oldBit (freeSidx s.bdata addr) := reserved_toNat s _
  rw [Boot.FreesExactly, freeBootmemCore_eq hsize, if_neg hchecks]
  generalize clearBits s (freeSidx s.bdata addr) _ = o at hspec
  cases hspec with
  | ret t hwritten hset =>
      have hall : ∀ p ∈ freedPages s.bdata addr size, s.reserved p = true := by
        intro p hp
        have hlt : p < 2 ^ 32 := lt_trans hp.2 (freeEidx s.bdata addr size).isLt
        obtain ⟨hlo, hhi⟩ := passes_range.mpr hp
        rw [Boot.reserved]
        exact hset _ (by rwa [ofNat_toNat_of_lt hlt]) (by rwa [ofNat_toNat_of_lt hlt])
      rw [freeRange_iff_of_reserved hnode hfit hend hall]
      constructor
      · rintro (hbug | ⟨-, hpages⟩)
        · cases hbug
        · exact hpages
      · intro hpages
        exact .inr ⟨⟨t, rfl, hwritten.of_range fun p => passes_range⟩, hpages⟩
  | first hpos hclear =>
      have hmem : (freeSidx s.bdata addr).toNat ∈ freedPages s.bdata addr size :=
        passes_range.mp ⟨le_rfl, Nat.lt_add_of_pos_right hpos⟩
      exact iff_of_true (.inl rfl) (freeRange_of_first hnode hfit hend hmem (hfirst.trans hclear))
  | later t hset hchanged hclear =>
      obtain ⟨nr, hlo, hhi, hclear⟩ := hclear
      rw [← hfirst] at hset
      refine iff_of_false ?_ (not_freeRange_of_later hnode hfit hend hset (passes_range.mp ⟨hlo, hhi⟩) hclear)
      rintro (hbug | ⟨⟨t', hret, -⟩, -⟩)
      · cases hbug
        exact hchanged rfl
      · cases hret

theorem freesExactly_iff (hnode : s.bdata.PagedNode) (hfit : addr.toNat + size.toNat + 4095 < 2 ^ 32) :
    s.FreesExactly addr size ↔ s.FreeFits addr size := by
  by_cases hsize : size = 0
  · refine iff_of_true (.inl ?_) (.inl hsize)
    rw [freeBootmemCore, if_pos hsize]
  rw [Boot.FreeFits, or_iff_right hsize]
  rcases Nat.lt_or_ge s.bdata.nodeLowPfn.toNat ((addr.toNat + size.toNat) / 4096) with hbehind | hend
  · refine iff_of_true (.inl ?_) (.inl hbehind)
    rw [freeBootmemCore_eq hsize, if_pos]
    rw [gt_iff_lt, BitVec.lt_def, toNat_div_pageSize, BitVec.toNat_add, Nat.mod_eq_of_lt (by omega)]
    exact hbehind
  · rw [or_iff_right (Nat.not_lt.mpr hend)]
    exact freesExactly_iff_of_le hnode hfit hsize hend

/-- **The bits that are touched**: exactly which reservations and which frees either stop at a `BUG` before they change
the bitmap or touch the pages of their range and no others. -/
theorem touches_exactly_iff (hnode : s.bdata.PagedNode) (hfit : addr.toNat + size.toNat + 4095 < 2 ^ 32) :
    (s.ReservesExactly addr size ↔
        size = 0 ∨ s.bdata.nodeBootStart.toNat ≤ addr.toNat + size.toNat + 4095) ∧
      (s.FreesExactly addr size ↔ s.FreeFits addr size) :=
  ⟨reservesExactly_iff hnode hfit, freesExactly_iff hnode hfit⟩

end

/-- A node of eight pages: a reservation of page 2, and a free of the whole pages 2 to 4 of a range that begins inside
page 1 and ends inside page 5. -/
theorem touches_exactly_page_two : (initBootmemCore bootStart 0x100 0 8).2.ReservesExactly 0x2000 0x1000 ∧
    (initBootmemCore bootStart 0x100 0 8).2.FreesExactly 0x1800 0x3900 := by
  have hfits : (initBootmemCore bootStart 0x100 0 8).2.FreeFits 0x1800 0x3900 := by
    refine .inr (.inr (.inr ⟨fun h => absurd h.1 (by decide), fun h => absurd h.1 (by decide), .inl fun p hp => ?_⟩))
    have hp : p < 8 := hp.1
    exact initBootmemCore_reserved (by decide) (by decide) (by decide) (by simpa using hp)
  exact ⟨(touches_exactly_iff ⟨by decide, by decide⟩ (by decide)).1.mpr (.inr (by decide)),
    (touches_exactly_iff ⟨by decide, by decide⟩ (by decide)).2.mpr hfits⟩

/-- A node that starts at page 16: a reservation of page 2 sets a bit that is not in the bitmap, and a free of the pages
14 to 17 leaves the pages 16 and 17 reserved. -/
theorem touches_pages_below_node :
    ¬ (initBootmemCore bootStart 0x100 16 24).2.ReservesExactly 0x2000 0x1000 ∧
      ¬ (initBootmemCore bootStart 0x100 16 24).2.FreesExactly 0xE000 0x4000 := by
  have hnode : (initBootmemCore bootStart 0x100 16 24).2.bdata.PagedNode := ⟨by decide, by decide⟩
  refine ⟨not_reservesExactly_of_lt hnode (by decide) (by decide), fun hfrees => ?_⟩
  rcases (freesExactly_iff hnode (by decide)).mp hfrees with hsize | hbehind | ⟨⟨hlt, -⟩, -⟩ | ⟨-, hbegins, -⟩
  · exact absurd hsize (by decide)
  · exact absurd hbehind (by decide)
  · exact absurd hlt (by decide)
  · exact hbegins ⟨by decide, by decide⟩

end XosKernel.Bootmem
