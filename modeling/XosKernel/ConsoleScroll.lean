import XosKernel.ConsoleLayout

/-! The two directions of `scroll_sceen` on the whole screen. A cell is its character and its attribute. Scrolling
down copies from the first cell on and moves every row; scrolling up copies from the last row back, and its loop starts
at the first cell of row 24 and stops before the first cell of row 1, so the rest of row 24 and one cell of row 1
keep what they held. -/

namespace XosKernel.Print

/-- The character and the attribute of a cell. -/
def Console.cellAt (c : Console) (r k : Nat) : Byte × Byte := (c.vram (cellOffset r k), c.vram (cellOffset r k + 1))

/-- What a blank cell holds. -/
def blankCell : Byte × Byte := (chNul, colorDefault)

/-- Every row of `d` below row 24 is the next row of `c`, and row 24 is blank. -/
structure RowsUp (c d : Console) : Prop where
  moved : ∀ r k, r < 24 → k < 80 → d.cellAt r k = c.cellAt (r + 1) k
  blank : ∀ k, k < 80 → d.cellAt 24 k = blankCell

/-- Every row of `d` but the first is the row before it in `c`, and row 0 is blank. -/
structure RowsDown (c d : Console) : Prop where
  moved : ∀ r k, r < 24 → k < 80 → d.cellAt (r + 1) k = c.cellAt r k
  blank : ∀ k, k < 80 → d.cellAt 0 k = blankCell

theorem scrollSceen_down_rowsUp (c : Console) : RowsUp c (c.scrollSceen screenDown) := by
  have hvram := (scrollSceen_down c).1.vram
  change ∀ offset, (c.scrollSceen screenDown).vram offset = _ at hvram
  constructor
  · intro r k hr hk
    have hplace : cellOffset (r + 1) k = cellOffset r k + 160 := by
      simp only [cellOffset]
      omega
    have hlo : 0 ≤ cellOffset r k ∧ cellOffset r k + 1 < 3840 := by
      simp only [cellOffset]
      omega
    rw [Console.cellAt, Console.cellAt, hvram, hvram, if_pos (by omega), if_pos (by omega), hplace,
      Int.add_right_comm (cellOffset r k) 1 160]
  · intro k hk
    have hlo : 3840 ≤ cellOffset 24 k ∧ cellOffset 24 k + 1 < 4000 ∧ cellOffset 24 k % 2 = 0 := by
      simp only [cellOffset]
      omega
    rw [Console.cellAt, hvram, hvram, if_neg (by omega), if_pos (by omega), if_pos (by omega), if_neg (by omega),
      if_pos (by omega), if_neg (by omega)]
    rfl

/-- The downward copy of `scroll_sceen`: a cell is read before the loop, on its way back, reaches it. -/
theorem forUp_copyCell_up (c : Console) (n : Nat) (hn : n ≤ 1840) :
    CellLoop c (Loop.forUp (fun k c => c.copyCell (3840 - 2 * k) (3840 - 2 * k - 160)) n c) fun offset =>
      if 3842 - 2 * n ≤ offset ∧ offset < 3842 then c.vram (offset - 160) else c.vram offset := by
  refine Loop.forUp_inv (fun i d => CellLoop c d fun offset =>
    if 3842 - 2 * i ≤ offset ∧ offset < 3842 then c.vram (offset - 160) else c.vram offset) ?_ ?_
  · refine ⟨rfl, rfl, fun offset => ?_, .of_eq rfl⟩
    rw [if_neg (by omega)]
  · intro i d hi h
    refine ⟨h.cursorX, h.cursorY, fun offset => ?_, h.stores.trans (.cell (by omega) (by omega) rfl)⟩
    have hread := h.vram (3840 - 2 * i - 160)
    have hread' := h.vram (3840 - 2 * i - 160 + 1)
    rw [if_neg (by omega)] at hread hread'
    simp only [Console.copyCell, Console.poke, Function.update_apply, h.vram offset, hread, hread']
    split_ifs <;> first | rfl | omega | (congr 1; omega)

/-- The bytes that `scroll_sceen(SCREEN_UP)` leaves. -/
theorem scrollSceen_up_vram (c : Console) (offset : Int) :
    (c.scrollSceen screenUp).vram offset =
      if 0 ≤ offset ∧ offset < 160 then if offset % 2 = 0 then chNul else colorDefault
      else if 162 ≤ offset ∧ offset < 3842 then c.vram (offset - 160)
      else c.vram offset := by
  simp only [Console.scrollSceen, Console.flush, if_true]
  have hcopy := forUp_copyCell_up c 1840 (by decide)
  generalize Loop.forUp (fun k c => c.copyCell (3840 - 2 * k) (3840 - 2 * k - 160)) 1840 c = copied at hcopy ⊢
  have hblank := forUp_pokeCell copied 0 80 (by decide) (by decide)
  simp only [Int.zero_add, Int.sub_zero] at hblank
  rw [hblank.vram, hcopy.vram]
  split_ifs <;> first | rfl | omega

/-- The cells that the loop over the rows leaves out hold the cells above them already. -/
structure MissedCells (c : Console) : Prop where
  first : c.cellAt 1 0 = c.cellAt 0 0
  last : ∀ k, 0 < k → k < 80 → c.cellAt 24 k = c.cellAt 23 k

/-- A cell below row 0 comes from the row above, or is one of those that the loop leaves out. -/
theorem scrollSceen_up_cellAt (c : Console) {r k : Nat} (hr : r < 24) (hk : k < 80) :
    (c.scrollSceen screenUp).cellAt (r + 1) k =
      if (r = 0 ∧ k = 0) ∨ (r = 23 ∧ 0 < k) then c.cellAt (r + 1) k else c.cellAt r k := by
  have hplace : cellOffset (r + 1) k = cellOffset r k + 160 := by
    simp only [cellOffset]
    omega
  have hoffset : cellOffset r k = 160 * r + 2 * k := rfl
  have hbyte : ∀ b : Int, 0 ≤ b ∧ b ≤ 1 → (c.scrollSceen screenUp).vram (cellOffset r k + 160 + b) =
      if (r = 0 ∧ k = 0) ∨ (r = 23 ∧ 0 < k) then c.vram (cellOffset r k + 160 + b)
      else c.vram (cellOffset r k + b) := by
    intro b hb
    rw [scrollSceen_up_vram, if_neg (by omega)]
    by_cases hmissed : (r = 0 ∧ k = 0) ∨ (r = 23 ∧ 0 < k)
    · rw [if_pos hmissed, if_neg (by omega)]
    · rw [if_neg hmissed, if_pos (by omega), Int.add_right_comm, Int.add_sub_cancel]
  have hchar := hbyte 0 (by decide)
  have hattr := hbyte 1 (by decide)
  rw [Int.add_zero, Int.add_zero] at hchar
  rw [Console.cellAt, hplace, hchar, hattr, Console.cellAt, Console.cellAt, hplace]
  split <;> rfl

theorem scrollSceen_up_blank (c : Console) {k : Nat} (hk : k < 80) :
    (c.scrollSceen screenUp).cellAt 0 k = blankCell := by
  have hoffset : cellOffset 0 k = 2 * k := by
    simp only [cellOffset]
    omega
  rw [Console.cellAt, scrollSceen_up_vram, scrollSceen_up_vram, if_pos (by omega), if_pos (by omega),
    if_pos (by omega), if_neg (by omega)]
  rfl

theorem scrollSceen_up_rowsDown_iff (c : Console) : RowsDown c (c.scrollSceen screenUp) ↔ MissedCells c := by
  constructor
  · intro h
    constructor
    · have hcell := h.moved 0 0 (by decide) (by decide)
      rwa [scrollSceen_up_cellAt c (by decide) (by decide), if_pos (.inl ⟨rfl, rfl⟩)] at hcell
    · intro k hpos hk
      have hcell := h.moved 23 k (by decide) hk
      rwa [scrollSceen_up_cellAt c (by decide) hk, if_pos (.inr ⟨rfl, hpos⟩)] at hcell
  · intro h
    refine ⟨fun r k hr hk => ?_, fun k hk => scrollSceen_up_blank c hk⟩
    rw [scrollSceen_up_cellAt c hr hk]
    split
    · rename_i hmissed
      rcases hmissed with ⟨rfl, rfl⟩ | ⟨rfl, hpos⟩
      · exact h.first
      · exact h.last k hpos hk
    · rfl

/-- Both directions move the rows as they should exactly when the cells that scrolling up leaves out hold the cells
above them. -/
theorem scrollSceen_rows_iff (c : Console) :
    (RowsUp c (c.scrollSceen screenDown) ∧ RowsDown c (c.scrollSceen screenUp)) ↔ MissedCells c :=
  (and_iff_right (scrollSceen_down_rowsUp c)).trans (scrollSceen_up_rowsDown_iff c)

/-- A screen of blanks with one letter in the last but one row. -/
def oneLetter : Console := (⟨0, 0, fun _ => 0, 0, []⟩ : Console).pokeCell (cellOffset 23 1) 0x41

/-- The letter does not move to the last row. -/
theorem scrollSceen_up_oneLetter :
    ¬ (RowsUp oneLetter (oneLetter.scrollSceen screenDown) ∧ RowsDown oneLetter (oneLetter.scrollSceen screenUp)) := by
  rintro ⟨-, h⟩
  have hcell := h.moved 23 1 (by decide) (by decide)
  rw [scrollSceen_up_cellAt oneLetter (by decide) (by decide), if_pos (.inr ⟨rfl, by decide⟩)] at hcell
  revert hcell
  decide

end XosKernel.Print
