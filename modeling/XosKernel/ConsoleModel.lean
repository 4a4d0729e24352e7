import XosKernel.LoopRules

/-! The text console of the x86 port: the cursor, the video memory and the hardware cursor, and the
functions that print to it. Video memory is addressed by the byte offset from its base. The list of the
offsets stored to is kept beside it, so that a store outside the screen is visible even when it does not
change the byte. -/

namespace XosKernel.Print

abbrev Byte := BitVec 8

abbrev screenWidth : Int := 80
abbrev screenHeight : Int := 25

abbrev screenUp : Int := -1
abbrev screenDown : Int := 1

/-- `MAKE_COLOR(TEXT_BLACK, TEXT_WHITE)`. -/
abbrev colorDefault : Byte := 0x07

abbrev chNul : Byte := 0x00
abbrev chBackspace : Byte := 0x08
abbrev chNewline : Byte := 0x0a
abbrev chReturn : Byte := 0x0d

/-- `cursor_x`, `cursor_y`, the bytes of video memory and the cursor register of the CRT controller.
`stored` lists the offsets of the byte stores made so far, the last one first. -/
structure Console where
  cursorX : Int
  cursorY : Int
  vram : Int → Byte
  hwCursor : BitVec 16
  stored : List Int

namespace Console

/-- One byte store to video memory. -/
def poke (c : Console) (offset : Int) (value : Byte) : Console :=
  { c with vram := Function.update c.vram offset value, stored := offset :: c.stored }

/-- The character and the attribute of a cell, two byte stores. -/
def pokeCell (c : Console) (offset : Int) (ch : Byte) : Console :=
  (c.poke offset ch).poke (offset + 1) colorDefault

/-- Both bytes of a cell from another one. -/
def copyCell (c : Console) (offset source : Int) : Console :=
  let c := c.poke offset (c.vram source)
  c.poke (offset + 1) (c.vram (source + 1))

/-- `set_cursor` of the cursor position, an `unsigned short`. -/
def flush (c : Console) : Console :=
  { c with hwCursor := BitVec.ofInt 16 (c.cursorY * screenWidth + c.cursorX) }

/-- `scroll_sceen`. The loops step through the cells, two bytes at a time. -/
def scrollSceen (c : Console) (direction : Int) : Console :=
  flush <|
    if direction = screenUp then
      -- from the first cell of the last row down to the second cell of row 1
      let c := Loop.forUp (fun k c => c.copyCell (3840 - 2 * k) (3840 - 2 * k - 160)) 1840 c
      Loop.forUp (fun k c => c.pokeCell (2 * k) chNul) 80 c
    else if direction = screenDown then
      let c := Loop.forUp (fun k c => c.copyCell (2 * k) (2 * k + 160)) 1920 c
      let c := Loop.forUp (fun k c => c.pokeCell (3840 + 2 * k) chNul) 80 c
      { c with cursorY := c.cursorY - 1 }
    else c

end Console

open Console

/-- A cell of the screen is stored at: the byte offset lies in `[0, SCREEN_WIDTH * SCREEN_HEIGHT * 2)`. -/
def InScreen (offset : Int) : Prop := 0 ≤ offset ∧ offset < screenWidth * screenHeight * 2

/-- `d` comes from `c` by stores inside the screen. -/
def StoresInScreen (c d : Console) : Prop :=
  ∃ offsets, d.stored = offsets ++ c.stored ∧ ∀ offset ∈ offsets, InScreen offset

theorem StoresInScreen.of_eq {c d : Console} (h : d.stored = c.stored) : StoresInScreen c d :=
  ⟨[], h, fun _ hmem => absurd hmem List.not_mem_nil⟩

theorem StoresInScreen.trans {c d e : Console} (hcd : StoresInScreen c d) (hde : StoresInScreen d e) :
    StoresInScreen c e := by
  obtain ⟨first, hfirst, hin⟩ := hcd
  obtain ⟨second, hsecond, hin'⟩ := hde
  refine ⟨second ++ first, by rw [hsecond, hfirst, List.append_assoc], fun offset hmem => ?_⟩
  rcases List.mem_append.mp hmem with h | h
  · exact hin' offset h
  · exact hin offset h

theorem StoresInScreen.cell {c d : Console} {offset : Int} (hlo : 0 ≤ offset) (hhi : offset < 3999)
    (h : d.stored = [offset + 1, offset] ++ c.stored) : StoresInScreen c d := by
  refine ⟨_, h, fun o hmem => ?_⟩
  simp only [List.mem_cons, List.not_mem_nil, or_false] at hmem
  rcases hmem with rfl | rfl <;> simp only [InScreen, screenWidth, screenHeight] <;> omega

/-- What a loop over cells does: it leaves the cursor, turns the video memory into `mem` and stores
inside the screen only. -/
structure CellLoop (c d : Console) (mem : Int → Byte) : Prop where
  cursorX : d.cursorX = c.cursorX
  cursorY : d.cursorY = c.cursorY
  vram : ∀ offset, d.vram offset = mem offset
  stores : StoresInScreen c d

/-- The upward copy of `scroll_sceen`: a cell is read before the loop reaches it. -/
theorem forUp_copyCell_down (c : Console) (n : Nat) (hn : n ≤ 1920) :
    CellLoop c (Loop.forUp (fun k c => c.copyCell (2 * k) (2 * k + 160)) n c)
      fun offset => if 0 ≤ offset ∧ offset < 2 * n then c.vram (offset + 160) else c.vram offset := by
  refine Loop.forUp_inv (fun i d => CellLoop c d fun offset =>
    if 0 ≤ offset ∧ offset < 2 * i then c.vram (offset + 160) else c.vram offset) ?_ ?_
  · refine ⟨rfl, rfl, fun offset => ?_, .of_eq rfl⟩
    rw [if_neg (by omega)]
  · intro i d hi h
    refine ⟨h.cursorX, h.cursorY, fun offset => ?_, h.stores.trans (.cell (by omega) (by omega) rfl)⟩
    have hread := h.vram (2 * i + 160)
    have hread' := h.vram (2 * i + 160 + 1)
    rw [if_neg (by omega)] at hread hread'
    simp only [copyCell, poke, Function.update_apply, h.vram offset, hread, hread']
    split_ifs <;> first | rfl | omega | (congr 1; omega)

/-- Blanking `n` cells from an even offset of the screen on. -/
theorem forUp_pokeCell (c : Console) (base : Int) (n : Nat) (hlo : 0 ≤ base) (hhi : base + 2 * n ≤ 4000) :
    CellLoop c (Loop.forUp (fun k c => c.pokeCell (base + 2 * k) chNul) n c) fun offset =>
      if base ≤ offset ∧ offset < base + 2 * n then
        if (offset - base) % 2 = 0 then chNul else colorDefault
      else c.vram offset := by
  refine Loop.forUp_inv (fun i d => CellLoop c d fun offset =>
    if base ≤ offset ∧ offset < base + 2 * i then
      if (offset - base) % 2 = 0 then chNul else colorDefault
    else c.vram offset) ?_ ?_
  · refine ⟨rfl, rfl, fun offset => ?_, .of_eq rfl⟩
    rw [if_neg (by omega)]
  · intro i d hi h
    refine ⟨h.cursorX, h.cursorY, fun offset => ?_, h.stores.trans (.cell (by omega) (by omega) rfl)⟩
    simp only [pokeCell, poke, Function.update_apply, h.vram offset]
    split_ifs <;> first | rfl | omega

/-- `scroll_sceen(SCREEN_DOWN)` moves every row up by one, blanks the last row and moves the cursor one
row up. -/
theorem scrollSceen_down (c : Console) :
    CellLoop c { c.scrollSceen screenDown with cursorY := c.cursorY } (fun offset =>
      if 0 ≤ offset ∧ offset < 3840 then c.vram (offset + 160)
      else if 3840 ≤ offset ∧ offset < 4000 then if offset % 2 = 0 then chNul else colorDefault
      else c.vram offset) ∧
      (c.scrollSceen screenDown).cursorY = c.cursorY - 1 := by
  simp only [scrollSceen, screenDown, screenUp, flush, if_true, if_neg (show ¬ (1 : Int) = -1 by decide)]
  have hcopy := forUp_copyCell_down c 1920 (by decide)
  generalize Loop.forUp (fun k c => c.copyCell (2 * k) (2 * k + 160)) 1920 c = copied at hcopy ⊢
  have hblank := forUp_pokeCell copied 3840 80 (by decide) (by decide)
  generalize Loop.forUp (fun k c => c.pokeCell (3840 + 2 * k) chNul) 80 copied = blanked at hblank ⊢
  have hstores : StoresInScreen c blanked := hcopy.stores.trans hblank.stores
  refine ⟨⟨hblank.cursorX.trans hcopy.cursorX, rfl, fun offset => ?_, hstores.trans (.of_eq rfl)⟩, ?_⟩
  · show blanked.vram offset = _
    rw [hblank.vram, hcopy.vram]
    split_ifs <;> first | rfl | omega
  · show blanked.cursorY - 1 = _
    rw [hblank.cursorY, hcopy.cursorY]

/-- The loop `while (cursor_y > SCREEN_HEIGHT - 1)` of `put_char`. -/
def scrollWhile (c : Console) : Console :=
  if c.cursorY > screenHeight - 1 then scrollWhile (c.scrollSceen screenDown) else c
termination_by (c.cursorY - (screenHeight - 1)).toNat
decreasing_by
  rw [(scrollSceen_down c).2]
  simp only [screenHeight] at *
  omega

theorem scrollWhile_of_le {c : Console} (h : c.cursorY ≤ 24) : scrollWhile c = c := by
  rw [scrollWhile, if_neg]
  simp only [screenHeight]
  omega

theorem scrollWhile_of_eq {c : Console} (h : c.cursorY = 25) : scrollWhile c = c.scrollSceen screenDown := by
  rw [scrollWhile, if_pos (by simp only [screenHeight]; omega)]
  refine scrollWhile_of_le ?_
  rw [(scrollSceen_down c).2]
  omega

/-- The scroll loop of `put_char` brings a cursor that left the last row back to it, inside the screen. -/
theorem scrollWhile_cursor {c : Console} (h : c.cursorY ≤ 25) :
    (scrollWhile c).cursorX = c.cursorX ∧ (scrollWhile c).cursorY = min c.cursorY 24 ∧
      StoresInScreen c (scrollWhile c) := by
  by_cases hrow : c.cursorY = 25
  · rw [scrollWhile_of_eq hrow]
    obtain ⟨hloop, hup⟩ := scrollSceen_down c
    exact ⟨hloop.cursorX, by rw [hup]; omega, hloop.stores⟩
  · rw [scrollWhile_of_le (by omega)]
    exact ⟨rfl, by omega, .of_eq rfl⟩

/-- The `switch` of `put_char`. -/
def putCharSwitch (c : Console) (ch : Byte) : Console :=
  let vram := (c.cursorY * screenWidth + c.cursorX) * 2
  if ch = chReturn then c
  else if ch = chNewline then
    { c.pokeCell vram chNul with cursorX := 0, cursorY := c.cursorY + 1 }
  else if ch = chBackspace then
    if c.cursorX ≥ 0 ∧ c.cursorY ≥ 0 then
      let c := { c with cursorX := c.cursorX - 1 }
      let c :=
        if c.cursorX < 0 then
          let c := { c with cursorX := screenWidth - 1, cursorY := c.cursorY - 1 }
          if c.cursorY < 0 then { c with cursorY := 0 } else c
        else c
      c.pokeCell (vram - 2) chNul
    else c
  else
    let c := c.pokeCell vram ch
    let c := { c with cursorX := c.cursorX + 1 }
    if c.cursorX > screenWidth - 1 then { c with cursorX := 0, cursorY := c.cursorY + 1 } else c

/-- The offset of the cursor's cell. -/
def Console.cell (c : Console) : Int := (c.cursorY * screenWidth + c.cursorX) * 2

/-- Moves the cursor. -/
def Console.goto (c : Console) (x y : Int) : Console := { c with cursorX := x, cursorY := y }

theorem putCharSwitch_return (c : Console) : putCharSwitch c chReturn = c := rfl

theorem putCharSwitch_newline (c : Console) :
    putCharSwitch c chNewline = (c.pokeCell c.cell chNul).goto 0 (c.cursorY + 1) := rfl

/-- A backspace clears the cell before the cursor and moves the cursor there, except at the first cell of
the screen, where it clears a cell below the video memory and moves to the end of row 0. -/
theorem putCharSwitch_backspace {c : Console} (hx : 0 ≤ c.cursorX) (hy : 0 ≤ c.cursorY) :
    putCharSwitch c chBackspace = (c.pokeCell (c.cell - 2) chNul).goto
      (if c.cursorX = 0 then screenWidth - 1 else c.cursorX - 1)
      (if c.cursorX = 0 then if c.cursorY = 0 then 0 else c.cursorY - 1 else c.cursorY) := by
  have hguard : c.cursorX ≥ 0 ∧ c.cursorY ≥ 0 := ⟨hx, hy⟩
  have hne : ¬ chBackspace = chReturn ∧ ¬ chBackspace = chNewline := by decide
  simp only [putCharSwitch, if_neg hne.1, if_neg hne.2, if_true, if_pos hguard]
  by_cases hx0 : c.cursorX = 0
  · by_cases hy0 : c.cursorY = 0
    · rw [if_pos (by omega), if_pos (by omega), if_pos hx0, if_pos hx0, if_pos hy0]
      rfl
    · rw [if_pos (by omega), if_neg (by omega), if_pos hx0, if_pos hx0, if_neg hy0]
      rfl
  · rw [if_neg (by omega), if_neg hx0, if_neg hx0]
    rfl

/-- Any other character is stored in the cursor's cell, and the cursor moves to the next cell. -/
theorem putCharSwitch_print {c : Console} {ch : Byte} (hret : ch ≠ chReturn) (hnl : ch ≠ chNewline)
    (hbs : ch ≠ chBackspace) :
    putCharSwitch c ch = (c.pokeCell c.cell ch).goto
      (if c.cursorX + 1 > screenWidth - 1 then 0 else c.cursorX + 1)
      (if c.cursorX + 1 > screenWidth - 1 then c.cursorY + 1 else c.cursorY) := by
  simp only [putCharSwitch, if_neg hret, if_neg hnl, if_neg hbs]
  by_cases hwrap : c.cursorX + 1 > screenWidth - 1
  · rw [if_pos hwrap, if_pos hwrap]
    exact if_pos hwrap
  · rw [if_neg hwrap, if_neg hwrap]
    exact if_neg hwrap

def putChar (c : Console) (ch : Byte) : Console :=
  flush (scrollWhile (putCharSwitch c ch))

/-- `print_str` of the bytes at `str`, which are read up to the first NUL. -/
def printStr (c : Console) : List Byte → Console
  | [] => c
  | ch :: str => if ch = chNul then c else printStr (putChar c ch) str

/-- A sequence of `print_str` calls. -/
def printAll (c : Console) (strs : List (List Byte)) : Console :=
  strs.foldl printStr c

end XosKernel.Print
