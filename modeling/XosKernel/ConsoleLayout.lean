import XosKernel.ConsoleCursor

/-! The console shows a window of an unbounded page. The page is the reference terminal: rows of 80
cells without an end, a carriage return ignored, a line feed or a full row going to the next row. The
screen shows the last 25 rows up to the row of the cursor, or the first 25 while fewer are in use. -/

namespace XosKernel.Print

/-- A page of text and the place where the next character goes. -/
structure Layout where
  cell : Nat → Nat → Byte
  row : Nat
  col : Nat

namespace Layout

def blank : Layout := ⟨fun _ _ => chNul, 0, 0⟩

def nextRow (l : Layout) : Layout := { l with row := l.row + 1, col := 0 }

def put (l : Layout) (ch : Byte) : Layout :=
  { l with cell := fun r k => if r = l.row ∧ k = l.col then ch else l.cell r k }

/-- The reference terminal receives a character. -/
def write (l : Layout) (ch : Byte) : Layout :=
  if ch = chReturn then l
  else if ch = chNewline then l.nextRow
  else if l.col = 79 then (l.put ch).nextRow
  else { l.put ch with col := l.col + 1 }

/-- The first row of the page on a screen of 25 rows that ends at the row of the cursor. -/
def top (l : Layout) : Nat := l.row - 24

/-- The characters on the screen. -/
def shown (l : Layout) (r k : Nat) : Byte := l.cell (l.top + r) k

/-- Nothing is written at or after the cursor. -/
def Fresh (l : Layout) : Prop := ∀ r k, l.row < r ∨ (l.row = r ∧ l.col ≤ k) → l.cell r k = chNul

theorem Fresh.nextRow {l : Layout} (h : l.Fresh) : l.nextRow.Fresh := fun r k hrk =>
  h r k (by simp only [Layout.nextRow] at hrk; omega)

theorem Fresh.put_nextRow {l : Layout} (h : l.Fresh) (ch : Byte) : (l.put ch).nextRow.Fresh := by
  intro r k hrk
  simp only [Layout.nextRow, put] at hrk ⊢
  rw [if_neg (by omega)]
  exact h r k (by omega)

theorem Fresh.put_right {l : Layout} (h : l.Fresh) (ch : Byte) :
    Fresh { l.put ch with col := l.col + 1 } := by
  intro r k hrk
  simp only [put] at hrk ⊢
  rw [if_neg (by omega)]
  exact h r k (by omega)

end Layout

/-- The offset of the character of a cell. -/
def cellOffset (r k : Nat) : Int := 160 * r + 2 * k

/-- The screen shows the page from row `top` on, with the cursor at its place. Between the `switch` of
`put_char` and its scroll loop the cursor may be one row below the screen. -/
structure Shows (c : Console) (l : Layout) (top : Nat) : Prop where
  cursorX : c.cursorX = l.col
  cursorY : c.cursorY = l.row - top
  row_ge : top ≤ l.row
  col_lt : l.col < 80
  cells : ∀ r k, r < 25 → k < 80 → c.vram (cellOffset r k) = l.cell (top + r) k

/-- The simulation relation: the console shows the window of the page, and the page is fresh after the
cursor. -/
structure Sim (c : Console) (l : Layout) : Prop where
  shows : Shows c l l.top
  fresh : l.Fresh

theorem pokeCell_vram (c : Console) (offset : Int) (ch : Byte) (r k : Nat) (heven : offset % 2 = 0) :
    (c.pokeCell offset ch).vram (cellOffset r k) =
      if cellOffset r k = offset then ch else c.vram (cellOffset r k) := by
  have hodd : cellOffset r k ≠ offset + 1 := by
    simp only [cellOffset]
    omega
  simp only [Console.pokeCell, Console.poke, Function.update_apply, if_neg hodd]

/-- Storing a character in the cursor's cell puts it on the page. -/
theorem Shows.pokeCell {c : Console} {l : Layout} {top : Nat} (h : Shows c l top) (ch : Byte) :
    ∀ r k, r < 25 → k < 80 → (c.pokeCell c.cell ch).vram (cellOffset r k) = (l.put ch).cell (top + r) k := by
  intro r k hr hk
  have hcell : c.cell = 160 * (l.row - top) + 2 * l.col := by
    rw [Console.cell, h.cursorX, h.cursorY]
    simp only [screenWidth]
    omega
  have hcol := h.col_lt
  have hrow := h.row_ge
  rw [pokeCell_vram c _ ch r k (by omega), h.cells r k hr hk, hcell]
  simp only [Layout.put, cellOffset]
  have hiff : (160 * (r : Int) + 2 * k = 160 * (l.row - top) + 2 * l.col) ↔ top + r = l.row ∧ k = l.col := by
    omega
  simp only [hiff]

/-- The scroll loop moves the window down by one row when the cursor has left it. -/
theorem Shows.scrollWhile {c : Console} {l : Layout} {top : Nat} (h : Shows c l top) (hfresh : l.Fresh)
    (htop : top = l.row - 24 ∨ (top = l.row - 25 ∧ 25 ≤ l.row ∧ l.col = 0)) :
    Shows (scrollWhile c) l l.top := by
  have hrow := h.row_ge
  have hcur := h.cursorY
  by_cases hlast : l.row - top = 25
  · rw [scrollWhile_of_eq (by omega)]
    obtain ⟨hloop, hup⟩ := scrollSceen_down c
    have hnext : l.top = top + 1 := by
      rw [Layout.top]
      omega
    rw [hnext]
    refine ⟨hloop.cursorX.trans h.cursorX, by rw [hup, hcur]; omega, by omega, h.col_lt, fun r k hr hk => ?_⟩
    have hvram := hloop.vram (cellOffset r k)
    rw [show (c.scrollSceen screenDown).vram (cellOffset r k) = _ from hvram]
    by_cases hr24 : r < 24
    · rw [if_pos (by simp only [cellOffset]; omega),
        show cellOffset r k + 160 = cellOffset (r + 1) k by simp only [cellOffset]; omega,
        h.cells (r + 1) k (by omega) hk, show top + 1 + r = top + (r + 1) by omega]
    · rw [if_neg (by simp only [cellOffset]; omega), if_pos (by simp only [cellOffset]; omega),
        if_pos (by simp only [cellOffset]; omega)]
      exact (hfresh _ _ (by omega)).symm
  · have htop24 : top = l.top := by
      rw [Layout.top]
      omega
    rw [scrollWhile_of_le (by omega), ← htop24]
    exact h

theorem Shows.flush {c : Console} {l : Layout} {top : Nat} (h : Shows c l top) : Shows c.flush l top :=
  ⟨h.cursorX, h.cursorY, h.row_ge, h.col_lt, h.cells⟩

/-- Going to the next row on both sides, after the page's cell at the cursor was set to `l'`. -/
theorem Shows.nextRow {c d : Console} {l l' : Layout} (h : Shows c l l.top) (hrow : l'.row = l.row)
    (hcells : ∀ r k, r < 25 → k < 80 → d.vram (cellOffset r k) = l'.cell (l.top + r) k) :
    Shows (d.goto 0 (c.cursorY + 1)) l'.nextRow l.top := by
  have hge := h.row_ge
  refine ⟨rfl, ?_, ?_, ?_, hcells⟩
  · simp only [Console.goto, Layout.nextRow, h.cursorY, hrow]
    omega
  · simp only [Layout.nextRow]
    omega
  · simp only [Layout.nextRow]
    omega

/-- One character, printed and written. -/
theorem Sim.step {c : Console} {l : Layout} {ch : Byte} (h : Sim c l) (hbs : ch ≠ chBackspace) :
    Sim (putChar c ch) (l.write ch) := by
  obtain ⟨hshows, hfresh⟩ := h
  have hnextTop : l.top = l.row + 1 - 24 ∨ (l.top = l.row + 1 - 25 ∧ 25 ≤ l.row + 1 ∧ 0 = 0) := by
    rw [Layout.top]
    omega
  by_cases hret : ch = chReturn
  · subst hret
    rw [show l.write chReturn = l from if_pos rfl]
    refine ⟨?_, hfresh⟩
    exact (Shows.scrollWhile hshows hfresh (.inl rfl)).flush
  by_cases hnl : ch = chNewline
  · subst hnl
    rw [show l.write chNewline = l.nextRow from rfl]
    refine ⟨?_, hfresh.nextRow⟩
    -- the NUL that the line feed stores is what the page has there
    have hcells := hshows.pokeCell chNul
    have hput : (l.put chNul).cell = l.cell := by
      funext r k
      simp only [Layout.put]
      split
      · rw [hfresh r k (by omega)]
      · rfl
    rw [hput] at hcells
    exact ((hshows.nextRow rfl hcells).scrollWhile hfresh.nextRow hnextTop).flush
  rw [Layout.write, if_neg hret, if_neg hnl]
  have hcells := hshows.pokeCell ch
  have hx := hshows.cursorX
  by_cases hlast : l.col = 79
  · rw [if_pos hlast]
    refine ⟨?_, hfresh.put_nextRow ch⟩
    have hsw := putCharSwitch_print (c := c) hret hnl hbs
    rw [if_pos (by simp only [screenWidth]; omega), if_pos (by simp only [screenWidth]; omega)] at hsw
    rw [Print.putChar, hsw]
    have hrow := Shows.nextRow hshows (show (l.put ch).row = l.row from rfl) hcells
    exact (hrow.scrollWhile (hfresh.put_nextRow ch) hnextTop).flush
  · rw [if_neg hlast]
    refine ⟨?_, hfresh.put_right ch⟩
    have hcol := hshows.col_lt
    have hsw := putCharSwitch_print (c := c) hret hnl hbs
    rw [if_neg (by simp only [screenWidth]; omega), if_neg (by simp only [screenWidth]; omega)] at hsw
    rw [Print.putChar, hsw]
    have hright : Shows ((c.pokeCell c.cell ch).goto (c.cursorX + 1) c.cursorY)
        { l.put ch with col := l.col + 1 } l.top := by
      refine ⟨?_, hshows.cursorY, hshows.row_ge, ?_, hcells⟩
      · simp only [Console.goto, hx]
        omega
      · show l.col + 1 < 80
        omega
    exact (hright.scrollWhile (hfresh.put_right ch) (.inl rfl)).flush

/-- A blank screen with the cursor in the first cell. -/
structure BlankScreen (c : Console) : Prop where
  home : AtHome c
  cells : ∀ r k, r < 25 → k < 80 → c.vram (cellOffset r k) = chNul

theorem BlankScreen.sim {c : Console} (h : BlankScreen c) : Sim c Layout.blank :=
  ⟨⟨h.home.x, h.home.y, le_refl _, by decide, h.cells⟩, fun _ _ _ => rfl⟩

/-- **The console is a window of the reference terminal.** A string without backspaces, printed by any
sequence of `print_str` calls onto a blank screen, leaves on the 25 by 80 cells the rows of the page that
end at the row of the cursor, and the cursor at its place on the page. -/
theorem printAll_shows_layout (c : Console) (hc : BlankScreen c) (str : List Byte)
    (hstr : ∀ ch ∈ str, ch ≠ chNul ∧ ch ≠ chBackspace) (strs : List (List Byte)) (hsplit : strs.flatten = str) :
    let l := str.foldl Layout.write Layout.blank
    let d := printAll c strs
    (∀ r k, r < 25 → k < 80 → d.vram (cellOffset r k) = l.shown r k) ∧
      d.cursorX = l.col ∧ d.cursorY = l.row - l.top := by
  intro l d
  have hprinted : strs.flatMap printed = str := by
    have hpart : ∀ part ∈ strs, printed part = part := fun part hpart =>
      printed_eq_self fun ch hch => (hstr ch (hsplit ▸ List.mem_flatten_of_mem hpart hch)).1
    rw [← hsplit, List.flatMap_def, List.map_congr_left hpart, List.map_id']
  have hrun : d = str.foldl putChar c := by
    rw [← hprinted]
    exact printAll_eq_foldl c strs
  have hsim : Sim d l := by
    rw [hrun]
    have hstep : ∀ c l ch, ch ≠ chBackspace → Sim c l → Sim (putChar c ch) (l.write ch) :=
      fun _ _ _ hbs h => h.step hbs
    exact Run.foldl_rel Sim (· ≠ chBackspace) hstep str
      (fun ch hch => (hstr ch hch).2) hc.sim
  exact ⟨hsim.shows.cells, hsim.shows.cursorX, hsim.shows.cursorY⟩

theorem printAll_shows_layout_two_lines :
    let l := [0x61, chNewline, 0x62].foldl Layout.write Layout.blank
    let d := printAll bootConsole [[0x61], [chNewline, 0x62]]
    (∀ r k, r < 25 → k < 80 → d.vram (cellOffset r k) = l.shown r k) ∧
      d.cursorX = l.col ∧ d.cursorY = l.row - l.top :=
  printAll_shows_layout bootConsole ⟨⟨rfl, rfl⟩, fun _ _ _ _ => rfl⟩ [0x61, chNewline, 0x62] (by decide)
    [[0x61], [chNewline, 0x62]] rfl

end XosKernel.Print
