import XosKernel.ConsoleModel

/-! The cursor and the stores of the console over whole runs. A backspace at the start of the screen is
the only character that leaves the screen: it stores two bytes below the video memory and moves the
cursor to the end of row 0. Every other step of a run keeps to the screen. -/

namespace XosKernel.Print

/-- The cursor is on the screen. -/
structure CursorOk (c : Console) : Prop where
  x_nonneg : 0 ≤ c.cursorX
  x_lt : c.cursorX < screenWidth
  y_nonneg : 0 ≤ c.cursorY
  y_lt : c.cursorY < screenHeight

/-- The position of the cursor in reading order. -/
def Console.position (c : Console) : Int := c.cursorY * screenWidth + c.cursorX

/-- The offsets stored to between two states of a run. -/
def newStores (c d : Console) : List Int := d.stored.take (d.stored.length - c.stored.length)

/-- What printing one character should do: the cursor stays on the screen, all stores are inside the
screen, and a backspace does not move the cursor to a later position. -/
structure StepOk (c : Console) (ch : Byte) : Prop where
  cursor : CursorOk (putChar c ch)
  stores : ∀ offset ∈ newStores c (putChar c ch), InScreen offset
  backspace : ch = chBackspace → (putChar c ch).position ≤ c.position

/-- A backspace at the first cell of the screen. -/
def BackspaceAtHome (c : Console) (ch : Byte) : Prop :=
  ch = chBackspace ∧ c.cursorX = 0 ∧ c.cursorY = 0

instance (c : Console) (ch : Byte) : Decidable (BackspaceAtHome c ch) :=
  inferInstanceAs (Decidable (ch = chBackspace ∧ c.cursorX = 0 ∧ c.cursorY = 0))

theorem newStores_of_storesInScreen {c d : Console} (h : StoresInScreen c d) :
    ∀ offset ∈ newStores c d, InScreen offset := by
  obtain ⟨offsets, hstored, hin⟩ := h
  intro offset hmem
  rw [newStores, hstored, List.length_append, Nat.add_sub_cancel, List.take_left'] at hmem
  · exact hin offset hmem
  · rfl

theorem putChar_cursorX {c : Console} {ch : Byte} (h : (putCharSwitch c ch).cursorY ≤ 25) :
    (putChar c ch).cursorX = (putCharSwitch c ch).cursorX :=
  (scrollWhile_cursor h).1

theorem putChar_cursorY {c : Console} {ch : Byte} (h : (putCharSwitch c ch).cursorY ≤ 25) :
    (putChar c ch).cursorY = min (putCharSwitch c ch).cursorY 24 :=
  (scrollWhile_cursor h).2.1

/-- The `switch` of `put_char` on a cursor that is on the screen, away from the one bad case: the cursor
leaves the screen at most by one row at the bottom, a backspace moves it back, and the stores are
inside the screen. -/
theorem putCharSwitch_spec {c : Console} {ch : Byte} (hc : CursorOk c) (hgood : ¬ BackspaceAtHome c ch) :
    (0 ≤ (putCharSwitch c ch).cursorX ∧ (putCharSwitch c ch).cursorX < screenWidth) ∧
      (0 ≤ (putCharSwitch c ch).cursorY ∧ (putCharSwitch c ch).cursorY ≤ 25) ∧
      StoresInScreen c (putCharSwitch c ch) ∧
      (ch = chBackspace → (putCharSwitch c ch).cursorY ≤ 24 ∧ (putCharSwitch c ch).position ≤ c.position) := by
  obtain ⟨hx0, hx1, hy0, hy1⟩ := hc
  simp only [screenWidth, screenHeight] at hx1 hy1
  simp only [BackspaceAtHome, not_and] at hgood
  have hcell : c.cell = c.cursorY * 160 + c.cursorX * 2 := by
    simp only [Console.cell, screenWidth]
    omega
  by_cases hret : ch = chReturn
  · subst hret
    rw [putCharSwitch_return]
    exact ⟨⟨hx0, hx1⟩, ⟨hy0, by omega⟩, .of_eq rfl, fun h => absurd h (by decide)⟩
  by_cases hnl : ch = chNewline
  · subst hnl
    rw [putCharSwitch_newline]
    have hzero : (0 : Int) < screenWidth := by decide
    refine ⟨⟨le_refl _, hzero⟩, ⟨?_, ?_⟩, .cell (by omega) (by omega) rfl, fun h => absurd h (by decide)⟩
    · show 0 ≤ c.cursorY + 1
      omega
    · show c.cursorY + 1 ≤ 25
      omega
  by_cases hbs : ch = chBackspace
  · subst hbs
    have hhome := hgood rfl
    rw [putCharSwitch_backspace hx0 hy0]
    simp only [Console.goto, Console.position, screenWidth]
    refine ⟨⟨?_, ?_⟩, ⟨?_, ?_⟩, .cell ?_ ?_ rfl, fun _ => ⟨?_, ?_⟩⟩ <;> grind
  · rw [putCharSwitch_print hret hnl hbs]
    simp only [Console.goto, screenWidth]
    refine ⟨⟨?_, ?_⟩, ⟨?_, ?_⟩, .cell ?_ ?_ rfl, fun h => absurd h hbs⟩ <;> grind

/-- Away from a backspace at home a step does what it should. -/
theorem putChar_stepOk {c : Console} {ch : Byte} (hc : CursorOk c) (hgood : ¬ BackspaceAtHome c ch) :
    StepOk c ch := by
  obtain ⟨⟨hx0, hx1⟩, ⟨hy0, hy1⟩, hstores, hback⟩ := putCharSwitch_spec hc hgood
  have hx := putChar_cursorX hy1
  have hy := putChar_cursorY hy1
  refine ⟨⟨by rw [hx]; exact hx0, by rw [hx]; exact hx1, by rw [hy]; omega, ?_⟩, ?_, fun hbs => ?_⟩
  · rw [hy]
    simp only [screenHeight]
    omega
  · exact newStores_of_storesInScreen (hstores.trans (scrollWhile_cursor hy1).2.2)
  · obtain ⟨hrow, hpos⟩ := hback hbs
    rw [Console.position, hx, hy, min_eq_left hrow]
    exact hpos

/-- A backspace at home moves the cursor to the end of the first row. -/
theorem putChar_backspace_home {c : Console} {ch : Byte} (h : BackspaceAtHome c ch) :
    c.position < (putChar c ch).position := by
  obtain ⟨rfl, hx, hy⟩ := h
  have hsw := putCharSwitch_backspace (c := c) (by omega) (by omega)
  rw [if_pos hx, if_pos hx, if_pos hy] at hsw
  have hrow : (putCharSwitch c chBackspace).cursorY ≤ 25 := by
    rw [hsw]
    exact (by decide : (0 : Int) ≤ 25)
  rw [Console.position, Console.position, putChar_cursorX hrow, putChar_cursorY hrow, hsw, hx, hy]
  show (0 : Int) * 80 + 0 < min 0 24 * 80 + (80 - 1)
  decide

theorem stepOk_iff {c : Console} {ch : Byte} (hc : CursorOk c) : StepOk c ch ↔ ¬ BackspaceAtHome c ch := by
  refine ⟨fun hok hhome => ?_, putChar_stepOk hc⟩
  exact absurd (hok.backspace hhome.1) (not_le.mpr (putChar_backspace_home hhome))

/-- The characters that a `print_str` call of a string prints. -/
def printed (str : List Byte) : List Byte := str.takeWhile (· ≠ chNul)

theorem printed_eq_self {str : List Byte} (h : ∀ ch ∈ str, ch ≠ chNul) : printed str = str := by
  induction str with
  | nil => rfl
  | cons ch str ih =>
      rw [printed, List.takeWhile_cons_of_pos (by simpa using h ch List.mem_cons_self), ← printed,
        ih fun _ hmem => h _ (List.mem_cons_of_mem _ hmem)]

theorem printStr_eq_foldl (c : Console) (str : List Byte) : printStr c str = (printed str).foldl putChar c := by
  induction str generalizing c with
  | nil => rfl
  | cons ch str ih =>
      by_cases hnul : ch = chNul
      · simp [printStr, printed, hnul]
      · rw [printStr, if_neg hnul, ih, printed, printed, List.takeWhile_cons_of_pos (by simpa using hnul),
          List.foldl_cons]

theorem printAll_eq_foldl (c : Console) (strs : List (List Byte)) :
    printAll c strs = (strs.flatMap printed).foldl putChar c := by
  induction strs generalizing c with
  | nil => rfl
  | cons str strs ih =>
      rw [printAll, List.foldl_cons, ← printAll, ih, printStr_eq_foldl, List.flatMap_cons, List.foldl_append]

/-- The boot-time console: the cursor in the first cell, over any screen contents. -/
structure AtHome (c : Console) : Prop where
  x : c.cursorX = 0
  y : c.cursorY = 0

theorem AtHome.cursorOk {c : Console} (h : AtHome c) : CursorOk c :=
  ⟨h.x.ge, by rw [h.x]; decide, h.y.ge, by rw [h.y]; decide⟩

/-- **Runs that keep to the screen.** Over any sequence of `print_str` calls from the boot-time cursor,
every character leaves the cursor on the screen, stores inside the screen only and never moves forward on
a backspace, if and only if no backspace is printed while the cursor is in the first cell. -/
theorem run_stepOk_iff (c : Console) (hc : AtHome c) (strs : List (List Byte)) :
    printAll c strs = (strs.flatMap printed).foldl putChar c ∧
      (Run.Every putChar StepOk c (strs.flatMap printed) ↔
        Run.Every putChar (fun d ch => ¬ BackspaceAtHome d ch) c (strs.flatMap printed)) :=
  ⟨printAll_eq_foldl c strs, Run.every_iff_of_inv CursorOk (fun _ _ hd => stepOk_iff hd)
    (fun _ _ hd hgood => (putChar_stepOk hd hgood).cursor) _ hc.cursorOk⟩

/-- The console at boot over zeroed video memory. -/
def bootConsole : Console := ⟨0, 0, fun _ => 0, 0, []⟩

/-- A line that wraps, and one on which a letter is taken back and the line then ended. -/
def twoLines : List (List Byte) :=
  [List.replicate 81 0x41, [chNewline, 0x42, 0x43, chBackspace, 0x44, chReturn, chNewline]]

theorem run_stepOk_two_lines : Run.Every putChar StepOk bootConsole (twoLines.flatMap printed) :=
  (run_stepOk_iff bootConsole ⟨rfl, rfl⟩ twoLines).2.mpr (by decide +kernel)

/-- A string of one backspace, printed at boot, breaks the rule. -/
theorem run_backspace_not_stepOk :
    ¬ Run.Every putChar StepOk bootConsole ([[chBackspace]].flatMap printed) := by
  intro h
  have hstep : StepOk bootConsole chBackspace := h.1
  exact (stepOk_iff (AtHome.cursorOk ⟨rfl, rfl⟩)).mp hstep ⟨rfl, rfl, rfl⟩

end XosKernel.Print
