/-
The framebuffer console (`ostreamk.cpp`).
-/

import Mathlib.Tactic

namespace Synx.Kprint

open List
open Function

abbrev Pixels := Nat → UInt32

def fontWidth : Nat := 8

def fontHeight : Nat := 16

/-- The framebuffer that the boot loader describes. -/
structure Screen where
  width : Nat
  height : Nat
  pitch : Nat
  wide : 8 ≤ width
  tall : 32 ≤ height
  rows : height % 16 = 0
  aligned : pitch % 4 = 0
  padded : 4 * width ≤ pitch

namespace Screen

variable (screen : Screen)

def rowStride : Nat := screen.pitch / 4

def maxCols : Nat := screen.width / fontWidth

def maxRows : Nat := screen.height / fontHeight

end Screen

/-- The bytes of `ascii_font` and the two colours. -/
structure Style where
  font : Nat → UInt8
  fg : UInt32
  bg : UInt32

structure Console where
  pixels : Pixels
  cursorX : Nat
  cursorY : Nat

/-- Pixels from `start` on are replaced. -/
def putSpan (pixels : Pixels) (start count : Nat) (value : Nat → UInt32) : Pixels :=
  fun index => if start ≤ index ∧ index < start + count then value (index - start) else pixels index

def scroll (screen : Screen) (pixels : Pixels) : Pixels :=
  let stride := screen.rowStride
  if screen.height ≤ fontHeight then pixels
  else
    let moved := (range (screen.height - fontHeight)).foldl (fun pixels y =>
      putSpan pixels (y * stride) screen.width
        (fun col => pixels ((y + fontHeight) * stride + col))) pixels
    putSpan moved ((screen.height - fontHeight) * stride) (fontHeight * stride) (fun _ => 0)

def newline (screen : Screen) (console : Console) : Console :=
  if screen.maxRows ≤ console.cursorY + 1 then
    ⟨scroll screen console.pixels, 0, screen.maxRows - 1⟩
  else ⟨console.pixels, 0, console.cursorY + 1⟩

/-- A pixel of a character; those without a glyph show a question mark. -/
def glyphPixel (style : Style) (char : UInt8) (row col : Nat) : UInt32 :=
  let glyphIndex := if 3904 / fontHeight ≤ char.toNat then 63 else char.toNat
  let bits := style.font (glyphIndex * fontHeight + row)
  if bits.toNat.testBit (7 - col) then style.fg else style.bg

def drawChar (screen : Screen) (style : Style) (pixels : Pixels) (char : UInt8) (x y : Nat) :
    Pixels :=
  let baseY := y * fontHeight
  let baseX := x * fontWidth
  if screen.height < baseY + fontHeight ∨ screen.width < baseX + fontWidth then pixels
  else
    (range fontHeight).foldl (fun pixels row =>
      (range fontWidth).foldl (fun pixels col =>
        update pixels ((baseY + row) * screen.rowStride + (baseX + col))
          (glyphPixel style char row col)) pixels) pixels

def write (screen : Screen) (style : Style) (console : Console) (char : UInt8) : Console :=
  if char = 10 then newline screen console
  else if char = 13 then { console with cursorX := 0 }
  else if char = 9 then
    -- the mask clears the two low bits
    let moved := { console with cursorX := (console.cursorX + 4) / 4 * 4 }
    if screen.maxCols ≤ moved.cursorX then newline screen moved else moved
  else
    let drawn : Console :=
      ⟨drawChar screen style console.pixels char console.cursorX console.cursorY,
        console.cursorX + 1, console.cursorY⟩
    if screen.maxCols ≤ drawn.cursorX then newline screen drawn else drawn

/-! ### The terminal -/

/-- What a cell shows; a picture stands for what was there before the first byte. -/
inductive Cell where
  | blank
  | glyph (char : UInt8)
  | picture (pixels : Nat → Nat → UInt32)

/-- A grid of cells, by row and column, and a cursor. -/
structure Terminal where
  cells : Nat → Nat → Cell
  x : Nat
  y : Nat

namespace Terminal

def newline (rows : Nat) (terminal : Terminal) : Terminal :=
  if terminal.y + 1 < rows then ⟨terminal.cells, 0, terminal.y + 1⟩
  else
    ⟨fun row col => if row + 1 < rows then terminal.cells (row + 1) col else .blank, 0, terminal.y⟩

/-- Bytes past the last column continue on the next line. -/
def wrap (cols rows : Nat) (terminal : Terminal) : Terminal :=
  if terminal.x < cols then terminal else terminal.newline rows

def place (terminal : Terminal) (cell : Cell) : Terminal :=
  { terminal with
    cells := fun row col =>
      if row = terminal.y ∧ col = terminal.x then cell else terminal.cells row col
    x := terminal.x + 1 }

def write (cols rows : Nat) (terminal : Terminal) (char : UInt8) : Terminal :=
  if char = 10 then terminal.newline rows
  else if char = 13 then { terminal with x := 0 }
  else if char = 9 then ({ terminal with x := (terminal.x / 4 + 1) * 4 } : Terminal).wrap cols rows
  else (terminal.place (.glyph char)).wrap cols rows

end Terminal

def Cell.pixel (style : Style) : Cell → Nat → Nat → UInt32
  | .blank => fun _ _ => style.bg
  | .glyph char => glyphPixel style char
  | .picture pixels => pixels

def Renders (screen : Screen) (style : Style) (pixels : Pixels) (cells : Nat → Nat → Cell) : Prop :=
  ∀ row col, row < screen.maxRows → col < screen.maxCols →
    ∀ y x, y < fontHeight → x < fontWidth →
      pixels ((row * fontHeight + y) * screen.rowStride + (col * fontWidth + x)) =
        (cells row col).pixel style y x

/-! ### Pixels by row and column -/

section Rows

variable {stride row col : Nat}

theorem rows_inside (colBelow : col < stride) (first last : Nat) :
    first * stride ≤ row * stride + col ∧ row * stride + col < last * stride ↔ first ≤ row ∧
      row < last := by
  have low : first * stride ≤ row * stride + col ↔ first ≤ row := by
    rw [← Nat.le_div_iff_mul_le (by omega), mul_comm, Nat.mul_add_div (by omega),
      Nat.div_eq_of_lt colBelow, add_zero]
  have high : row * stride + col < last * stride ↔ row < last := by
    rw [← Nat.div_lt_iff_lt_mul (by omega), mul_comm, Nat.mul_add_div (by omega),
      Nat.div_eq_of_lt colBelow, add_zero]
  rw [low, high]

theorem putSpan_row {start count : Nat} (colBelow : col < stride) (inside : start + count ≤ stride)
    (pixels : Pixels) (target : Nat) (value : Nat → UInt32) :
    putSpan pixels (target * stride + start) count value (row * stride + col) =
      if row = target ∧ start ≤ col ∧ col < start + count then value (col - start)
      else pixels (row * stride + col) := by
  unfold putSpan
  by_cases same : row = target
  · subst same
    simp only [true_and]
    split
    · rw [if_pos (by omega)]
      congr 1
      omega
    · rw [if_neg (by omega)]
  · have other := @rows_inside stride row col colBelow target (target + 1)
    rw [add_mul, one_mul] at other
    rw [if_neg (by omega), if_neg (by omega)]

theorem foldl_putSpan {start count : Nat} (colBelow : col < stride)
    (inside : start + count ≤ stride) (pixels : Pixels) (top rows : Nat)
    (value : Nat → Nat → UInt32) :
    (range rows).foldl (fun pixels y =>
        putSpan pixels ((top + y) * stride + start) count (value y)) pixels (row * stride + col) =
      if (top ≤ row ∧ row < top + rows) ∧ start ≤ col ∧ col < start + count then
        value (row - top) (col - start)
      else pixels (row * stride + col) := by
  induction rows with
  | zero => exact (if_neg (by omega)).symm
  | succ rows ih =>
    rw [range_succ, foldl_append, foldl_cons, foldl_nil, putSpan_row colBelow inside, ih]
    by_cases last : row = top + rows
    · subst last
      simp
    · rw [if_neg (by tauto)]
      have same : top ≤ row ∧ row < top + rows ↔ top ≤ row ∧ row < top + (rows + 1) := by omega
      simp only [same]

end Rows

theorem foldl_update (pixels : Pixels) (start count : Nat) (value : Nat → UInt32) :
    (range count).foldl (fun pixels col => update pixels (start + col) (value col))
      pixels =
      putSpan pixels start count value := by
  induction count with
  | zero =>
    funext index
    exact (if_neg (by omega)).symm
  | succ count ih =>
    rw [range_succ, foldl_append, ih]
    funext index
    simp only [foldl_cons, foldl_nil, update_apply, putSpan]
    split
    · rename_i last
      rw [if_pos (by omega), last, Nat.add_sub_cancel_left]
    · by_cases inside : start ≤ index ∧ index < start + count
      · rw [if_pos inside, if_pos (by omega)]
      · rw [if_neg inside, if_neg (by omega)]

section Drawing

variable {screen : Screen} {row col : Nat}

theorem Screen.width_le (screen : Screen) : screen.width ≤ screen.rowStride := by
  have padded := screen.padded
  unfold rowStride
  omega

theorem Screen.maxRows_mul (screen : Screen) : screen.maxRows * fontHeight = screen.height :=
  Nat.div_mul_cancel (Nat.dvd_of_mod_eq_zero screen.rows)

theorem Screen.maxCols_mul (screen : Screen) : screen.maxCols * fontWidth ≤ screen.width :=
  Nat.div_mul_le_self _ _

theorem drawChar_at (style : Style) (pixels : Pixels) (char : UInt8) {x y : Nat}
    (xBelow : x < screen.maxCols) (yBelow : y < screen.maxRows)
    (colBelow : col < screen.rowStride) :
    drawChar screen style pixels char x y (row * screen.rowStride + col) =
      if (y * fontHeight ≤ row ∧ row < y * fontHeight + fontHeight) ∧
          x * fontWidth ≤ col ∧ col < x * fontWidth + fontWidth then
        glyphPixel style char (row - y * fontHeight) (col - x * fontWidth)
      else pixels (row * screen.rowStride + col) := by
  have height := screen.maxRows_mul
  have width := screen.maxCols_mul
  have stride := screen.width_le
  have fitsX : x * fontWidth + fontWidth ≤ screen.width := by unfold fontWidth at *; omega
  have fitsY : y * fontHeight + fontHeight ≤ screen.height := by unfold fontHeight at *; omega
  unfold drawChar
  rw [if_neg (by omega)]
  simp only [← add_assoc, foldl_update]
  exact foldl_putSpan colBelow (by omega) pixels _ _ _

theorem foldl_copyRows (pixels : Pixels) (colBelow : col < screen.rowStride) (rows : Nat) :
    ∀ row, (range rows).foldl (fun pixels y =>
        putSpan pixels (y * screen.rowStride) screen.width
          (fun col => pixels ((y + fontHeight) * screen.rowStride + col))) pixels
            (row * screen.rowStride + col) =
      if row < rows ∧ col < screen.width then pixels ((row + fontHeight) * screen.rowStride + col)
      else pixels (row * screen.rowStride + col) := by
  have stride := screen.width_le
  induction rows with
  | zero => exact fun row => (if_neg (by omega)).symm
  | succ rows ih =>
    intro row
    have span := @putSpan_row screen.rowStride row col 0 screen.width colBelow (by omega)
    simp only [add_zero, zero_add, Nat.zero_le, true_and, Nat.sub_zero] at span
    rw [range_succ, foldl_append, foldl_cons, foldl_nil, span, ih, ih]
    by_cases last : row = rows
    · subst last
      simp
    · rw [if_neg (by tauto)]
      have same : row < rows ↔ row < rows + 1 := by omega
      simp only [same]

theorem scroll_at (pixels : Pixels) (colBelow : col < screen.rowStride) :
    scroll screen pixels (row * screen.rowStride + col) =
      if screen.height - fontHeight ≤ row ∧ row < screen.height then 0
      else if row < screen.height - fontHeight ∧ col < screen.width then
        pixels ((row + fontHeight) * screen.rowStride + col)
      else pixels (row * screen.rowStride + col) := by
  have tall : fontHeight + fontHeight ≤ screen.height := screen.tall
  have cleared :=
    @rows_inside screen.rowStride row col colBelow (screen.height - fontHeight) screen.height
  unfold scroll putSpan
  rw [if_neg (by unfold fontHeight at *; omega)]
  dsimp only
  rw [← add_mul, Nat.sub_add_cancel (by omega)]
  simp only [cleared]
  split
  · rfl
  · exact foldl_copyRows pixels colBelow _ row

theorem Screen.cell_pixel {x y : Nat} (rowBelow : row < screen.maxRows)
    (colBelow : col < screen.maxCols) (yBelow : y < fontHeight) (xBelow : x < fontWidth) :
    row * fontHeight + y < screen.height ∧ col * fontWidth + x < screen.width := by
  have height := screen.maxRows_mul
  have width := screen.maxCols_mul
  unfold fontHeight fontWidth at *
  omega

end Drawing

/-! ### Every byte keeps the console a rendering of the terminal -/

section Steps

variable {screen : Screen} {style : Style} {pixels : Pixels} {cells : Nat → Nat → Cell}

theorem Renders.scroll (black : style.bg = 0) (renders : Renders screen style pixels cells) :
    Renders screen style (scroll screen pixels)
      (fun row col => if row + 1 < screen.maxRows then cells (row + 1) col else .blank) := by
  intro row col rowBelow colBelow y x yBelow xBelow
  obtain ⟨inside, shown⟩ := screen.cell_pixel rowBelow colBelow yBelow xBelow
  have height := screen.maxRows_mul
  rw [scroll_at pixels (shown.trans_le screen.width_le)]
  dsimp only
  by_cases bottom : row + 1 < screen.maxRows
  · have upper : row * fontHeight + y < screen.height - fontHeight := by
      unfold fontHeight at *
      omega
    rw [if_neg (by omega), if_pos ⟨upper, shown⟩, if_pos bottom,
      ← renders _ _ bottom colBelow _ _ yBelow xBelow, add_mul row, one_mul,
        Nat.add_right_comm]
  · rw [if_pos (by unfold fontHeight at *; omega), if_neg bottom]
    exact black.symm

theorem Renders.draw (renders : Renders screen style pixels cells) (char : UInt8) {x y : Nat}
    (xBelow : x < screen.maxCols) (yBelow : y < screen.maxRows) :
    Renders screen style (drawChar screen style pixels char x y)
      (fun row col => if row = y ∧ col = x then .glyph char else cells row col) := by
  intro row col rowBelow colBelow dy dx dyBelow dxBelow
  obtain ⟨_, shown⟩ := screen.cell_pixel rowBelow colBelow dyBelow dxBelow
  rw [drawChar_at style pixels char xBelow yBelow (shown.trans_le screen.width_le)]
  dsimp only
  by_cases here : row = y ∧ col = x
  · obtain ⟨rfl, rfl⟩ := here
    rw [if_pos (by omega), if_pos ⟨rfl, rfl⟩, Nat.add_sub_cancel_left, Nat.add_sub_cancel_left]
    rfl
  · rw [if_neg (by unfold fontHeight fontWidth at *; omega), if_neg here]
    exact renders row col rowBelow colBelow dy dx dyBelow dxBelow

/-- The console shows the terminal; its cursor has not passed the last row. -/
structure Shows (screen : Screen) (style : Style) (console : Console) (terminal : Terminal) :
    Prop where
  cursorX : console.cursorX = terminal.x
  cursorY : console.cursorY = terminal.y
  below : terminal.y < screen.maxRows
  renders : Renders screen style console.pixels terminal.cells

variable {console : Console} {terminal : Terminal}

theorem Shows.newline (black : style.bg = 0) (shows : Shows screen style console terminal) :
    Shows screen style (newline screen console) (terminal.newline screen.maxRows) ∧
      (terminal.newline screen.maxRows).x < screen.maxCols := by
  obtain ⟨_, same, below, renders⟩ := shows
  have cols : 0 < screen.maxCols := Nat.div_pos screen.wide (by decide)
  unfold Kprint.newline Terminal.newline
  rw [same]
  by_cases last : terminal.y + 1 < screen.maxRows
  · rw [if_neg (by omega), if_pos last]
    exact ⟨⟨rfl, rfl, last, renders⟩, cols⟩
  · rw [if_pos (by omega), if_neg last]
    refine ⟨⟨rfl, ?_, below, renders.scroll black⟩, cols⟩
    change screen.maxRows - 1 = terminal.y
    omega

theorem Shows.wrap (black : style.bg = 0) (shows : Shows screen style console terminal) :
    Shows screen style
      (if screen.maxCols ≤ console.cursorX then Kprint.newline screen console else console)
        (terminal.wrap screen.maxCols screen.maxRows) ∧
      (terminal.wrap screen.maxCols screen.maxRows).x < screen.maxCols := by
  unfold Terminal.wrap
  rw [shows.cursorX]
  by_cases inside : terminal.x < screen.maxCols
  · rw [if_neg (by omega), if_pos inside]
    exact ⟨shows, inside⟩
  · rw [if_pos (by omega), if_neg inside]
    exact shows.newline black

theorem Shows.write (black : style.bg = 0) (shows : Shows screen style console terminal)
    (inside : terminal.x < screen.maxCols) (char : UInt8) :
    Shows screen style (write screen style console char)
      (terminal.write screen.maxCols screen.maxRows char) ∧
      (terminal.write screen.maxCols screen.maxRows char).x < screen.maxCols := by
  have sameX := shows.cursorX
  have sameY := shows.cursorY
  unfold Kprint.write Terminal.write
  split
  · exact shows.newline black
  · split
    · exact ⟨⟨rfl, sameY, shows.below, shows.renders⟩, Nat.div_pos screen.wide (by decide)⟩
    · split
      · refine @Shows.wrap screen style ⟨_, _, _⟩ ⟨_, _, _⟩ black
          ⟨?_, sameY, shows.below, shows.renders⟩
        change (console.cursorX + 4) / 4 * 4 = (terminal.x / 4 + 1) * 4
        omega
      · refine @Shows.wrap screen style ⟨_, _, _⟩ (terminal.place (.glyph char)) black
          ⟨congrArg (· + 1) sameX, sameY, shows.below, ?_⟩
        rw [sameX, sameY]
        exact shows.renders.draw char inside shows.below

theorem write_outside (shows : Shows screen style console terminal)
    (inside : terminal.x < screen.maxCols) (char : UInt8) {index : Nat}
    (outside : screen.height * screen.rowStride ≤ index) :
    (write screen style console char).pixels index = console.pixels index := by
  have wide := screen.wide
  have positive := screen.width_le
  have fits := screen.maxRows_mul
  have below := shows.below
  -- the pixel by its row and column
  have colBelow : index % screen.rowStride < screen.rowStride := Nat.mod_lt _ (by omega)
  have beyond : screen.height ≤ index / screen.rowStride := by
    rwa [Nat.le_div_iff_mul_le (by omega)]
  have scrolled : ∀ pixels, scroll screen pixels index = pixels index := by
    intro pixels
    have moved := @scroll_at screen (index / screen.rowStride) _ pixels colBelow
    rwa [Nat.div_add_mod', if_neg (by omega), if_neg (by omega)] at moved
  have lined : ∀ console, (newline screen console).pixels index = console.pixels index := by
    intro console
    unfold newline
    split
    · exact scrolled _
    · rfl
  have drawn : drawChar screen style console.pixels char console.cursorX console.cursorY index =
      console.pixels index := by
    have placed := @drawChar_at screen (index / screen.rowStride) _ style console.pixels char _ _
      (shows.cursorX ▸ inside) (shows.cursorY ▸ below) colBelow
    rw [shows.cursorY] at placed ⊢
    rwa [Nat.div_add_mod', if_neg (by unfold fontHeight at *; omega)] at placed
  unfold write
  split
  · exact lined _
  · split
    · rfl
    · split
      · dsimp only
        split
        · exact lined _
        · rfl
      · dsimp only
        split
        · exact (lined _).trans drawn
        · exact drawn

end Steps

/-- The console is a terminal: after any bytes the cursor is in the grid, every cell shows what
the terminal has there, and no pixel outside the framebuffer was written. -/
theorem console_refines (screen : Screen) (style : Style) (black : style.bg = 0) (console : Console)
    (cells : Nat → Nat → Cell) (renders : Renders screen style console.pixels cells)
    (cursorX : console.cursorX < screen.maxCols) (cursorY : console.cursorY < screen.maxRows)
    (bytes : List UInt8) :
    let after := bytes.foldl (write screen style) console
    let terminal := bytes.foldl (Terminal.write screen.maxCols screen.maxRows)
      ⟨cells, console.cursorX, console.cursorY⟩
    after.cursorX < screen.maxCols ∧ after.cursorY < screen.maxRows ∧
      after.cursorX = terminal.x ∧ after.cursorY = terminal.y ∧
      Renders screen style after.pixels terminal.cells ∧
      ∀ index, screen.height * screen.rowStride ≤ index → after.pixels index =
        console.pixels index := by
  have run : ∀ (console : Console) (terminal : Terminal),
      Shows screen style console terminal → terminal.x < screen.maxCols →
        let after := bytes.foldl (write screen style) console
        let last := bytes.foldl (Terminal.write screen.maxCols screen.maxRows) terminal
        Shows screen style after last ∧ last.x < screen.maxCols ∧
          ∀ index, screen.height * screen.rowStride ≤ index → after.pixels index =
            console.pixels index := by
    induction bytes with
    | nil => exact fun console terminal shows inside => ⟨shows, inside, fun _ _ => rfl⟩
    | cons char rest ih =>
      intro console terminal shows inside
      obtain ⟨next, stays⟩ := shows.write black inside char
      obtain ⟨last, ends, kept⟩ := ih _ _ next stays
      refine ⟨last, ends, fun index outside => ?_⟩
      exact (kept index outside).trans (write_outside shows inside char outside)
  obtain ⟨shows, inside, kept⟩ := run console ⟨cells, _, _⟩ ⟨rfl, rfl, cursorY, renders⟩ cursorX
  exact ⟨shows.cursorX ▸ inside, shows.cursorY ▸ shows.below, shows.cursorX, shows.cursorY,
    shows.renders, kept⟩

/-- Three characters on a black screen of one column and two rows: the last one is in the upper
row and the cursor below it. -/
theorem console_refines_narrow :
    let screen : Screen := ⟨8, 32, 32, by decide, by decide, by decide, by decide, by decide⟩
    let style : Style := ⟨fun _ => 255, 0xFFFFFF, 0⟩
    let after := [65, 66, 67].foldl (write screen style) ⟨fun _ => 0, 0, 0⟩
    after.cursorX = 0 ∧ after.cursorY = 1 ∧
      ∃ cells, (cells 0 0).pixel style 0 0 = 0xFFFFFF ∧ (cells 1 0).pixel style 0 0 = 0 ∧
        Renders screen style after.pixels cells := by
  intro screen style after
  obtain ⟨_, _, x, y, renders, _⟩ := console_refines screen style rfl ⟨fun _ => 0, 0, 0⟩
    (fun _ _ => .blank) (fun _ _ _ _ _ _ _ _ => rfl) (by decide) (by decide) [65, 66, 67]
  exact ⟨x.trans (by decide +kernel), y.trans (by decide +kernel), _, by decide +kernel,
    by decide +kernel, renders⟩

end Synx.Kprint
