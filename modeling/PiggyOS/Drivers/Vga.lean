import PiggyOS.Infra.Cells
import PiggyOS.Infra.Region

/-!
# The console (`vga.c`)

The console is a screen of 25 rows of 80 cells in memory, which is scrolled by copying it onto
itself. It is compared with a terminal whose grid has no last row and that never scrolls: the
screen is the window onto the grid that ends at the row of the cursor, or the first 25 rows.

* `Vga` — the screen, its cursor and its color
* `Terminal` — the terminal without an end
* `Shows` — the screen shows the rows of the grid from `top` on
* `console_refines` — it does so after every sequence of calls
-/

namespace PiggyOS

open Infra

/-- `enum vga_color` -/
inductive VgaColor
  | black | blue | green | cyan | red | magenta | brown | lightGray | darkGray | lightBlue
  | lightGreen | lightCyan | lightRed | pink | yellow | white
  deriving DecidableEq, Repr

/-- The number of a color. -/
def VgaColor.value : VgaColor → BitVec 16
  | black => 0
  | blue => 1
  | green => 2
  | cyan => 3
  | red => 4
  | magenta => 5
  | brown => 6
  | lightGray => 7
  | darkGray => 8
  | lightBlue => 9
  | lightGreen => 10
  | lightCyan => 11
  | lightRed => 12
  | pink => 13
  | yellow => 14
  | white => 15

/-- `(bg << 4 | fg) << 8` -/
def colorAttribute (fg bg : VgaColor) : BitVec 16 := (bg.value <<< 4 ||| fg.value) <<< 8

/-- `NUM_COLS` -/
def numCols : Nat := 80

/-- `NUM_ROWS` -/
def numRows : Nat := 25

/-- An empty cell: a space in white on black. -/
def blankCell : BitVec 16 := 3872

/-! ## The console -/

/-- `screen_buffer` -/
def screenBuffer : U32 := 0xc00b8000

/-- The memory of the screen. -/
def screen : Region := ⟨screenBuffer, 4000, by decide⟩

/-- The variables of `vga.c`. `stores` collects the addresses that have been written to and the
number of bytes there, last one first. -/
structure Vga where
  mem : Mem
  color : BitVec 16
  curX : BitVec 8
  curY : BitVec 8
  stores : List (U32 × Nat)

namespace Vga

variable (s : Vga)

/-- `*(screen_buffer + i) = v` -/
def store (i : Nat) (v : BitVec 16) : Vga :=
  { s with
    mem := s.mem.write16 (Mem.cellAddr screenBuffer i) v
    stores := (Mem.cellAddr screenBuffer i, 2) :: s.stores }

/-- `for (i = 0; i < n; i++) *(screen_buffer + start + i) = 3872` -/
def fillBlank (start : Nat) : Nat → Vga
  | 0 => s
  | n + 1 => (fillBlank start n).store (start + n) blankCell

def memcpy (dest src count : U32) : Vga :=
  { s with mem := s.mem.copy dest src count.toNat, stores := (dest, count.toNat) :: s.stores }

/-- `vga_clear` -/
def clear : Vga := s.fillBlank 0 (numCols * numRows)

/-- `scroll` -/
def scroll : Vga :=
  if s.curY ≥ 25 then
    let temp : BitVec 16 := s.curY.setWidth 16 - 25 + 1
    let s := s.memcpy screenBuffer (screenBuffer + temp.setWidth 32 * 80 * 2)
      ((25 - temp.setWidth 32) * 80 * 2)
    { s.fillBlank (numCols * (numRows - 1)) numCols with curY := 24 }
  else s

/-- The cell at the cursor. -/
def position : Nat := s.curY.toNat * numCols + s.curX.toNat

def backspace : Vga :=
  if s.curX ≠ 0 then
    let s := { s with curX := s.curX - 1 }
    s.store s.position blankCell
  else s

def tab : Vga := { s with curX := (s.curX + 8) &&& ~~~7 }

def carriageReturn : Vga := { s with curX := 0 }

def newline : Vga := { s with curX := 0, curY := s.curY + 1 }

def print (c : BitVec 8) : Vga :=
  { s.store s.position (c.signExtend 16 ||| s.color) with curX := s.curX + 1 }

/-- What `vga_putc` makes of the character; `char` is signed. -/
def putChar (c : BitVec 8) : Vga :=
  if c = 0x08 then s.backspace
  else if c = 0x09 then s.tab
  else if c = 0x0d then s.carriageReturn
  else if c = 0x0a then s.newline
  else if (0x20 : BitVec 8).sle c then s.print c
  else s

/-- The end of a row. -/
def wrap : Vga := if s.curX ≥ 80 then s.newline else s

/-- `vga_putc`, without the cursor that the hardware shows. -/
def putc (c : BitVec 8) : Vga := ((s.putChar c).wrap).scroll

/-- `vga_set_color` -/
def setColor (fg bg : VgaColor) : Vga := { s with color := colorAttribute fg bg }

/-- The cell in the row `r` and the column `c`. -/
def cell (r c : Nat) : BitVec 16 := s.mem.cell screenBuffer (r * numCols + c)

end Vga

/-! ## The terminal -/

/-- A terminal without a last row. -/
structure Terminal where
  grid : Nat → Nat → BitVec 16
  color : BitVec 16
  x : Nat
  y : Nat

namespace Terminal

variable (t : Terminal)

/-- Puts `v` to the column `c` of the cursor's row. -/
def set (c : Nat) (v : BitVec 16) : Terminal :=
  { t with grid := fun i j => if i = t.y ∧ j = c then v else t.grid i j }

def backspace : Terminal :=
  if t.x ≠ 0 then { t.set (t.x - 1) blankCell with x := t.x - 1 } else t

def tab : Terminal := { t with x := (t.x / 8 + 1) * 8 }

def carriageReturn : Terminal := { t with x := 0 }

def newline : Terminal := { t with x := 0, y := t.y + 1 }

def print (c : BitVec 8) : Terminal :=
  { t.set t.x (c.setWidth 16 ||| t.color) with x := t.x + 1 }

def putChar (c : BitVec 8) : Terminal :=
  if c = 0x08 then t.backspace
  else if c = 0x09 then t.tab
  else if c = 0x0d then t.carriageReturn
  else if c = 0x0a then t.newline
  else if 32 ≤ c.toNat ∧ c.toNat < 128 then t.print c
  else t

def wrap : Terminal := if numCols ≤ t.x then t.newline else t

def putc (c : BitVec 8) : Terminal := (t.putChar c).wrap

def setColor (fg bg : VgaColor) : Terminal := { t with color := colorAttribute fg bg }

/-- The first row that a screen of 25 rows shows. -/
def top : Nat := t.y - (numRows - 1)

/-- An empty grid with the cursor in its corner. -/
def start (color : BitVec 16) : Terminal := ⟨fun _ _ => blankCell, color, 0, 0⟩

end Terminal

/-! ## Writing to the screen -/

namespace Vga

variable {s : Vga} {i n start r c : Nat} {v : BitVec 16}

/-- All that has been written lies on the screen. -/
def OnScreen (s : Vga) : Prop := ∀ w ∈ s.stores, screen.Covers w.1.toNat w.2

theorem covers_cellAddr (hi : i < 2000) : screen.Covers (Mem.cellAddr screenBuffer i).toNat 2 := by
  have haddr : (Mem.cellAddr screenBuffer i).toNat = 0xc00b8000 + 2 * i := by
    unfold Mem.cellAddr
    rw [BitVec.toNat_add, BitVec.toNat_ofNat]
    show (0xc00b8000 + 2 * i % 2 ^ 32) % 2 ^ 32 = _
    omega
  show 0xc00b8000 ≤ _ ∧ _ ≤ 0xc00b8000 + 4000
  omega

theorem OnScreen.store (h : s.OnScreen) (hi : i < 2000) : (s.store i v).OnScreen :=
  List.forall_mem_cons.mpr ⟨covers_cellAddr hi, h⟩

theorem cell_store (hi : i < 2000) (hr : r < 25) (hc : c < 80) :
    (s.store i v).cell r c = if r * 80 + c = i then v else s.cell r c :=
  Mem.cell_write16 (i := r * 80 + c) (by omega) (by omega)

@[simp] theorem curX_fillBlank : (s.fillBlank start n).curX = s.curX := by
  induction n with
  | zero => rfl
  | succ n ih => exact ih

@[simp] theorem curY_fillBlank : (s.fillBlank start n).curY = s.curY := by
  induction n with
  | zero => rfl
  | succ n ih => exact ih

@[simp] theorem color_fillBlank : (s.fillBlank start n).color = s.color := by
  induction n with
  | zero => rfl
  | succ n ih => exact ih

theorem OnScreen.fillBlank (h : s.OnScreen) (hn : start + n ≤ 2000) :
    (s.fillBlank start n).OnScreen := by
  induction n with
  | zero => exact h
  | succ n ih => exact (ih (by omega)).store (by omega)

theorem cell_fillBlank (hn : start + n ≤ 2000) (hr : r < 25) (hc : c < 80) :
    (s.fillBlank start n).cell r c =
      if start ≤ r * 80 + c ∧ r * 80 + c < start + n then blankCell else s.cell r c := by
  induction n with
  | zero =>
    rw [if_neg (by omega)]
    rfl
  | succ n ih =>
    rw [fillBlank, cell_store (by omega) hr hc, ih (by omega)]
    by_cases hlast : r * 80 + c = start + n
    · rw [if_pos hlast, if_pos (by omega)]
    · rw [if_neg hlast]
      have hiff : (start ≤ r * 80 + c ∧ r * 80 + c < start + n) ↔
          (start ≤ r * 80 + c ∧ r * 80 + c < start + (n + 1)) := by omega
      simp only [hiff]

theorem curX_memcpy {dest src count : U32} : (s.memcpy dest src count).curX = s.curX := rfl

theorem color_memcpy {dest src count : U32} : (s.memcpy dest src count).color = s.color := rfl

theorem cell_memcpy {count : U32} {k d : Nat} (hcount : count.toNat = 2 * k) (hd : 0 < d)
    (hk : d + k ≤ 2000) (hr : r < 25) (hc : c < 80) :
    (s.memcpy screenBuffer (Mem.cellAddr screenBuffer d) count).cell r c =
      if r * 80 + c < k then s.mem.cell screenBuffer (r * 80 + c + d) else s.cell r c := by
  unfold cell memcpy numCols
  rw [hcount, Mem.cell_copy hd (by omega) (by omega)]

/-- The cells after the copy of a `scroll` by one row. -/
theorem cell_memcpy_row (hr : r < 25) (hc : c < 80) :
    (s.memcpy screenBuffer (Mem.cellAddr screenBuffer 80) 3840).cell r c =
      if r < 24 then s.cell (r + 1) c else s.cell r c := by
  have hcount : (3840 : U32).toNat = 2 * 1920 := rfl
  rw [cell_memcpy hcount (by decide) (by decide) hr hc]
  by_cases h : r < 24
  · rw [if_pos (by omega), if_pos h]
    unfold cell numCols
    rw [Nat.add_right_comm, Nat.succ_mul]
  · rw [if_neg (by omega), if_neg h]

theorem scroll_of_lt (h : s.curY.toNat < 25) : s.scroll = s := by
  unfold scroll
  rw [if_neg]
  show ¬ (25 : BitVec 8).toNat ≤ s.curY.toNat
  exact Nat.not_le.mpr h

theorem OnScreen.memcpy_row (h : s.OnScreen) :
    (s.memcpy screenBuffer (Mem.cellAddr screenBuffer 80) 3840).OnScreen :=
  List.forall_mem_cons.mpr ⟨by decide, h⟩

/-- From the row after the last one, the screen is moved up by one row. -/
theorem exists_scroll (h : s.curY = 25) : ∃ u : Vga, s.scroll = { u with curY := 24 } ∧
    u.curX = s.curX ∧ u.color = s.color ∧ (s.OnScreen → u.OnScreen) ∧
    ∀ r < 25, ∀ c < 80, u.cell r c = if r < 24 then s.cell (r + 1) c else blankCell := by
  let copied := s.memcpy screenBuffer (Mem.cellAddr screenBuffer 80) 3840
  refine ⟨copied.fillBlank 1920 80, ?_, ?_, ?_, fun hs => ?_, fun r hr c hc => ?_⟩
  · unfold scroll
    rw [h, if_pos (by decide)]
    rfl
  · exact curX_fillBlank.trans curX_memcpy
  · exact color_fillBlank.trans color_memcpy
  · exact hs.memcpy_row.fillBlank (by decide)
  · rw [cell_fillBlank (by decide) hr hc, cell_memcpy_row hr hc]
    by_cases hlast : r < 24
    · rw [if_neg (by omega), if_pos hlast, if_pos hlast]
    · rw [if_pos (by omega), if_neg hlast]

end Vga

/-! ## Characters -/

/-- Tab stops are at the multiples of 8. -/
theorem toNat_tab : ∀ x : BitVec 8, x.toNat < 80 →
    ((x + 8) &&& ~~~7).toNat = (x.toNat / 8 + 1) * 8 := by decide

/-- The printable characters are those from the space up to the end of ASCII. -/
theorem sle_space : ∀ c : BitVec 8,
    (0x20 : BitVec 8).sle c = true ↔ 32 ≤ c.toNat ∧ c.toNat < 128 := by decide

theorem signExtend_ascii : ∀ c : BitVec 8, c.toNat < 128 → c.signExtend 16 = c.setWidth 16 := by
  decide

/-! ## One character -/

/-- The screen shows the rows of the grid from `top` on. The row of the cursor may be the one after
the last row of the screen, which is empty then; `top` is the first row until the cursor has come to
the last row of the screen. -/
structure Shows (top : Nat) (s : Vga) (t : Terminal) : Prop where
  x : s.curX.toNat = t.x
  y : s.curY.toNat + top = t.y
  color : s.color = t.color
  cells : ∀ r < 25, ∀ c < 80, s.cell r c = t.grid (top + r) c
  below : ∀ r, t.y < r → ∀ c, t.grid r c = blankCell
  fresh : 25 ≤ s.curY.toNat → ∀ c, t.grid t.y c = blankCell
  window : top = 0 ∨ 24 ≤ s.curY.toNat
  onScreen : s.OnScreen

namespace Shows

variable {top c x' : Nat} {s : Vga} {t : Terminal} {v : BitVec 16} {a : BitVec 8}

/-- A cell in the row of the cursor. -/
theorem store (h : Shows top s t) (hy : s.curY.toNat < 25) (hc : c < 80) :
    Shows top (s.store (s.curY.toNat * 80 + c) v) (t.set c v) where
  x := h.x
  y := h.y
  color := h.color
  cells := fun r hr c' hc' => by
    have hrow := h.y
    rw [Vga.cell_store (by omega) hr hc', h.cells r hr c' hc']
    have hiff : r * 80 + c' = s.curY.toNat * 80 + c ↔ top + r = t.y ∧ c' = c := by omega
    simp only [hiff]
    rfl
  below := fun r hr c' => by
    show (if r = t.y ∧ c' = c then v else t.grid r c') = blankCell
    rw [if_neg fun heq => Nat.ne_of_gt hr heq.1, h.below r hr c']
  fresh := fun hge => absurd hge (Nat.not_le.mpr hy)
  window := h.window
  onScreen := h.onScreen.store (by omega)

/-- The cursor moves in its row. -/
theorem moveX (h : Shows top s t) (ha : a.toNat = x') :
    Shows top { s with curX := a } { t with x := x' } :=
  ⟨ha, h.y, h.color, h.cells, h.below, h.fresh, h.window, h.onScreen⟩

/-- The cursor moves to the next row. -/
theorem newline (h : Shows top s t) (hy : s.curY.toNat < 25) : Shows top s.newline t.newline := by
  have hnext : (s.curY + 1).toNat = s.curY.toNat + 1 := by bv_omega
  refine ⟨rfl, ?_, h.color, h.cells, fun r hr => h.below r (Nat.lt_of_succ_lt hr), fun _ => ?_, ?_,
    h.onScreen⟩
  · show (s.curY + 1).toNat + top = t.y + 1
    rw [hnext, ← h.y]
    omega
  · exact h.below (t.y + 1) (Nat.lt_succ_self _)
  · show top = 0 ∨ 24 ≤ (s.curY + 1).toNat
    have := h.window
    omega

theorem backspace (h : Shows top s t) (hx : t.x < 80) (hy : s.curY.toNat < 25) :
    Shows top s.backspace t.backspace := by
  have hcur := h.x
  unfold Vga.backspace Terminal.backspace
  by_cases h0 : t.x = 0
  · have hs0 : s.curX = 0 := BitVec.eq_of_toNat_eq (hcur.trans h0)
    rw [if_neg (not_not.mpr hs0), if_neg (not_not.mpr h0)]
    exact h
  · have hs0 : s.curX ≠ 0 := by
      intro hz
      rw [hz] at hcur
      exact h0 hcur.symm
    have hback : (s.curX - 1).toNat = t.x - 1 := by bv_omega
    rw [if_pos hs0, if_pos h0]
    have hmoved := (h.store (c := t.x - 1) (v := blankCell) hy (by omega)).moveX hback
    rw [← hback] at hmoved ⊢
    exact hmoved

theorem print (h : Shows top s t) (hx : t.x < 80) (hy : s.curY.toNat < 25) (ha : a.toNat < 128) :
    Shows top (s.print a) (t.print a) := by
  have hcur := h.x
  have hnext : (s.curX + 1).toNat = t.x + 1 := by bv_omega
  have hmoved := (h.store (c := t.x) (v := a.setWidth 16 ||| t.color) hy hx).moveX hnext
  unfold Vga.print Terminal.print
  rw [signExtend_ascii a ha]
  rw [← h.color, ← h.x] at hmoved ⊢
  exact hmoved

end Shows

namespace Terminal

variable {t : Terminal} {k : Nat}

/-- A character moves the cursor to the end of its row at most, or to the beginning of the next. -/
theorem bound_putChar (hx : t.x < 80) (hy : t.y < k) (a : BitVec 8) :
    ((t.putChar a).x < 80 ∧ (t.putChar a).y ≤ k) ∨
      ((t.putChar a).x = 80 ∧ (t.putChar a).y < k) := by
  unfold putChar
  split
  · unfold backspace
    split
    · exact Or.inl ⟨show t.x - 1 < 80 by omega, Nat.le_of_lt hy⟩
    · exact Or.inl ⟨hx, Nat.le_of_lt hy⟩
  · split
    · show ((t.x / 8 + 1) * 8 < 80 ∧ t.y ≤ k) ∨ ((t.x / 8 + 1) * 8 = 80 ∧ t.y < k)
      omega
    · split
      · exact Or.inl ⟨show 0 < 80 by decide, Nat.le_of_lt hy⟩
      · split
        · exact Or.inl ⟨show 0 < 80 by decide, hy⟩
        · split
          · show (t.x + 1 < 80 ∧ t.y ≤ k) ∨ (t.x + 1 = 80 ∧ t.y < k)
            omega
          · exact Or.inl ⟨hx, Nat.le_of_lt hy⟩

end Terminal

/-- The screen between two characters. -/
structure Displays (s : Vga) (t : Terminal) : Prop where
  shows : Shows t.top s t
  x_lt : t.x < 80

namespace Shows

variable {top : Nat} {s : Vga} {t : Terminal}

theorem putChar (h : Shows top s t) (hx : t.x < 80) (hy : s.curY.toNat < 25) (a : BitVec 8) :
    Shows top (s.putChar a) (t.putChar a) := by
  have hcur := h.x
  unfold Vga.putChar Terminal.putChar
  split
  · exact h.backspace hx hy
  · split
    · refine h.moveX ?_
      rw [toNat_tab s.curX (by omega), h.x]
    · split
      · exact h.moveX rfl
      · split
        · exact h.newline hy
        · by_cases hprint : 32 ≤ a.toNat ∧ a.toNat < 128
          · rw [if_pos ((sle_space a).mpr hprint), if_pos hprint]
            exact h.print hx hy hprint.2
          · rw [if_neg (fun hs => hprint ((sle_space a).mp hs)), if_neg hprint]
            exact h

/-- The end of a row. -/
theorem wrap (h : Shows top s t)
    (hbound : t.x < 80 ∧ t.y ≤ top + 25 ∨ t.x = 80 ∧ t.y < top + 25) :
    Shows top s.wrap t.wrap ∧ t.wrap.x < 80 ∧ t.wrap.y ≤ top + 25 := by
  have hrow := h.y
  have hfull : s.curX ≥ 80 ↔ numCols ≤ t.x := by
    rw [← h.x]
    exact Iff.rfl
  unfold Vga.wrap Terminal.wrap
  by_cases hx : numCols ≤ t.x
  · rw [if_pos (hfull.mpr hx), if_pos hx]
    have hcols : numCols = 80 := rfl
    have hy : t.y < top + 25 := by omega
    exact ⟨h.newline (by omega), show 0 < 80 by decide, hy⟩
  · rw [if_neg (mt hfull.mp hx), if_neg hx]
    have hcols : numCols = 80 := rfl
    exact ⟨h, by omega, by omega⟩

/-- Scrolling moves the window by one row. -/
theorem scroll (h : Shows top s t) (hy : t.y ≤ top + 25) : Shows t.top s.scroll t := by
  have hrow := h.y
  have hwindow := h.window
  have htop : t.top = t.y - 24 := rfl
  by_cases hlt : s.curY.toNat < 25
  · rw [Vga.scroll_of_lt hlt, show t.top = top by omega]
    exact h
  · have heq : s.curY.toNat = 25 := by omega
    obtain ⟨u, hu, hx, hcolor, hscreen, hcells⟩ := Vga.exists_scroll (BitVec.eq_of_toNat_eq heq)
    rw [hu, show t.top = top + 1 by omega]
    refine ⟨hx ▸ h.x, ?_, hcolor.trans h.color, fun r hr c hc => ?_, h.below, fun hge => ?_,
      Or.inr (Nat.le_refl _), hscreen h.onScreen⟩
    · show 24 + (top + 1) = t.y
      omega
    · refine (hcells r hr c hc).trans ?_
      by_cases hlast : r < 24
      · rw [if_pos hlast, h.cells (r + 1) (by omega) c hc, Nat.add_right_comm]
        rfl
      · rw [if_neg hlast, show top + 1 + r = t.y by omega, h.fresh (by omega)]
    · exact absurd hge (show ¬ 25 ≤ 24 by decide)

end Shows

namespace Displays

variable {s : Vga} {t : Terminal}

theorem y_lt (h : Displays s t) : s.curY.toNat < 25 := by
  have hrow := h.shows.y
  have htop : t.top = t.y - 24 := rfl
  omega

theorem putc (h : Displays s t) (a : BitVec 8) : Displays (s.putc a) (t.putc a) := by
  have hrow := h.shows.y
  have hy := h.y_lt
  have hbound := Terminal.bound_putChar (k := t.top + 25) h.x_lt (by omega) a
  obtain ⟨hshows, hx, hle⟩ := (h.shows.putChar h.x_lt hy a).wrap hbound
  exact ⟨hshows.scroll hle, hx⟩

theorem setColor (h : Displays s t) (fg bg : VgaColor) :
    Displays (s.setColor fg bg) (t.setColor fg bg) :=
  ⟨⟨h.shows.x, h.shows.y, rfl, h.shows.cells, h.shows.below, h.shows.fresh, h.shows.window,
    h.shows.onScreen⟩, h.x_lt⟩

end Displays

/-! ## Sequences of calls -/

inductive VgaOp
  | putc (c : BitVec 8)
  | setColor (fg bg : VgaColor)

def Vga.exec (s : Vga) : VgaOp → Vga
  | .putc c => s.putc c
  | .setColor fg bg => s.setColor fg bg

def Terminal.exec (t : Terminal) : VgaOp → Terminal
  | .putc c => t.putc c
  | .setColor fg bg => t.setColor fg bg

/-- The console after `vga_clear`, with the cursor in the corner of the screen. -/
def Vga.start (m : Mem) (color : BitVec 16) : Vga := clear ⟨m, color, 0, 0, []⟩

/-- A cleared screen, whatever was on it. -/
theorem Vga.displays_clear {s : Vga} {n : Nat} (hn : n = 2000) (hx : s.curX = 0) (hy : s.curY = 0)
    (hs : s.OnScreen) : Displays (s.fillBlank 0 n) (.start s.color) where
  shows :=
    { x := by rw [curX_fillBlank, hx]; rfl
      y := by rw [curY_fillBlank, hy]; rfl
      color := color_fillBlank
      cells := fun r hr c hc => by
        rw [cell_fillBlank (by omega) hr hc, if_pos (by omega)]
        rfl
      below := fun _ _ _ => rfl
      fresh := fun _ _ => rfl
      window := Or.inl rfl
      onScreen := hs.fillBlank (by omega) }
  x_lt := show 0 < 80 by decide

theorem displays_start (m : Mem) (color : BitVec 16) : Displays (.start m color) (.start color) :=
  Vga.displays_clear rfl rfl rfl fun _ hw => absurd hw List.not_mem_nil

theorem displays_foldl {s : Vga} {t : Terminal} (h : Displays s t) (ops : List VgaOp) :
    Displays (ops.foldl Vga.exec s) (ops.foldl Terminal.exec t) := by
  induction ops generalizing s t with
  | nil => exact h
  | cons op ops ih =>
    cases op with
    | putc c => exact ih (h.putc c)
    | setColor fg bg => exact ih (h.setColor fg bg)

/-- After every sequence of calls the cursor is on the screen, nothing has been written outside of
the screen, and the screen is the window of the terminal's grid from the row `top` on. -/
theorem console_refines (m : Mem) (color : BitVec 16) (ops : List VgaOp) :
    let s := ops.foldl Vga.exec (.start m color)
    let t := ops.foldl Terminal.exec (.start color)
    s.curX.toNat < 80 ∧ s.curY.toNat < 25 ∧ s.OnScreen ∧
      s.curX.toNat = t.x ∧ s.curY.toNat = t.y - t.top ∧
      ∀ r < 25, ∀ c < 80, s.cell r c = t.grid (t.top + r) c := by
  intro s t
  have h : Displays s t := displays_foldl (displays_start m color) ops
  have hx := h.shows.x
  have hrow := h.shows.y
  have hlt := h.x_lt
  exact ⟨by omega, h.y_lt, h.shows.onScreen, hx, by omega, h.shows.cells⟩

end PiggyOS
