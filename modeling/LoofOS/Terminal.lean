import LoofOS.Console
import Mathlib.Data.List.Infix

/-!
# The Console as a Terminal

What `boot/x86/vesa/vga.c` shows, against a terminal of 25 rows and 80 columns that keeps
the code and the colour of each of its 2000 cells. The terminal knows nothing of rows and
columns except that a line has 80 cells: its cursor is a number below 2000 and counts
modulo 2000.

`display_char` composes a cell from `color` and from a `char`, which is signed. The sign of
a character above 127 fills the colour of its cell, so the console is the terminal in every
state of a run exactly if such characters are output in the colour 0xff only.

`display_string` keeps the row and the column of the next character in variables of its own,
and the row is never brought back to the first one.

## Main results

* `shows_operate_iff`: the step lemma.
* `console_shows_iff`: the runs in which the console is the terminal.
* `displayString_agrees_iff`: the strings for which `display_string` does what the output of
  their characters does.
-/

namespace LoofOS

open Run

/-! ### The terminal -/

/-- What a program asks of the console: a character that is no backspace, or a colour. -/
inductive ConsoleOp where
  | output (c : Int8) (h : ¬ IsBackspace c)
  | setColor (b f : BitVec 32)

/-- The byte for a background and a foreground. -/
def colorByte (b f : BitVec 32) : UInt8 := UInt8.ofBitVec (((b <<< 4) ||| f).setWidth 8)

/-- A terminal of 25 rows and 80 columns. A cell has a code and a colour. -/
structure Terminal where
  cells : Fin 2000 → UInt8 × UInt8
  cursor : Fin 2000
  color : UInt8

namespace Terminal

/-- An empty terminal. -/
def blank (color : UInt8) : Terminal := ⟨fun _ => (32, color), 0, color⟩

/-- The cell at the cursor is filled, and the cursor advances. -/
def fill (t : Terminal) (code : UInt8) : Terminal :=
  { t with
    cells := Function.update t.cells t.cursor (code, t.color)
    cursor := t.cursor + 1 }

/-- A filled cell holds the code and the current color. -/
theorem cells_fill_cursor (t : Terminal) (code : UInt8) :
    (t.fill code).cells t.cursor = (code, t.color) := Function.update_self ..

/-- Only the cell under the cursor is filled. -/
theorem cells_fill_of_ne {t : Terminal} {i : Fin 2000} (h : i ≠ t.cursor) (code : UInt8) :
    (t.fill code).cells i = t.cells i := Function.update_of_ne h ..

/-- The cursor goes to the next row. -/
def newline (t : Terminal) : Terminal := { t with cursor := t.cursor + 80 }

/-- The cursor goes to the first column. -/
def carriageReturn (t : Terminal) : Terminal :=
  { t with cursor := ⟨t.cursor / 80 * 80, by omega⟩ }

/-- What the terminal does. -/
def step (t : Terminal) : ConsoleOp → Terminal
  | .output c _ =>
      if c = 10 then t.newline
      else if c = 13 then t.carriageReturn
      else t.fill c.toUInt8
  | .setColor b f => { t with color := colorByte b f }

end Terminal

/-! ### The console -/

/-- `set_color`. -/
def setColor (v : Vga) (b f : BitVec 32) : Vga := { v with color := colorByte b f }

/-- What the console does. -/
def operate (v : Vga) : ConsoleOp → Vga
  | .output c _ => vgaOutputChar v c
  | .setColor b f => setColor v b f

/-- One step of the console. -/
def operateStep (v : Vga) (op : ConsoleOp) : Option Vga := some (operate v op)

/-- The cell of a code in a colour. -/
def cell (code color : UInt8) : UInt16 := (color.toUInt16 <<< 8) ||| code.toUInt16

/-- The console shows a terminal. -/
structure Shows (v : Vga) (t : Terminal) : Prop where
  text : ∀ i : Fin 2000, v.text (i : ℕ) = cell (t.cells i).1 (t.cells i).2
  cursor : v.cursor = t.cursor
  color : v.color = t.color

/-- A character keeps the colour, if it is below 128 or the colour has all bits set. -/
def KeepsColor (v : Vga) : ConsoleOp → Prop
  | .output c _ => 0 ≤ c.toInt ∨ v.color = 0xff
  | .setColor _ _ => True

/-! ### Cells -/

theorem toNat_cell (code color : UInt8) :
    (cell code color).toNat = 256 * color.toNat + code.toNat := by
  have hcode := code.toNat_lt
  have hcolor := color.toNat_lt
  have h8 : (8 : UInt16).toNat % 16 = 8 := rfl
  rw [cell, UInt16.toNat_or, UInt16.toNat_shiftLeft, UInt8.toNat_toUInt16, UInt8.toNat_toUInt16,
    h8, Nat.mod_eq_of_lt (by rw [Nat.shiftLeft_eq]; omega), ← Nat.shiftLeft_add_eq_or_of_lt hcode,
    Nat.shiftLeft_eq, Nat.mul_comm]

theorem cell_color_inj {code a b : UInt8} : cell code a = cell code b ↔ a = b := by
  refine ⟨fun h => UInt8.toNat_inj.mp ?_, fun h => by rw [h]⟩
  have hnat := congrArg UInt16.toNat h
  rw [toNat_cell, toNat_cell] at hnat
  omega

/-- A signed character is its code, less 256 when negative. -/
theorem toInt_eq_code (c : Int8) :
    c.toInt = c.toUInt8.toNat - if c.toInt < 0 then 256 else 0 := by
  have hcode := c.toUInt8.toNat_lt
  have h : c.toInt = if 2 * c.toUInt8.toNat < 256 then (c.toUInt8.toNat : ℤ)
      else c.toUInt8.toNat - ((256 : ℕ) : ℤ) := c.toBitVec.toInt_eq_toNat_cond
  split_ifs at h ⊢ <;> omega

/-- A sign-extended character is a cell whose colour is the sign. -/
theorem ofInt_toInt (c : Int8) :
    UInt16.ofInt c.toInt = cell c.toUInt8 (if c.toInt < 0 then 0xff else 0) := by
  have hcode := c.toUInt8.toNat_lt
  have hc := toInt_eq_code c
  apply UInt16.toNat_inj.mp
  rw [toNat_cell, UInt16.ofInt, UInt16.toNat_ofNat']
  by_cases hneg : c.toInt < 0
  · rw [if_pos hneg] at hc ⊢
    have h255 : (0xff : UInt8).toNat = 255 := rfl
    omega
  · rw [if_neg hneg] at hc ⊢
    have hzero : (0 : UInt8).toNat = 0 := rfl
    omega

/-- **The cell of `display_char`.** -/
theorem charCell_eq (color : UInt8) (c : Int8) :
    (color.toUInt16 <<< 8) ||| UInt16.ofInt c.toInt
      = cell c.toUInt8 (if c.toInt < 0 then 0xff else color) := by
  rw [ofInt_toInt, cell, ← UInt16.or_assoc, ← UInt16.shiftLeft_or, ← UInt8.toUInt16_or, cell]
  by_cases hneg : c.toInt < 0
  · have hor : color ||| 0xff = 0xff := UInt8.or_neg_one
    rw [if_pos hneg, if_pos hneg, hor]
  · rw [if_neg hneg, if_neg hneg, UInt8.or_zero]

/-! ### Displaying a character -/

/-- `display_char` writes one cell, with every color bit set when the character is negative. -/
theorem text_displayChar (v : Vga) (c : Int8) (row col : ℕ) :
    (displayChar v c row col).text = Function.update v.text ((80 * row + col : ℕ) : ℤ)
      (cell c.toUInt8 (if c.toInt < 0 then 0xff else v.color)) := by
  rw [← charCell_eq]
  rfl

theorem color_setCursorPos (v : Vga) (row col : ℤ) :
    (setCursorPos v row col).color = v.color := rfl

theorem color_displayChar (v : Vga) (c : Int8) (row col : ℤ) :
    (displayChar v c row col).color = v.color := rfl

theorem written_displayChar (v : Vga) (c : Int8) (row col : ℕ) :
    (displayChar v c row col).written = ((80 * row + col : ℕ) : ℤ) :: v.written := rfl

/-- `display_char` leaves the cursor on the next cell. -/
theorem cursor_displayChar (v : Vga) (c : Int8) {row col : ℕ} :
    (displayChar v c row col).cursor = (80 * row + col + 1) % 2000 := by
  have hdiv : ((col : ℤ) + 1).tdiv 80 = (((col + 1) / 80 : ℕ) : ℤ) := rfl
  have hmod : ((col : ℤ) + 1).tmod 80 = (((col + 1) % 80 : ℕ) : ℤ) := rfl
  refine cursor_setCursorPos (p := 80 * row + col + 1) _ ?_
  rw [hdiv, hmod]
  omega

/-! ### The output of a character -/

/-- **A character** that is not a control character. -/
theorem vgaOutputChar_char (v : Vga) {c : Int8} (hn : c ≠ 10) (hr : c ≠ 13)
    (hb : ¬ IsBackspace c) : vgaOutputChar v c =
      displayChar (v.select 0x0e) c (v.cursor / 80 : ℕ) (v.cursor % 80 : ℕ) := by
  simp only [vgaOutputChar, getCursorPos_eq]
  rw [if_neg hn, if_neg hr, if_neg hb]
  rfl

theorem vgaOutputChar_newline (v : Vga) : vgaOutputChar v 10 =
    setCursorPos (v.select 0x0e) ((v.cursor / 80 : ℕ) + 1) (v.cursor % 80 : ℕ) := rfl

theorem vgaOutputChar_return (v : Vga) : vgaOutputChar v 13 =
    setCursorPos (v.select 0x0e) (v.cursor / 80 : ℕ) 0 := rfl

section Step

variable {v : Vga} {t : Terminal}

/-- The cursor is all that is set. -/
theorem Shows.setCursorPos (h : Shows v t) {row col : ℤ} {p : ℕ} {q : Fin 2000}
    (hp : row * 80 + col = p) (hq : p % 2000 = q) :
    Shows (setCursorPos (v.select 0x0e) row col) { t with cursor := q } where
  text := h.text
  cursor := (cursor_setCursorPos _ hp).trans hq
  color := h.color

/-- **A character fills its cell**, with the colour of the terminal or, where it is negative,
with that of the sign. -/
theorem shows_fill_iff (h : Shows v t) {c : Int8} (hn : c ≠ 10) (hr : c ≠ 13)
    (hb : ¬ IsBackspace c) :
    Shows (vgaOutputChar v c) (t.fill c.toUInt8) ↔ 0 ≤ c.toInt ∨ v.color = 0xff := by
  have hpos : 80 * (v.cursor / 80) + v.cursor % 80 = t.cursor := by
    rw [h.cursor]
    omega
  have htext : (vgaOutputChar v c).text = Function.update v.text ((t.cursor : ℕ) : ℤ)
      (cell c.toUInt8 (if c.toInt < 0 then 0xff else v.color)) := by
    rw [vgaOutputChar_char v hn hr hb, text_displayChar, hpos]
    rfl
  constructor
  · intro hshows
    have hcell := hshows.text t.cursor
    rw [htext, Function.update_self, Terminal.cells_fill_cursor, cell_color_inj,
      ← h.color] at hcell
    by_cases hneg : c.toInt < 0
    · rw [if_pos hneg] at hcell
      exact Or.inr hcell.symm
    · exact Or.inl (by omega)
  · intro hkeeps
    have hcolor : (if c.toInt < 0 then 0xff else v.color) = t.color := by
      rw [← h.color]
      split_ifs with hneg
      · exact (hkeeps.resolve_left (by omega)).symm
      · rfl
    refine ⟨fun i => ?_, ?_, ?_⟩
    · rw [htext, hcolor]
      by_cases hi : i = t.cursor
      · rw [hi, Function.update_self, Terminal.cells_fill_cursor]
      · have hne : ((i : ℕ) : ℤ) ≠ ((t.cursor : ℕ) : ℤ) := fun heq =>
          hi (Fin.ext (Int.natCast_inj.mp heq))
        rw [Function.update_of_ne hne, Terminal.cells_fill_of_ne hi]
        exact h.text i
    · rw [vgaOutputChar_char v hn hr hb, cursor_displayChar, hpos, Terminal.fill, Fin.val_add]
      rfl
    · rw [vgaOutputChar_char v hn hr hb]
      exact h.color

/-- **The step lemma**: from a state that shows the terminal, a step leads to one that does
if and only if it keeps the colour. -/
theorem shows_operate_iff (h : Shows v t) (op : ConsoleOp) :
    Shows (operate v op) (t.step op) ↔ KeepsColor v op := by
  cases op with
  | setColor b f => exact iff_of_true ⟨h.text, h.cursor, rfl⟩ trivial
  | output c hb =>
      rw [operate, Terminal.step, KeepsColor]
      by_cases hn : c = 10
      · have hpos : 0 ≤ c.toInt := by simp [hn]
        rw [if_pos hn, hn, vgaOutputChar_newline]
        refine iff_of_true ?_ (Or.inl (hn ▸ hpos))
        refine h.setCursorPos (p := v.cursor + 80) ?_ ?_
        · omega
        · rw [h.cursor, Fin.val_add]
          rfl
      by_cases hr : c = 13
      · have hpos : 0 ≤ c.toInt := by simp [hr]
        rw [if_neg hn, if_pos hr, hr, vgaOutputChar_return]
        refine iff_of_true ?_ (Or.inl (hr ▸ hpos))
        refine h.setCursorPos (p := v.cursor / 80 * 80) (by omega) ?_
        have hlt := t.cursor.isLt
        rw [h.cursor]
        exact Nat.mod_eq_of_lt (by omega)
      rw [if_neg hn, if_neg hr]
      exact shows_fill_iff h hn hr hb

end Step

/-! ### Runs -/

/-- A run of `display_char` over the first cells, with blanks. -/
theorem clear_cells {v w : Vga} {n : ℕ} (h : (List.range n).foldl
    (fun v (i : ℕ) => displayChar v 32 ((i : ℤ).tdiv 80) ((i : ℤ).tmod 80)) v = w) :
    (∀ i : ℕ, i < n → w.text i = cell 32 v.color) ∧ w.color = v.color := by
  induction n generalizing w with
  | zero => exact ⟨fun i hi => absurd hi (Nat.not_lt_zero i), by rw [← h]; rfl⟩
  | succ n ih =>
      subst h
      rw [List.range_succ, List.foldl_append]
      generalize hw : (List.range n).foldl
        (fun v (i : ℕ) => displayChar v 32 ((i : ℤ).tdiv 80) ((i : ℤ).tmod 80)) v = w
      obtain ⟨htext, hcolor⟩ := ih hw
      have hindex : 80 * (n / 80) + n % 80 = n := by omega
      have hdisplay : (displayChar w 32 ((n : ℤ).tdiv 80) ((n : ℤ).tmod 80)).text
          = Function.update w.text (n : ℤ) (cell 32 v.color) := by
        have h := text_displayChar w 32 (n / 80) (n % 80)
        rw [hindex, hcolor] at h
        exact h
      refine ⟨fun i hi => ?_, hcolor⟩
      rw [List.foldl_cons, List.foldl_nil, hdisplay]
      by_cases hin : i = n
      · rw [hin, Function.update_self]
      · rw [Function.update_of_ne (by omega)]
        exact htext i (by omega)

/-- **The console after a reset** shows an empty terminal. -/
theorem shows_resetConsole (index : UInt8) (regs : UInt8 → UInt8) (text : ℤ → UInt16)
    (color : UInt8) : Shows (resetConsole index regs text color) (Terminal.blank color) := by
  rw [resetConsole, resetDisplay]
  generalize hw : List.foldl _ _ (List.range 2000) = w
  obtain ⟨htext, hcolor⟩ := clear_cells hw
  exact ⟨fun i => htext i i.isLt, cursor_setCursorPos (p := 0) w (by simp),
    (color_setCursorPos w 0 0).trans hcolor⟩

/-- **The console is the terminal**: from any hardware, after every part of a run the screen,
the cursor and the colour are those of the terminal if and only if every character that is
output is below 128 or comes in the colour with all bits set. -/
theorem console_shows_iff (index : UInt8) (regs : UInt8 → UInt8) (text : ℤ → UInt16)
    (color : UInt8) (ops : List ConsoleOp) :
    (∀ done, done <+: ops → Shows (done.foldl operate (resetConsole index regs text color))
      (done.foldl Terminal.step (Terminal.blank color))) ↔
      Meets operateStep KeepsColor (resetConsole index regs text color) ops := by
  have hreset := shows_resetConsole index regs text color
  generalize resetConsole index regs text color = v at hreset ⊢
  generalize Terminal.blank color = t at hreset ⊢
  induction ops generalizing v t with
  | nil =>
      refine iff_of_true (fun done hdone => ?_) trivial
      rw [List.prefix_nil.mp hdone]
      exact hreset
  | cons op ops ih =>
      constructor
      · intro hall
        have hkeeps := (shows_operate_iff hreset op).mp (hall [op] (by simp))
        refine ⟨hkeeps, fun v' hstep => ?_⟩
        obtain rfl := Option.some.inj hstep
        exact (ih _ _ ((shows_operate_iff hreset op).mpr hkeeps)).mp fun done hdone =>
          hall (op :: done) (List.cons_prefix_cons.mpr ⟨rfl, hdone⟩)
      · rintro ⟨hkeeps, hrest⟩ done hdone
        rcases List.prefix_cons_iff.mp hdone with rfl | ⟨later, rfl, hlater⟩
        · exact hreset
        · exact (ih _ _ ((shows_operate_iff hreset op).mpr hkeeps)).mpr (hrest _ rfl) later
            hlater

/-- **A character above 127 after a reset** is not shown in the colour of the terminal. -/
theorem console_shows_fails :
    ¬ ∀ (index : UInt8) (regs : UInt8 → UInt8) (text : ℤ → UInt16) (color : UInt8)
      (ops : List ConsoleOp), Shows (ops.foldl operate (resetConsole index regs text color))
        (ops.foldl Terminal.step (Terminal.blank color)) := by
  intro hall
  have hreset := shows_resetConsole 0 (fun _ => 0) (fun _ => 0) 0x0f
  have hshows := hall 0 (fun _ => 0) (fun _ => 0) 0x0f [.output (-60) (by decide)]
  rcases (shows_operate_iff hreset (.output (-60) (by decide))).mp hshows with hpos | hcolor
  · simp at hpos
  · rw [hreset.color] at hcolor
    simp [Terminal.blank] at hcolor

/-! ### Strings -/

/-- `display_string`, for the characters in front of the terminating NUL. -/
def displayString (v : Vga) : List Int8 → ℤ → ℤ → Vga
  | [], _, _ => v
  | c :: str, row, col =>
      if c = 0 then v
      else displayString (displayChar v c row col) str (row + (col + 1).tdiv 80) ((col + 1).tmod 80)

/-- The printable characters of seven bits. -/
def IsPrintable (c : Int8) : Prop := 32 ≤ c.toInt ∧ c.toInt < 127

/-- `display_string` does what the output of the characters from the same position on does,
and writes to no other memory. -/
structure PathsAgree (v : Vga) (str : List Int8) (row col : ℕ) : Prop where
  text : ∀ i : ℤ, 0 ≤ i → i < 2000 → (displayString v str row col).text i
    = (str.foldl vgaOutputChar (setCursorPos v row col)).text i
  cursor : (displayString v str row col).cursor
    = (str.foldl vgaOutputChar (setCursorPos v row col)).cursor
  inside : ∃ new, (displayString v str row col).written = new ++ v.written ∧
    ∀ i ∈ new, 0 ≤ i ∧ i < 2000

section Strings

variable {c : Int8} {str : List Int8} {row col : ℕ}

theorem IsPrintable.ne (h : IsPrintable c) : c ≠ 0 ∧ c ≠ 10 ∧ c ≠ 13 ∧ ¬ IsBackspace c := by
  refine ⟨?_, ?_, ?_, ?_⟩
  · rintro rfl
    simp [IsPrintable] at h
  · rintro rfl
    simp [IsPrintable] at h
  · rintro rfl
    simp [IsPrintable] at h
  · rintro (rfl | rfl)
    · simp [IsPrintable] at h
    · simp [IsPrintable] at h

/-- The first character is displayed, then the rest from the next cell. -/
theorem displayString_cons (v : Vga) (hc : IsPrintable c) (str : List Int8) (row col : ℕ) :
    displayString v (c :: str) row col = displayString (displayChar v c row col) str
      (row + (col + 1) / 80 : ℕ) ((col + 1) % 80 : ℕ) := by
  rw [displayString, if_neg hc.ne.1]
  rfl

/-- The cells that `display_string` writes are those from the start on, one a character. -/
theorem written_displayString (v : Vga) (hstr : ∀ c ∈ str, IsPrintable c) (row col : ℕ) :
    ∃ new, (displayString v str row col).written = new ++ v.written ∧
      ∀ i : ℤ, i ∈ new ↔ (80 * row + col : ℕ) ≤ i ∧ i < (80 * row + col + str.length : ℕ) := by
  induction str generalizing v row col with
  | nil =>
      refine ⟨[], rfl, fun i => iff_of_false List.not_mem_nil ?_⟩
      rw [List.length_nil]
      omega
  | cons c str ih =>
      obtain ⟨new, hnew, hmem⟩ := ih (displayChar v c row col)
        (fun d hd => hstr d (List.mem_cons_of_mem c hd)) (row + (col + 1) / 80) ((col + 1) % 80)
      rw [displayString_cons v (hstr c List.mem_cons_self), hnew, written_displayChar]
      refine ⟨new ++ [((80 * row + col : ℕ) : ℤ)], by simp, fun i => ?_⟩
      rw [List.mem_append, hmem, List.mem_singleton, List.length_cons]
      omega

/-- After a string the cursor is as many cells further, modulo the screen. -/
theorem cursor_displayString (v : Vga) (hstr : ∀ c ∈ str, IsPrintable c) (hne : str ≠ [])
    (row col : ℕ) :
    (displayString v str row col).cursor = (80 * row + col + str.length) % 2000 := by
  induction str generalizing v row col with
  | nil => exact absurd rfl hne
  | cons c str ih =>
      rw [displayString_cons v (hstr c List.mem_cons_self)]
      rcases eq_or_ne str [] with rfl | hrest
      · exact cursor_displayChar v c
      · rw [ih _ (fun d hd => hstr d (List.mem_cons_of_mem c hd)) hrest, List.length_cons]
        congr 1
        omega

/-- The output of a printable character. -/
theorem vgaOutputChar_printable (w : Vga) (hc : IsPrintable c) :
    (vgaOutputChar w c).text = Function.update w.text (w.cursor : ℤ)
        (cell c.toUInt8 (if c.toInt < 0 then 0xff else w.color)) ∧
      (vgaOutputChar w c).cursor = (w.cursor + 1) % 2000 ∧
      (vgaOutputChar w c).color = w.color := by
  obtain ⟨-, hn, hr, hb⟩ := hc.ne
  have hindex : 80 * (w.cursor / 80) + w.cursor % 80 = w.cursor := by omega
  rw [vgaOutputChar_char w hn hr hb, text_displayChar, cursor_displayChar, hindex]
  exact ⟨rfl, rfl, rfl⟩

/-- Printable characters move the cursor one cell each. -/
theorem cursor_foldl_output {w : Vga} (hstr : ∀ c ∈ str, IsPrintable c) (hw : w.cursor < 2000) :
    (str.foldl vgaOutputChar w).cursor = (w.cursor + str.length) % 2000 := by
  induction str generalizing w with
  | nil => exact (Nat.mod_eq_of_lt hw).symm
  | cons c str ih =>
      obtain ⟨-, hcursor, -⟩ := vgaOutputChar_printable w (hstr c List.mem_cons_self)
      rw [List.foldl_cons, ih (fun d hd => hstr d (List.mem_cons_of_mem c hd)) (by omega), hcursor,
        List.length_cons]
      omega

/-- **The two paths write the same cells**, as long as they are on the screen. -/
theorem text_displayString {v w : Vga} (hstr : ∀ c ∈ str, IsPrintable c)
    (hfit : 80 * row + col + str.length ≤ 2000) (htext : v.text = w.text)
    (hcolor : v.color = w.color) (hcursor : w.cursor = (80 * row + col) % 2000) :
    (displayString v str row col).text = (str.foldl vgaOutputChar w).text := by
  induction str generalizing v w row col with
  | nil => exact htext
  | cons c str ih =>
      rw [List.length_cons] at hfit
      have hc := hstr c List.mem_cons_self
      obtain ⟨htext', hcursor', hcolor'⟩ := vgaOutputChar_printable w hc
      have hstart : w.cursor = 80 * row + col := by omega
      rw [displayString_cons v hc, List.foldl_cons]
      refine ih (fun d hd => hstr d (List.mem_cons_of_mem c hd)) (by omega) ?_ ?_ (by omega)
      · rw [text_displayChar, htext', htext, hcolor, hstart]
      · rw [color_displayChar, hcolor', hcolor]

/-- A string whose characters are all written to the screen ends there. -/
theorem PathsAgree.fits {v : Vga} (h : PathsAgree v str row col)
    (hstr : ∀ c ∈ str, IsPrintable c) (hrow : row < 25) (hcol : col < 80) :
    80 * row + col + str.length ≤ 2000 := by
  obtain ⟨new, hnew, hinside⟩ := h.inside
  obtain ⟨new', hnew', hmem⟩ := written_displayString v hstr row col
  obtain rfl : new' = new := List.append_cancel_right (hnew'.symm.trans hnew)
  by_contra hpast
  have h2000 := hinside 2000 ((hmem 2000).mpr (by omega))
  omega

/-- **The two ways to output a string** agree, from every state of the hardware, if and only
if the string ends on the screen and, where it is empty, the cursor is at its start already. -/
theorem displayString_agrees_iff (v : Vga) (hstr : ∀ c ∈ str, IsPrintable c) (hrow : row < 25)
    (hcol : col < 80) : PathsAgree v str row col ↔
      (str = [] → v.cursor = 80 * row + col) ∧ 80 * row + col + str.length ≤ 2000 := by
  have hset : (setCursorPos v row col).cursor = 80 * row + col := by
    rw [cursor_setCursorPos (p := 80 * row + col) v (by omega), Nat.mod_eq_of_lt (by omega)]
  have hout := cursor_foldl_output (w := setCursorPos v row col) hstr (by omega)
  rw [hset] at hout
  constructor
  · intro hagree
    refine ⟨fun hnil => ?_, hagree.fits hstr hrow hcol⟩
    subst hnil
    exact hagree.cursor.trans hset
  · rintro ⟨hempty, hfit⟩
    obtain ⟨new, hnew, hmem⟩ := written_displayString v hstr row col
    refine ⟨fun i _ _ => ?_, ?_, new, hnew, fun i hi => ?_⟩
    · have htext := text_displayString (v := v) (w := setCursorPos v row col) hstr hfit rfl rfl
        (by omega)
      rw [htext]
    · rcases eq_or_ne str [] with rfl | hne
      · exact (hempty rfl).trans hset.symm
      · rw [hout, cursor_displayString v hstr hne]
    · have hi := (hmem i).mp hi
      omega

end Strings

theorem isPrintable_replicate (n : ℕ) : ∀ c ∈ List.replicate n (65 : Int8), IsPrintable c := by
  intro c hc
  rw [List.eq_of_mem_replicate hc]
  simp [IsPrintable]

/-- One character in the last cell. -/
theorem displayString_agrees_last :
    PathsAgree ⟨0, fun _ => 0, fun _ => 0, 0x0f, [], []⟩ [65] 24 79 :=
  (displayString_agrees_iff _ (isPrintable_replicate 1) (by omega) (by omega)).mpr
    ⟨fun h => absurd h (List.cons_ne_nil _ _), Nat.le_refl 2000⟩

/-- **Two characters from the last cell on.** -/
theorem displayString_disagrees :
    ¬ ∀ (v : Vga) (str : List Int8) (row col : ℕ), (∀ c ∈ str, IsPrintable c) → row < 25 →
      col < 80 → PathsAgree v str row col := by
  intro hall
  have hstr := isPrintable_replicate 2
  have hagree := hall ⟨0, fun _ => 0, fun _ => 0, 0x0f, [], []⟩ [65, 65] 24 79 hstr (by omega)
    (by omega)
  have hfits : 2001 ≤ 2000 := hagree.fits hstr (by omega) (by omega)
  omega

end LoofOS
