import LoofOS.Run
import Mathlib.Data.Int.Notation
import Mathlib.Logic.Function.Basic

/-!
# The Text Console of the Boot Loader

`boot/x86/vesa/vga.c`: a screen of 25 rows and 80 columns, whose cursor is kept in two
8-bit registers of the VGA hardware. The registers return what was last written to them.
Values of type `int` are integers; none of the computations leaves the range of 32 bits.

`Vga` carries, beside the hardware, the positions that the cursor was set to and the
indices at which the text buffer was written (most recent first). No function reads them.

The cursor stays on the screen, and all writes in the buffer, until a backspace arrives
while the cursor is in the first column of the first row: `(0 - 1) / 80` is `0` and
`(0 - 1) % 80` is `-1`, so the buffer is written in front of its start.

## Main results

* `setCursorPos_pos`: the cursor after it was set.
* `vgaOutputChar_inv`, `backspace_at_home`: the step lemmas.
* `console_inScreen_iff`: when a whole run stays on the screen.
-/

namespace LoofOS

open Run

/-- The VGA hardware: the register that is selected, the registers and the text buffer;
`color`; and what happened so far. -/
structure Vga where
  index : UInt8
  regs : UInt8 → UInt8
  text : ℤ → UInt16
  color : UInt8
  visited : List ℕ
  written : List ℤ

/-- The low byte of an `int`. -/
def byteOf (x : ℤ) : UInt8 := UInt8.ofNat (x % 256).toNat

namespace Vga

/-- `outportb` to `VGA_TEXT_INDEX`. -/
def select (v : Vga) (r : UInt8) : Vga := { v with index := r }

/-- `outportb` to `VGA_TEXT_DATA`. -/
def outData (v : Vga) (b : UInt8) : Vga := { v with regs := Function.update v.regs v.index b }

/-- `inportb` from `VGA_TEXT_DATA`. -/
def inData (v : Vga) : UInt8 := v.regs v.index

/-- The position in the registers 0x0e and 0x0f. -/
def cursor (v : Vga) : ℕ := (v.regs 0x0f).toNat + 256 * (v.regs 0x0e).toNat

end Vga

/-- `set_cursor_pos`. -/
def setCursorPos (v : Vga) (row col : ℤ) : Vga :=
  let pos := (row * 80 + col).tmod (25 * 80)
  let v := (v.select 0x0f).outData (byteOf pos)
  let v := (v.select 0x0e).outData (byteOf (pos / 256))
  { v with visited := v.cursor :: v.visited }

/-- `get_cursor_pos`. -/
def getCursorPos (v : Vga) : ℕ × Vga :=
  let v := v.select 0x0f
  let low := v.inData
  let v := v.select 0x0e
  (low.toNat + 256 * v.inData.toNat, v)

/-- `display_char`; the character is sign-extended. -/
def displayChar (v : Vga) (c : Int8) (row col : ℤ) : Vga :=
  let cell : UInt16 := (v.color.toUInt16 <<< 8) ||| UInt16.ofInt c.toInt
  let v := { v with
    text := Function.update v.text (80 * row + col) cell
    written := (80 * row + col) :: v.written }
  setCursorPos v (row + (col + 1).tdiv 80) ((col + 1).tmod 80)

/-- `reset_display`. -/
def resetDisplay (v : Vga) : Vga :=
  let v := (List.range 2000).foldl
    (fun v (i : ℕ) => displayChar v 32 ((i : ℤ).tdiv 80) ((i : ℤ).tmod 80)) v
  setCursorPos v 0 0

/-- The characters that delete to the left. -/
def IsBackspace (c : Int8) : Prop := c = 8 ∨ c = 127

instance (c : Int8) : Decidable (IsBackspace c) := inferInstanceAs (Decidable (_ ∨ _))

/-- `vga_output_char`. -/
def vgaOutputChar (v : Vga) (c : Int8) : Vga :=
  let (pos, v) := getCursorPos v
  let curPos : ℤ := pos
  if c = 10 then
    setCursorPos v (curPos.tdiv 80 + 1) (curPos.tmod 80)
  else if c = 13 then
    setCursorPos v (curPos.tdiv 80) 0
  else if IsBackspace c then
    setCursorPos (displayChar v 32 ((curPos - 1).tdiv 80) ((curPos - 1).tmod 80))
      ((curPos - 1).tdiv 80) ((curPos - 1).tmod 80)
  else
    displayChar v c (curPos.tdiv 80) (curPos.tmod 80)

/-- The console after `reset_display`, on any hardware. -/
def resetConsole (index : UInt8) (regs : UInt8 → UInt8) (text : ℤ → UInt16) (color : UInt8) : Vga :=
  resetDisplay ⟨index, regs, text, color, [], []⟩

/-- One character of the output. -/
def consoleStep (v : Vga) (c : Int8) : Option Vga := some (vgaOutputChar v c)

/-- The cursor was always on the screen, and the buffer was written nowhere else. -/
def InScreen (v : Vga) : Prop :=
  (∀ p ∈ v.visited, p < 2000) ∧ ∀ i ∈ v.written, 0 ≤ i ∧ i < 2000

/-- The character is not a backspace in the first column of the first row. -/
def NotBackAtHome (v : Vga) (c : Int8) : Prop := ¬ (IsBackspace c ∧ v.cursor = 0)

instance (v : Vga) (c : Int8) : Decidable (NotBackAtHome v c) :=
  inferInstanceAs (Decidable (¬ (_ ∧ _)))

/-! ### The cursor -/

theorem toNat_byteOf (x : ℤ) : (byteOf x).toNat = (x % 256).toNat := by
  rw [byteOf, UInt8.toNat_ofNat']
  omega

theorem regs_setCursorPos (v : Vga) (row col : ℤ) : (setCursorPos v row col).regs =
    Function.update (Function.update v.regs 0x0f (byteOf ((row * 80 + col).tmod (25 * 80)))) 0x0e
      (byteOf ((row * 80 + col).tmod (25 * 80) / 256)) := rfl

/-- **The cursor** after it was set to a position with the given index. -/
theorem cursor_setCursorPos (v : Vga) {row col : ℤ} {p : ℕ} (h : row * 80 + col = p) :
    (setCursorPos v row col).cursor = p % 2000 := by
  have hpos : (row * 80 + col).tmod (25 * 80) = ((p % 2000 : ℕ) : ℤ) := by
    rw [h]
    rfl
  have hne : (0x0f : UInt8) ≠ 0x0e := by simp
  rw [Vga.cursor, regs_setCursorPos, hpos, Function.update_of_ne hne, Function.update_self,
    Function.update_self, toNat_byteOf, toNat_byteOf]
  omega

theorem visited_setCursorPos (v : Vga) (row col : ℤ) :
    (setCursorPos v row col).visited = (setCursorPos v row col).cursor :: v.visited := rfl

theorem written_setCursorPos (v : Vga) (row col : ℤ) :
    (setCursorPos v row col).written = v.written := rfl

/-- The state in which the cursor is on the screen, and always was. -/
structure OnScreen (v : Vga) : Prop where
  inScreen : InScreen v
  cursor_lt : v.cursor < 2000

/-- Setting the cursor to a position with a nonnegative index keeps it on the screen. -/
theorem OnScreen.setCursorPos {v : Vga} (h : InScreen v) {row col : ℤ} {p : ℕ}
    (hp : row * 80 + col = p) : OnScreen (setCursorPos v row col) := by
  have hcursor : (LoofOS.setCursorPos v row col).cursor < 2000 := by
    rw [cursor_setCursorPos v hp]
    exact Nat.mod_lt p (by simp)
  refine ⟨⟨?_, ?_⟩, hcursor⟩
  · intro q hq
    rw [visited_setCursorPos] at hq
    rcases List.mem_cons.mp hq with rfl | hq
    · exact hcursor
    · exact h.1 q hq
  · rw [written_setCursorPos]
    exact h.2

/-- **Displaying a character** at a position of the screen. -/
theorem OnScreen.displayChar {v : Vga} (h : InScreen v) (c : Int8) {p : ℕ} (hp : p < 2000) :
    OnScreen (displayChar v c ((p : ℤ).tdiv 80) ((p : ℤ).tmod 80)) := by
  have hdiv : (p : ℤ).tdiv 80 = ((p / 80 : ℕ) : ℤ) := rfl
  have hmod : (p : ℤ).tmod 80 = ((p % 80 : ℕ) : ℤ) := rfl
  rw [LoofOS.displayChar, hdiv, hmod]
  have hcol : ((p % 80 : ℕ) : ℤ) + 1 = ((p % 80 + 1 : ℕ) : ℤ) := by push_cast; rfl
  have hnext : (((p / 80 : ℕ) : ℤ) + (((p % 80 : ℕ) : ℤ) + 1).tdiv 80) * 80
      + (((p % 80 : ℕ) : ℤ) + 1).tmod 80 = ((p + 1 : ℕ) : ℤ) := by
    have hd : ((p % 80 + 1 : ℕ) : ℤ).tdiv 80 = (((p % 80 + 1) / 80 : ℕ) : ℤ) := rfl
    have hm : ((p % 80 + 1 : ℕ) : ℤ).tmod 80 = (((p % 80 + 1) % 80 : ℕ) : ℤ) := rfl
    rw [hcol, hd, hm]
    omega
  refine OnScreen.setCursorPos ?_ hnext
  refine ⟨h.1, fun i hi => ?_⟩
  rcases List.mem_cons.mp hi with rfl | hi
  · omega
  · exact h.2 i hi

/-- **The screen after a reset.** -/
theorem onScreen_resetConsole (index : UInt8) (regs : UInt8 → UInt8) (text : ℤ → UInt16)
    (color : UInt8) : OnScreen (resetConsole index regs text color) := by
  have hclear : ∀ (n : ℕ) (v : Vga), n ≤ 2000 → InScreen v → InScreen ((List.range n).foldl
      (fun v (i : ℕ) => displayChar v 32 ((i : ℤ).tdiv 80) ((i : ℤ).tmod 80)) v) := by
    intro n v hn h
    induction n with
    | zero => exact h
    | succ n ih =>
        rw [List.range_succ, List.foldl_append]
        exact (OnScreen.displayChar (ih (by omega)) 32 (by omega)).inScreen
  rw [resetConsole, resetDisplay]
  refine OnScreen.setCursorPos (p := 0) (hclear 2000 _ (Nat.le_refl _) ⟨?_, ?_⟩) (by simp)
  · exact fun _ hp => absurd hp List.not_mem_nil
  · exact fun _ hi => absurd hi List.not_mem_nil

/-- Reading the cursor gives the position in the registers, and changes none of them. -/
theorem getCursorPos_eq (v : Vga) :
    getCursorPos v = (v.cursor, v.select 0x0e) := rfl

/-- **A character that is no backspace at the start of the screen.** -/
theorem OnScreen.vgaOutputChar {v : Vga} (h : OnScreen v) {c : Int8} (hc : NotBackAtHome v c) :
    OnScreen (vgaOutputChar v c) := by
  have hin : InScreen (v.select 0x0e) := h.inScreen
  have hlt := h.cursor_lt
  have hdiv : (v.cursor : ℤ).tdiv 80 = ((v.cursor / 80 : ℕ) : ℤ) := rfl
  have hmod : (v.cursor : ℤ).tmod 80 = ((v.cursor % 80 : ℕ) : ℤ) := rfl
  simp only [LoofOS.vgaOutputChar, getCursorPos_eq]
  by_cases hnewline : c = 10
  · rw [if_pos hnewline]
    refine OnScreen.setCursorPos (p := v.cursor + 80) hin ?_
    rw [hdiv, hmod]
    omega
  rw [if_neg hnewline]
  by_cases hreturn : c = 13
  · rw [if_pos hreturn]
    refine OnScreen.setCursorPos (p := v.cursor / 80 * 80) hin ?_
    rw [hdiv]
    omega
  rw [if_neg hreturn]
  by_cases hback : IsBackspace c
  · rw [if_pos hback]
    have hpos : v.cursor ≠ 0 := fun h0 => hc ⟨hback, h0⟩
    have hpred : (v.cursor : ℤ) - 1 = ((v.cursor - 1 : ℕ) : ℤ) := by omega
    have hdiv' : ((v.cursor - 1 : ℕ) : ℤ).tdiv 80 = (((v.cursor - 1) / 80 : ℕ) : ℤ) := rfl
    have hmod' : ((v.cursor - 1 : ℕ) : ℤ).tmod 80 = (((v.cursor - 1) % 80 : ℕ) : ℤ) := rfl
    simp only [hpred]
    refine OnScreen.setCursorPos (p := v.cursor - 1)
      (OnScreen.displayChar hin 32 (by omega)).inScreen ?_
    rw [hdiv', hmod']
    omega
  · rw [if_neg hback]
    exact OnScreen.displayChar hin c hlt

/-! ### What was written -/

/-- Nothing is taken back: an index that was written stays recorded. -/
theorem mem_written_vgaOutputChar {v : Vga} (c : Int8) {i : ℤ} (hi : i ∈ v.written) :
    i ∈ (vgaOutputChar v c).written := by
  simp only [vgaOutputChar, getCursorPos_eq]
  split
  · exact hi
  split
  · exact hi
  split
  · exact List.mem_cons_of_mem _ hi
  · exact List.mem_cons_of_mem _ hi

/-- **A backspace at the start of the screen** writes in front of the text buffer. -/
theorem backspace_at_home {v : Vga} {c : Int8} (h : ¬ NotBackAtHome v c) :
    -1 ∈ (vgaOutputChar v c).written := by
  obtain ⟨hback, hhome⟩ := Classical.not_not.mp h
  have hne : c ≠ 10 ∧ c ≠ 13 := by
    rcases hback with rfl | rfl <;> decide
  simp only [vgaOutputChar, getCursorPos_eq]
  rw [if_neg hne.1, if_neg hne.2, if_pos hback, hhome]
  exact List.mem_cons_self

/-! ### Runs -/

/-- **The console**, for every output from every state of the hardware: the cursor was
always on the screen and the text buffer was written nowhere else, exactly when no
backspace came while the cursor was in the first column of the first row. -/
theorem console_inScreen_iff (index : UInt8) (regs : UInt8 → UInt8) (text : ℤ → UInt16)
    (color : UInt8) (chars : List Int8) :
    (∃ v, exec consoleStep (resetConsole index regs text color) chars = some v ∧ InScreen v) ↔
      Meets consoleStep NotBackAtHome (resetConsole index regs text color) chars := by
  have hreset := onScreen_resetConsole index regs text color
  generalize resetConsole index regs text color = v₀ at hreset ⊢
  constructor
  · rintro ⟨v, hrun, hin⟩
    induction chars generalizing v₀ with
    | nil => trivial
    | cons c chars ih =>
        obtain ⟨v', hstep, hrest⟩ := exec_cons_inv hrun
        obtain rfl := Option.some.inj hstep
        have hnot : NotBackAtHome v₀ c := by
          by_contra hback
          have hmem : -1 ∈ v.written :=
            exec_invariant (I := fun v => -1 ∈ v.written)
              (fun v c v' hv hstep => by
                obtain rfl := Option.some.inj hstep
                exact mem_written_vgaOutputChar c hv)
              (backspace_at_home hback) hrest
          exact absurd (hin.2 _ hmem).1 (by simp)
        refine ⟨hnot, fun v' hstep => ?_⟩
        obtain rfl := Option.some.inj hstep
        exact ih _ (hreset.vgaOutputChar hnot) hrest
  · intro hmeets
    obtain ⟨v, hrun, hv⟩ := exec_total (I := OnScreen)
      (fun v c hv hc => ⟨vgaOutputChar v c, rfl, hv.vgaOutputChar hc⟩) hreset hmeets
    exact ⟨v, hrun, hv.inScreen⟩

/-- **A backspace after a reset.** -/
theorem console_backspace :
    ¬ ∀ (index : UInt8) (regs : UInt8 → UInt8) (text : ℤ → UInt16) (color : UInt8)
      (chars : List Int8),
      ∃ v, exec consoleStep (resetConsole index regs text color) chars = some v ∧ InScreen v := by
  intro hall
  obtain ⟨v, hrun, hin⟩ := hall 0 (fun _ => 0) (fun _ => 0) 0x0f [8]
  obtain rfl := Option.some.inj hrun
  have hhome : (resetConsole 0 (fun _ => 0) (fun _ => 0) 0x0f).cursor = 0 :=
    cursor_setCursorPos (p := 0) _ (by simp)
  have hmem := @backspace_at_home (resetConsole 0 (fun _ => 0) (fun _ => 0) 0x0f) 8
    fun hnot => hnot ⟨Or.inl rfl, hhome⟩
  exact absurd (hin.2 _ hmem).1 (by simp)

end LoofOS
