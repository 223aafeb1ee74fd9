import Mathlib.Data.Nat.Bitwise
import Mathlib.Logic.Function.Basic
import Mathlib.Tactic.Common

/-!
# Byte-Addressed Memory

Memory is a total function from addresses to bytes. Besides single bytes it is read and
written in 32-bit little-endian words (`read32`, `write32`), whose value is a natural
number: writing keeps the low 32 bits.

## Main results

* `read32_write32_self`, `read32_write32_of_disjoint`: a word read after a word written,
  at the same place and beside it.
* `read32_congr`: a word depends on its four bytes only.
* `xor_two_pow_of_testBit_false`, `xor_two_pow_of_testBit_true`: flipping one bit of an
  address adds or subtracts its weight.
-/

/-- A byte-addressed memory. -/
abbrev Mem := ℕ → UInt8

namespace Mem

/-- One byte is overwritten. -/
def store (m : Mem) (a : ℕ) (b : UInt8) : Mem := Function.update m a b

@[simp] theorem store_self (m : Mem) (a : ℕ) (b : UInt8) : m.store a b a = b := by
  simp only [store, Function.update_self]

theorem store_of_ne {m : Mem} {a x : ℕ} (b : UInt8) (h : x ≠ a) : m.store a b x = m x := by
  simp only [store, Function.update_of_ne h]

/-- The little-endian 32-bit word at an address. -/
def read32 (m : Mem) (a : ℕ) : ℕ :=
  (m a).toNat + 2 ^ 8 * (m (a + 1)).toNat + 2 ^ 16 * (m (a + 2)).toNat
    + 2 ^ 24 * (m (a + 3)).toNat

/-- The little-endian 16-bit word at an address. -/
def read16 (m : Mem) (a : ℕ) : ℕ := (m a).toNat + 2 ^ 8 * (m (a + 1)).toNat

/-- The low 32 bits of a number are written as a little-endian word. -/
def write32 (m : Mem) (a w : ℕ) : Mem := fun x =>
  if x = a then UInt8.ofNat w
  else if x = a + 1 then UInt8.ofNat (w / 2 ^ 8)
  else if x = a + 2 then UInt8.ofNat (w / 2 ^ 16)
  else if x = a + 3 then UInt8.ofNat (w / 2 ^ 24)
  else m x

theorem read32_lt (m : Mem) (a : ℕ) : m.read32 a < 2 ^ 32 := by
  have h0 := (m a).toNat_lt
  have h1 := (m (a + 1)).toNat_lt
  have h2 := (m (a + 2)).toNat_lt
  have h3 := (m (a + 3)).toNat_lt
  simp only [read32]
  omega

/-- A word depends on its four bytes only, wherever they lie. -/
theorem read32_copy {m m' : Mem} {a a' : ℕ} (h : ∀ b < 4, m (a + b) = m' (a' + b)) :
    m.read32 a = m'.read32 a' := by
  have h0 : m a = m' a' := h 0 (by omega)
  simp (disch := omega) only [read32, h0, h]

/-- A word depends on its four bytes only. -/
theorem read32_congr {m m' : Mem} {a : ℕ} (h : ∀ x, a ≤ x → x < a + 4 → m x = m' x) :
    m.read32 a = m'.read32 a :=
  read32_copy fun b hb => h (a + b) (by omega) (by omega)

/-- The word whose four bytes are given. -/
theorem read32_of_bytes {m : Mem} {a w : ℕ} (hw : w < 2 ^ 32)
    (h : ∀ b < 4, m (a + b) = UInt8.ofNat (w / 2 ^ (8 * b))) : m.read32 a = w := by
  have h0 : m a = UInt8.ofNat (w / 2 ^ (8 * 0)) := h 0 (by omega)
  simp (disch := omega) only [read32, h0, h, UInt8.toNat_ofNat']
  omega

/-- A word written changes no byte outside it. -/
theorem write32_of_outside {m : Mem} {a w x : ℕ} (h : x < a ∨ a + 4 ≤ x) :
    m.write32 a w x = m x := by
  have h0 : x ≠ a := by omega
  have h1 : x ≠ a + 1 := by omega
  have h2 : x ≠ a + 2 := by omega
  have h3 : x ≠ a + 3 := by omega
  simp only [write32, h0, h1, h2, h3, if_false]

/-- A word read back where it was written. -/
@[simp] theorem read32_write32_self (m : Mem) (a w : ℕ) :
    (m.write32 a w).read32 a = w % 2 ^ 32 := by
  have e0 : m.write32 a w a = UInt8.ofNat w := by simp [write32]
  have e1 : m.write32 a w (a + 1) = UInt8.ofNat (w / 2 ^ 8) := by simp [write32]
  have e2 : m.write32 a w (a + 2) = UInt8.ofNat (w / 2 ^ 16) := by simp [write32]
  have e3 : m.write32 a w (a + 3) = UInt8.ofNat (w / 2 ^ 24) := by simp [write32]
  simp only [read32, e0, e1, e2, e3, UInt8.toNat_ofNat']
  omega

/-- A word read beside the word that was written. -/
theorem read32_write32_of_disjoint {m : Mem} {a b w : ℕ} (h : a + 4 ≤ b ∨ b + 4 ≤ a) :
    (m.write32 a w).read32 b = m.read32 b :=
  read32_congr fun x hx hx' => write32_of_outside (by omega)

/-- A word read beside a byte that was stored. -/
theorem read32_store_of_outside {m : Mem} {a b : ℕ} {v : UInt8} (h : a < b ∨ b + 4 ≤ a) :
    (m.store a v).read32 b = m.read32 b :=
  read32_congr fun x hx hx' => store_of_ne v (by omega)

end Mem

/-! ### Flipping one bit of an address -/

/-- Flipping a clear bit adds its weight. -/
theorem xor_two_pow_of_testBit_false {a k : ℕ} (h : a.testBit k = false) :
    a ^^^ 2 ^ k = a + 2 ^ k := by
  induction k generalizing a with
  | zero =>
      have hdiv := Nat.xor_div_two (a := a) (b := 2 ^ 0)
      have hmod := Nat.xor_mod_two_eq (m := a) (n := 2 ^ 0)
      simp only [Nat.testBit_zero, decide_eq_false_iff_not] at h
      simp only [pow_zero, Nat.reduceDiv, Nat.xor_zero] at hdiv hmod ⊢
      omega
  | succ k ih =>
      have hdiv := Nat.xor_div_two (a := a) (b := 2 ^ (k + 1))
      have hmod := Nat.xor_mod_two_eq (m := a) (n := 2 ^ (k + 1))
      have hhalf : 2 ^ (k + 1) / 2 = 2 ^ k := by omega
      rw [hhalf, ih (by rwa [Nat.testBit_succ] at h)] at hdiv
      omega

/-- Flipping a set bit subtracts its weight. -/
theorem xor_two_pow_of_testBit_true {a k : ℕ} (h : a.testBit k = true) :
    (a ^^^ 2 ^ k) + 2 ^ k = a := by
  have hclear : (a ^^^ 2 ^ k).testBit k = false := by
    simp only [Nat.testBit_xor, h, Nat.testBit_two_pow_self, bne_self_eq_false]
  rw [← xor_two_pow_of_testBit_false hclear, Nat.xor_assoc, Nat.xor_self, Nat.xor_zero]
