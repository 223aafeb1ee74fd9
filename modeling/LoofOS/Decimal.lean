import LoofOS.Print
import Mathlib.Data.Nat.Digits.Lemmas

/-!
# Signed Decimal Output

The digits that `print` emits for `%d`. The code builds the number with the digits in the
opposite order, in an `int`, and then takes the digits of that number from the last one on.
Only the number of digits is kept beside it, so zeros at the end are not lost; but the
number with the digits in the opposite order need not be an `int` where the argument is one.

## Main results

* `reverseLoop_eq`: the reversed number, modulo `2 ^ 32`, and the number of digits.
* `canonicalDecimal_iff`: the arguments that are printed as they should be.
-/

namespace LoofOS

/-- The number with the decimal digits of `n` in the opposite order. -/
def reversal (n : ℕ) : ℕ := Nat.ofDigits 10 (Nat.digits 10 n).reverse

/-- The decimal representation of a number: a sign for those below zero, the digits without
leading zeros, and a single digit for zero. -/
def canonicalDecimal (v : ℤ) : List Int8 :=
  (if v < 0 then [45] else []) ++
    if v = 0 then [48] else (Nat.digits 10 v.natAbs).reverse.map digit

/-! ### Words and numbers -/

theorem toInt_ofNat_of_lt {n : ℕ} (h : n < 2 ^ 31) : (BitVec.ofNat 32 n).toInt = n := by
  have hnat : (BitVec.ofNat 32 n).toNat = n := by
    rw [BitVec.toNat_ofNat, Nat.mod_eq_of_lt (by omega)]
  rw [BitVec.toInt_eq_toNat_of_lt (by omega), hnat]

theorem toInt_srem_ten (x : BitVec 32) : (x.srem 10).toInt = x.toInt.tmod 10 := by
  rw [BitVec.toInt_srem]
  rfl

theorem toInt_sdiv_ten (x : BitVec 32) : (x.sdiv 10).toInt = x.toInt.tdiv 10 := by
  rw [BitVec.toInt_sdiv_of_ne_or_ne x 10 (Or.inr (by simp))]
  rfl

theorem srem_ten_ofNat {n : ℕ} (h : n < 2 ^ 31) :
    (BitVec.ofNat 32 n).srem 10 = BitVec.ofNat 32 (n % 10) := by
  apply BitVec.eq_of_toInt_eq
  rw [toInt_srem_ten, toInt_ofNat_of_lt h, toInt_ofNat_of_lt (by omega)]
  rw [Int.tmod_eq_emod_of_nonneg (by omega)]
  omega

theorem sdiv_ten_ofNat {n : ℕ} (h : n < 2 ^ 31) :
    (BitVec.ofNat 32 n).sdiv 10 = BitVec.ofNat 32 (n / 10) := by
  apply BitVec.eq_of_toInt_eq
  rw [toInt_sdiv_ten, toInt_ofNat_of_lt h, toInt_ofNat_of_lt (by omega)]
  rw [Int.tdiv_eq_ediv_of_nonneg (by omega)]
  omega

/-- The magnitude of an argument, as the code computes it. The least `int` is its own
negation, which is its magnitude as a word. -/
theorem magnitude_eq (w : BitVec 32) :
    (if w.slt 0 then -w else w) = BitVec.ofNat 32 w.toInt.natAbs := by
  have hslt : w.slt 0 = true ↔ w.toInt < 0 := BitVec.slt_iff_toInt_lt
  have hw := w.isLt
  have hint := BitVec.toInt_eq_toNat_cond w
  apply BitVec.eq_of_toNat_eq
  by_cases hneg : w.toInt < 0
  · rw [if_pos (hslt.mpr hneg), BitVec.toNat_neg, BitVec.toNat_ofNat]
    split_ifs at hint <;> omega
  · rw [if_neg (mt hslt.mp hneg), BitVec.toNat_ofNat]
    split_ifs at hint <;> omega

/-! ### The loop that reverses -/

/-- A round of the loop, for a number that is an `int`. -/
theorem reverseBody_ofNat {n : ℕ} (hn : n < 2 ^ 31) (hpos : 0 < n) (acc len : ℕ) :
    reverseBody (BitVec.ofNat 32 n, BitVec.ofNat 32 acc, len) =
      Sum.inl (BitVec.ofNat 32 (n / 10), BitVec.ofNat 32 (acc * 10 + n % 10), len + 1) := by
  have hslt : (0 : BitVec 32).slt (BitVec.ofNat 32 n) = true := by
    rw [BitVec.slt_iff_toInt_lt, toInt_ofNat_of_lt hn]
    exact Int.natCast_pos.mpr hpos
  have hacc : BitVec.ofNat 32 acc * 10 + BitVec.ofNat 32 (n % 10)
      = BitVec.ofNat 32 (acc * 10 + n % 10) := by
    rw [BitVec.ofNat_add, BitVec.ofNat_mul]
    rfl
  rw [reverseBody, if_pos hslt, sdiv_ten_ofNat hn, srem_ten_ofNat hn, hacc]

theorem reversal_step {n : ℕ} (hpos : 0 < n) (acc : ℕ) :
    (acc * 10 + n % 10) * 10 ^ (Nat.digits 10 (n / 10)).length + reversal (n / 10)
      = acc * 10 ^ (Nat.digits 10 n).length + reversal n := by
  rw [reversal, reversal, Nat.digits_def' (by omega) hpos, List.reverse_cons,
    Nat.ofDigits_append, Nat.ofDigits_singleton, List.length_reverse, List.length_cons]
  ring

/-- **The loop of `%d` that reverses**: the reversed number, cut to a word, and the number
of digits. The invariant is that what was collected, followed by the digits that are left,
is the same number in every round. -/
theorem reverseLoop_eq {n : ℕ} (hn : n < 2 ^ 31) (acc len : ℕ) :
    Loop.iter reverseBody (n + 1) (BitVec.ofNat 32 n, BitVec.ofNat 32 acc, len) =
      some (BitVec.ofNat 32 (acc * 10 ^ (Nat.digits 10 n).length + reversal n),
        len + (Nat.digits 10 n).length) := by
  induction n using Nat.strong_induction_on generalizing acc len with
  | _ n ih =>
      rcases Nat.eq_zero_or_pos n with rfl | hpos
      · have hbody : reverseBody (BitVec.ofNat 32 0, BitVec.ofNat 32 acc, len)
            = Sum.inr (BitVec.ofNat 32 acc, len) := rfl
        rw [Loop.iter_succ_of_inr hbody]
        simp [reversal]
      · have hlt : n / 10 < n := by omega
        have hrest := ih (n / 10) hlt (by omega) (acc * 10 + n % 10) (len + 1)
        rw [Loop.iter_succ_of_inl (reverseBody_ofNat hn hpos acc len),
          Loop.iter_mono (by omega) hrest, reversal_step hpos,
          Nat.digits_def' (by omega) hpos, List.length_cons]
        rw [Nat.add_right_comm, Nat.add_assoc]

/-! ### The loop that emits -/

/-- A number that is an `int` is emitted from its last digit on. -/
theorem emitDigits_ofDigits (around : ℤ → Int8) {L : List ℕ} (hL : ∀ d ∈ L, d < 10)
    (h : Nat.ofDigits 10 L < 2 ^ 31) :
    emitDigits around (BitVec.ofNat 32 (Nat.ofDigits 10 L)) L.length = L.map digit := by
  induction L with
  | nil => rfl
  | cons d L ih =>
      have hd : d < 10 := hL d List.mem_cons_self
      rw [Nat.ofDigits_cons] at h ⊢
      have hmod : (d + 10 * Nat.ofDigits 10 L) % 10 = d := by omega
      have hdiv : (d + 10 * Nat.ofDigits 10 L) / 10 = Nat.ofDigits 10 L := by omega
      rw [List.length_cons, emitDigits, srem_ten_ofNat h, sdiv_ten_ofNat h, hmod, hdiv,
        toInt_ofNat_of_lt (by omega), hexChar_of_lt around (by omega), List.map_cons,
        ih (fun e he => hL e (List.mem_cons_of_mem d he)) (by omega)]

/-- The digit that is emitted, where nothing is read in front of `hex_chars`. -/
theorem tmod_of_hexChar {x : BitVec 32} {d : ℕ} (hd : d < 10)
    (h : hexChar (fun _ => 0) (x.srem 10).toInt = digit d) : x.toInt.tmod 10 = d := by
  have hinj : ∀ a < 10, ∀ b < 10, digit a = digit b → a = b := by decide
  have hzero : ∀ a < 10, digit a ≠ 0 := by decide
  have hlt : x.toInt.tmod 10 < 10 := Int.tmod_lt_of_pos x.toInt (by omega)
  rw [toInt_srem_ten] at h
  rcases lt_or_ge (x.toInt.tmod 10) 0 with hneg | hpos
  · rw [hexChar, if_neg (by omega)] at h
    exact absurd h.symm (hzero d hd)
  · obtain ⟨e, he⟩ := Int.eq_ofNat_of_zero_le hpos
    rw [he, hexChar_of_lt _ (by omega)] at h
    rw [he, hinj e (by omega) d hd h]

/-- **Digits that come out of a word are those of a number that is no greater.** -/
theorem ofDigits_le_of_emitDigits {L : List ℕ} (hL : ∀ d ∈ L, d < 10) {x : BitVec 32}
    (h : emitDigits (fun _ => 0) x L.length = L.map digit) :
    ((Nat.ofDigits 10 L : ℕ) : ℤ) ≤ max 0 x.toInt := by
  induction L generalizing x with
  | nil => exact le_max_left _ _
  | cons d L ih =>
      rw [List.length_cons, emitDigits, List.map_cons, List.cons.injEq] at h
      have hd := tmod_of_hexChar (hL d List.mem_cons_self) h.1
      have hrest := ih (fun e he => hL e (List.mem_cons_of_mem d he)) h.2
      rw [toInt_sdiv_ten] at hrest
      have hsplit := Int.tmod_add_mul_tdiv x.toInt 10
      have hsign : x.toInt < 0 → x.toInt.tmod 10 ≤ 0 := fun hneg => by
        have := @Int.tmod_nonneg (-x.toInt) 10 (by omega)
        rw [Int.neg_tmod] at this
        omega
      have hlt := hL d List.mem_cons_self
      rw [Nat.ofDigits_cons]
      omega

/-! ### The conversion -/

theorem length_digits_pos {n : ℕ} (h : n ≠ 0) : (Nat.digits 10 n).length ≠ 0 := by
  rwa [Ne, List.length_eq_zero_iff, Nat.digits_eq_nil_iff_eq_zero]

theorem natAbs_lt {w : BitVec 32} (hw : w ≠ BitVec.intMin 32) : w.toInt.natAbs < 2 ^ 31 := by
  have hlt := @BitVec.toInt_lt 32 w
  have hle := @BitVec.le_toInt 32 w
  have hne : w.toInt ≠ -2 ^ 31 := fun h => hw (BitVec.eq_of_toInt_eq h)
  omega

/-- **`%d`** of an argument other than zero and the least `int`. -/
theorem decimal_eq (around : ℤ → Int8) {w : BitVec 32} (h0 : w.toInt ≠ 0)
    (hlt : w.toInt.natAbs < 2 ^ 31) :
    decimal around w = some ((if w.toInt < 0 then [45] else []) ++
      emitDigits around (BitVec.ofNat 32 (reversal w.toInt.natAbs))
        (Nat.digits 10 w.toInt.natAbs).length) := by
  have hloop : Loop.iter reverseBody (w.toInt.natAbs + 1) (BitVec.ofNat 32 w.toInt.natAbs, 0, 0)
      = some (BitVec.ofNat 32 (reversal w.toInt.natAbs),
        (Nat.digits 10 w.toInt.natAbs).length) := by
    simpa only [Nat.zero_mul, Nat.zero_add, BitVec.ofNat_eq_ofNat] using reverseLoop_eq hlt 0 0
  have hslt : (w.slt 0 = true) = (w.toInt < 0) := propext BitVec.slt_iff_toInt_lt
  have hlen : (Nat.digits 10 w.toInt.natAbs).length ≠ 0 := length_digits_pos (by omega)
  rw [decimal, magnitude_eq]
  dsimp only
  rw [Loop.iter_mono (by omega) hloop, Option.map_some, if_neg hlen]
  simp only [hslt]

theorem decimal_zero (around : ℤ → Int8) : decimal around 0 = some [48] := by
  rfl

/-- The least `int` is printed as a sign and a zero. -/
theorem decimal_intMin (around : ℤ → Int8) :
    decimal around (BitVec.intMin 32) = some [45, 48] := by
  rfl

/-- The digits that are emitted are the right ones if the reversed number is an `int`. -/
theorem emitDigits_reversal (around : ℤ → Int8) {n : ℕ} (h : reversal n < 2 ^ 31) :
    emitDigits around (BitVec.ofNat 32 (reversal n)) (Nat.digits 10 n).length
      = (Nat.digits 10 n).reverse.map digit := by
  rw [← List.length_reverse]
  exact emitDigits_ofDigits around (fun d hd =>
    Nat.digits_lt_base (by omega) (List.mem_reverse.mp hd)) h

/-- They are the right ones only if it is. -/
theorem reversal_lt_of_emitDigits {n : ℕ}
    (h : emitDigits (fun _ => 0) (BitVec.ofNat 32 (reversal n)) (Nat.digits 10 n).length
      = (Nat.digits 10 n).reverse.map digit) : reversal n < 2 ^ 31 := by
  rw [← List.length_reverse] at h
  have hle := ofDigits_le_of_emitDigits (fun d hd =>
    Nat.digits_lt_base (by omega) (List.mem_reverse.mp hd)) h
  have hlt := @BitVec.toInt_lt 32 (BitVec.ofNat 32 (reversal n))
  rw [reversal] at hle hlt ⊢
  omega

theorem substitute_decimal (m : Mem) (around : ℤ → Int8) (w : BitVec 32) :
    substitute m around 100 w = (decimal around w).map fun o => (o, 1) := by
  have h100 : (100 : Int8) ≠ 99 := by simp
  rw [substitute, if_neg h100, if_pos rfl]

/-- **`%d`** emits the decimal representation of its argument, whatever lies around
`hex_chars`, if and only if the number with the digits of the magnitude in the opposite order
is an `int`. -/
theorem canonicalDecimal_iff (w : BitVec 32) :
    (∀ m around, substitute m around 100 w = some (canonicalDecimal w.toInt, 1))
      ↔ reversal w.toInt.natAbs < 2 ^ 31 := by
  have hmap : (∀ m around, substitute m around 100 w = some (canonicalDecimal w.toInt, 1))
      ↔ ∀ around, decimal around w = some (canonicalDecimal w.toInt) := by
    simp [substitute_decimal]
  rw [hmap]
  by_cases h0 : w.toInt = 0
  · obtain rfl : w = 0 := BitVec.eq_of_toInt_eq h0
    exact ⟨fun _ => by simp [reversal], fun _ around => decimal_zero around⟩
  by_cases hmin : w = BitVec.intMin 32
  · have hrev : ¬ reversal (BitVec.intMin 32).toInt.natAbs < 2 ^ 31 := by decide +kernel
    have hne : ¬ [45, 48] = canonicalDecimal (BitVec.intMin 32).toInt := by decide +kernel
    simp only [hmin, decimal_intMin, Option.some.injEq]
    exact iff_of_false (fun h => hne (h fun _ => 0)) hrev
  · simp only [decimal_eq _ h0 (natAbs_lt hmin), canonicalDecimal, if_neg h0, Option.some.injEq,
      List.append_right_inj]
    exact ⟨fun h => reversal_lt_of_emitDigits (h _), fun h around => emitDigits_reversal around h⟩

/-- The argument 1000000009 is printed as 9045600140. -/
theorem canonicalDecimal_fails :
    ¬ ∃ m around, substitute m around 100 1000000009 = some (canonicalDecimal 1000000009, 1) := by
  rintro ⟨m, around, h⟩
  have hemit : decimal around 1000000009 = some [57, 48, 52, 53, 54, 48, 48, 49, 52, 48] := rfl
  have hne : [57, 48, 52, 53, 54, 48, 48, 49, 52, 48] ≠ canonicalDecimal 1000000009 := by
    decide +kernel
  rw [substitute_decimal, hemit] at h
  exact hne (Prod.mk.inj (Option.some.inj h)).1

end LoofOS
