import LoofOS.Alloc
import Mathlib.Data.Int.Notation

/-!
# Formatted Output

`print` of `boot/x86/print.c`, over the bytes of memory. Its result is the sequence of
characters that are passed to `outb` and the number of arguments that are consumed. The
arguments are the words on the stack; values of type `int` and `uint32_t` are words, with
the arithmetic of the machine. A negative index into `hex_chars` reads the memory in front
of that string; what lies around it is a parameter.

The format language is given by `render`, with the strings for `%s` as a parameter. The
loop for `%s` tests the pointer and not the character, so it emits all of memory from the
argument on (`memoryFrom`), and `print` is `render` with this in the place of the string
(`print_eq_render`).

## Main results

* `decimal_isSome`: the digit loop of `%d` ends.
* `print_eq_render`: what `print` emits.
* `print_agrees_iff`: the formats for which it agrees with the format language.
-/

namespace LoofOS

/-- The character at an address. -/
def charAt (m : Mem) (a : ℕ) : Int8 := (m (wrap32 a)).toInt8

/-- `hex_chars[i]`, with what lies around the sixteen characters in memory. -/
def hexChar (around : ℤ → Int8) (i : ℤ) : Int8 :=
  if 0 ≤ i ∧ i < 16 then
    [48, 49, 50, 51, 52, 53, 54, 55, 56, 57, 65, 66, 67, 68, 69, 70].getD i.toNat 0
  else around i

/-! ### Conversions -/

/-- The loop of `%d` that reverses the digits: `sign_integer`, `reversed_int` and
`integer_len`. -/
def reverseBody (s : BitVec 32 × BitVec 32 × ℕ) :
    (BitVec 32 × BitVec 32 × ℕ) ⊕ (BitVec 32 × ℕ) :=
  let (n, reversed, len) := s
  if (0 : BitVec 32).slt n then Sum.inl (n.sdiv 10, reversed * 10 + n.srem 10, len + 1)
  else Sum.inr (reversed, len)

/-- The loop of `%d` that emits the digits. -/
def emitDigits (around : ℤ → Int8) (reversed : BitVec 32) : ℕ → List Int8
  | 0 => []
  | n + 1 => hexChar around (reversed.srem 10).toInt :: emitDigits around (reversed.sdiv 10) n

/-- `%d`. -/
def decimal (around : ℤ → Int8) (w : BitVec 32) : Option (List Int8) :=
  let sign : List Int8 := if w.slt 0 then [45] else []
  let n := if w.slt 0 then -w else w
  (Loop.iter reverseBody (2 ^ 32) (n, 0, 0)).map fun r =>
    let len := if r.2 = 0 then 1 else r.2
    sign ++ emitDigits around r.1 len

/-- The loop of `%s`, in the state of `nstr` and of what was emitted. -/
def stringBody (m : Mem) (s : ℕ × List Int8) : (ℕ × List Int8) ⊕ List Int8 :=
  if s.1 ≠ 0 then Sum.inl (wrap32 (s.1 + 1), s.2 ++ [charAt m s.1]) else Sum.inr s.2

/-- `%x`. -/
def emitHex (around : ℤ → Int8) (w : BitVec 32) : List Int8 :=
  (List.range 8).reverse.map fun place => hexChar around (w >>> (place * 4) &&& 0xf).toInt

/-- `%b`. -/
def emitBinary (w : BitVec 32) : List Int8 :=
  (List.range 32).reverse.map fun place => if (w >>> place) &&& 1 ≠ 0 then 49 else 48

/-- The `switch` over the conversions: what is emitted, and the arguments consumed. -/
def substitute (m : Mem) (around : ℤ → Int8) (c : Int8) (w : BitVec 32) :
    Option (List Int8 × ℕ) :=
  if c = 99 then some ([(w.setWidth 8).toNat.toUInt8.toInt8], 1)
  else if c = 100 then (decimal around w).map fun o => (o, 1)
  else if c = 115 then (Loop.iter (stringBody m) (2 ^ 32 + 1) (w.toNat, [])).map fun o => (o, 1)
  else if c = 120 then some (emitHex around w, 1)
  else if c = 98 then some (emitBinary w, 1)
  else if c = 37 then some ([37], 0)
  else some ([], 0)

/-! ### The scanner -/

/-- The variables of `print`. -/
structure PrintState where
  offset : ℕ
  curChar : Int8
  substituting : Bool
  arg : ℕ
  out : List Int8

/-- The next character is looked at. -/
def PrintState.next (m : Mem) (format : ℕ) (s : PrintState) : PrintState :=
  { s with offset := s.offset + 1, curChar := charAt m (format + (s.offset + 1)) }

/-- One round of the loop of `print`. -/
def printBody (m : Mem) (around : ℤ → Int8) (format : ℕ) (args : ℕ → BitVec 32)
    (s : PrintState) : PrintState ⊕ Option (List Int8 × ℕ) :=
  if s.curChar = 0 then Sum.inr (some (s.out, s.arg))
  else if s.substituting then
    match substitute m around s.curChar (args s.arg) with
    | none => Sum.inr none
    | some (o, k) =>
        Sum.inl ({ s with
          substituting := false, arg := s.arg + k, out := s.out ++ o }.next m format)
  else if s.curChar = 37 then Sum.inl ({ s with substituting := true }.next m format)
  else Sum.inl ({ s with out := s.out ++ [s.curChar] }.next m format)

/-- `print`; the loop runs at most `fuel` rounds. -/
def print (m : Mem) (around : ℤ → Int8) (format : ℕ) (args : ℕ → BitVec 32) (fuel : ℕ) :
    Option (List Int8 × ℕ) :=
  (Loop.iter (printBody m around format args) fuel ⟨0, charAt m format, false, 0, []⟩).join

/-! ### The format language -/

/-- The characters of `l`, none of them NUL, lie in memory from `a` on, followed by NUL. -/
def StringAt (m : Mem) : ℕ → List Int8 → Prop
  | a, [] => charAt m a = 0
  | a, c :: l => charAt m a = c ∧ c ≠ 0 ∧ StringAt m (a + 1) l

/-- A NUL-terminated string in the address space. -/
structure IsString (m : Mem) (a : ℕ) (l : List Int8) : Prop where
  chars : StringAt m a l
  pos : 0 < a
  fits : a + l.length < 2 ^ 32

/-- Memory with the characters of `l` from `a` on, and zeros elsewhere. -/
def textAt (a : ℕ) (l : List Int8) : Mem := fun x =>
  if a ≤ x then (l.getD (x - a) 0).toUInt8 else 0

/-- The digit of a value below 16. -/
def digit (d : ℕ) : Int8 := if d < 10 then Int8.ofNat (48 + d) else Int8.ofNat (55 + d)

/-- What a conversion stands for, and the arguments it takes. -/
def convert (str : BitVec 32 → List Int8) (around : ℤ → Int8) (c : Int8) (w : BitVec 32) :
    List Int8 × ℕ :=
  if c = 99 then ([(w.toNat % 256).toUInt8.toInt8], 1)
  else if c = 100 then ((decimal around w).getD [], 1)
  else if c = 115 then (str w, 1)
  else if c = 120 then ((List.range 8).reverse.map fun i => digit (w.toNat / 16 ^ i % 16), 1)
  else if c = 98 then ((List.range 32).reverse.map fun i => digit (w.toNat / 2 ^ i % 2), 1)
  else if c = 37 then ([37], 0)
  else ([], 0)

/-- The characters that a format stands for when the next argument is number `k`, and the
number of the argument after the last one it takes. -/
def render (str : BitVec 32 → List Int8) (around : ℤ → Int8) (args : ℕ → BitVec 32) :
    List Int8 → ℕ → List Int8 × ℕ
  | [], k => ([], k)
  | c :: rest, k =>
      if c = 37 then
        match rest with
        | [] => ([], k)
        | d :: rest =>
            let o := convert str around d (args k)
            let r := render str around args rest (k + o.2)
            (o.1 ++ r.1, r.2)
      else
        let r := render str around args rest k
        (c :: r.1, r.2)

/-- The conversions of a format. -/
def conversions : List Int8 → List Int8
  | [] => []
  | c :: rest =>
      if c = 37 then
        match rest with
        | [] => []
        | d :: rest => d :: conversions rest
      else conversions rest

/-- The arguments of the `%s` conversions of a format. -/
def stringArgs (args : ℕ → BitVec 32) : List Int8 → ℕ → List (BitVec 32)
  | [], _ => []
  | c :: rest, k =>
      if c = 37 then
        match rest with
        | [] => []
        | d :: rest =>
            let more := stringArgs args rest (k + (convert (fun _ => []) (fun _ => 0) d (args k)).2)
            if d = 115 then args k :: more else more
      else stringArgs args rest k

/-! ### The conversions of numbers -/

/-- The digit loop goes on with a tenth of the number. -/
theorem toNat_sdiv_lt {n : BitVec 32} (h : (0 : BitVec 32).slt n = true) :
    (n.sdiv 10).toNat < n.toNat := by
  have hpos : 0 < n.toInt := by
    simpa [BitVec.slt] using h
  have hmsb : n.msb = false := by
    rw [BitVec.msb_eq_toInt]
    simp only [decide_eq_false_iff_not]
    omega
  have hn : n.toInt = n.toNat := BitVec.toInt_eq_toNat_of_msb hmsb
  have hten : (10 : BitVec 32).msb = false := by decide
  rw [BitVec.sdiv_eq, hmsb, hten]
  simp only [BitVec.udiv_eq, BitVec.toNat_udiv]
  have hten' : (10 : BitVec 32).toNat = 10 := rfl
  rw [hten']
  omega

/-- **`%d` ends.** -/
theorem decimal_isSome (around : ℤ → Int8) (w : BitVec 32) : (decimal around w).isSome := by
  have hloop : ∀ s, ∃ r, Loop.iter reverseBody (2 ^ 32) s = some r ∧ True := by
    intro s
    refine Loop.iter_total (I := fun _ => True) (Q := fun _ => True) (fun s => s.1.toNat) ?_
      (fun _ _ _ _ => trivial) trivial _ s.1.isLt
    rintro ⟨n, reversed, len⟩ s' - hbody
    rw [reverseBody] at hbody
    split at hbody
    · obtain rfl := Sum.inl.inj hbody
      exact ⟨trivial, toNat_sdiv_lt ‹_›⟩
    · cases hbody
  obtain ⟨r, hr, -⟩ := hloop (if w.slt 0 then -w else w, 0, 0)
  rw [decimal, hr]
  rfl

theorem hexChar_of_lt (around : ℤ → Int8) {d : ℕ} (h : d < 16) : hexChar around d = digit d := by
  have htable : ∀ d < 16, ([48, 49, 50, 51, 52, 53, 54, 55, 56, 57, 65, 66, 67, 68, 69, 70] :
      List Int8).getD d 0 = digit d := by decide
  rw [hexChar, if_pos ⟨by omega, by omega⟩]
  exact htable d h

/-- **`%x`** emits the eight digits. -/
theorem emitHex_eq (around : ℤ → Int8) (w : BitVec 32) :
    emitHex around w = (List.range 8).reverse.map fun i => digit (w.toNat / 16 ^ i % 16) := by
  refine List.map_congr_left fun place _ => ?_
  have hnat : (w >>> (place * 4) &&& 0xf).toNat = w.toNat / 16 ^ place % 16 := by
    have hpow : 2 ^ (place * 4) = 16 ^ place := by
      rw [Nat.mul_comm, pow_mul]
      rfl
    rw [BitVec.toNat_and, BitVec.toNat_ushiftRight, Nat.shiftRight_eq_div_pow, hpow]
    exact Nat.and_two_pow_sub_one_eq_mod _ 4
  have hlt : w.toNat / 16 ^ place % 16 < 16 := Nat.mod_lt _ (by simp)
  have hint : (w >>> (place * 4) &&& 0xf).toInt = ((w.toNat / 16 ^ place % 16 : ℕ) : ℤ) := by
    rw [BitVec.toInt_eq_toNat_of_lt (by omega), hnat]
  rw [hint, hexChar_of_lt around hlt]

/-- **`%b`** emits the 32 digits. -/
theorem emitBinary_eq (w : BitVec 32) :
    emitBinary w = (List.range 32).reverse.map fun i => digit (w.toNat / 2 ^ i % 2) := by
  refine List.map_congr_left fun place _ => ?_
  have hnat : ((w >>> place) &&& 1).toNat = w.toNat / 2 ^ place % 2 := by
    rw [BitVec.toNat_and, BitVec.toNat_ushiftRight, Nat.shiftRight_eq_div_pow]
    exact Nat.and_two_pow_sub_one_eq_mod _ 1
  rcases Nat.mod_two_eq_zero_or_one (w.toNat / 2 ^ place) with h0 | h1
  · have hzero : (w >>> place) &&& 1 = 0 := BitVec.eq_of_toNat_eq (hnat.trans h0)
    rw [if_neg (not_not.mpr hzero), h0]
    rfl
  · have hone : (w >>> place) &&& 1 ≠ 0 := by
      intro hz
      rw [hz, h1] at hnat
      cases hnat
    rw [if_pos hone, h1]
    rfl

/-- **The conversions other than `%s`.** -/
theorem substitute_eq_convert (m : Mem) (around : ℤ → Int8) (str : BitVec 32 → List Int8) {c : Int8}
    (w : BitVec 32) (hc : c ≠ 115) : substitute m around c w = some (convert str around c w) := by
  rw [substitute, convert]
  by_cases h99 : c = 99
  · rw [if_pos h99, if_pos h99, BitVec.toNat_setWidth]
  rw [if_neg h99, if_neg h99]
  by_cases h100 : c = 100
  · rw [if_pos h100, if_pos h100]
    obtain ⟨o, ho⟩ := Option.isSome_iff_exists.mp (decimal_isSome around w)
    rw [ho]
    rfl
  rw [if_neg h100, if_neg h100, if_neg hc, if_neg hc, emitHex_eq, emitBinary_eq]
  split_ifs <;> rfl

/-! ### Strings -/

/-- All of memory from an address on. -/
def memoryFrom (m : Mem) (a : ℕ) : List Int8 :=
  if a = 0 then [] else (List.range' a (2 ^ 32 - a)).map (charAt m)

/-- **`%s`** emits all of memory from its argument on. -/
theorem substitute_string (m : Mem) (around : ℤ → Int8) (w : BitVec 32) :
    substitute m around 115 w = some (memoryFrom m w.toNat, 1) := by
  have hloop : ∀ n a out, a + n = 2 ^ 32 → 0 < a →
      Loop.iter (stringBody m) (n + 1) (wrap32 a, out)
        = some (out ++ (List.range' a n).map (charAt m)) := by
    intro n
    induction n with
    | zero =>
        intro a out ha hpos
        have hwrap : wrap32 a = 0 := by
          rw [wrap32]
          omega
        have hbody : stringBody m (wrap32 a, out) = Sum.inr out := by
          rw [stringBody, if_neg (not_not.mpr hwrap)]
        rw [Loop.iter_succ_of_inr hbody]
        simp
    | succ n ih =>
        intro a out ha hpos
        have hwrap : wrap32 a = a := wrap32_of_lt (by omega)
        have hbody : stringBody m (wrap32 a, out)
            = Sum.inl (wrap32 (a + 1), out ++ [charAt m a]) := by
          rw [hwrap, stringBody, if_pos (show a ≠ 0 by omega)]
        rw [Loop.iter_succ_of_inl hbody, ih (a + 1) _ (by omega) (by omega),
          List.range'_succ, List.map_cons, List.append_assoc]
        rfl
  have hw := w.isLt
  have hiter : Loop.iter (stringBody m) (2 ^ 32 + 1) (w.toNat, [])
      = some (memoryFrom m w.toNat) := by
    rw [memoryFrom]
    by_cases h0 : w.toNat = 0
    · have hbody : stringBody m (w.toNat, []) = Sum.inr [] := by
        rw [stringBody, if_neg (not_not.mpr h0)]
      rw [if_pos h0, Loop.iter_succ_of_inr hbody]
    · have hrun := hloop (2 ^ 32 - w.toNat) w.toNat [] (by omega) (by omega)
      rw [wrap32_of_lt hw] at hrun
      rw [if_neg h0]
      exact Loop.iter_mono (by omega) hrun
  have h115 : (115 : Int8) ≠ 99 ∧ (115 : Int8) ≠ 100 := by simp
  rw [substitute, if_neg h115.1, if_neg h115.2, if_pos rfl, hiter]
  rfl

/-- **All conversions**, with all of memory in the place of a string. -/
theorem substitute_eq (m : Mem) (around : ℤ → Int8) (c : Int8) (w : BitVec 32) :
    substitute m around c w = some (convert (fun w => memoryFrom m w.toNat) around c w) := by
  by_cases hc : c = 115
  · have h115 : (115 : Int8) ≠ 99 ∧ (115 : Int8) ≠ 100 := by simp
    rw [hc, substitute_string, convert, if_neg h115.1, if_neg h115.2, if_pos rfl]
  · exact substitute_eq_convert m around _ w hc

/-! ### The scanner -/

section Render

variable {str : BitVec 32 → List Int8} {around : ℤ → Int8} {args : ℕ → BitVec 32}

theorem render_literal {c : Int8} (hc : c ≠ 37) (rest : List Int8) (k : ℕ) :
    render str around args (c :: rest) k =
      (c :: (render str around args rest k).1, (render str around args rest k).2) := by
  cases rest with
  | nil => simp only [render, if_neg hc]
  | cons d rest => simp only [render, if_neg hc]

theorem render_conversion (d : Int8) (rest : List Int8) (k : ℕ) :
    render str around args (37 :: d :: rest) k =
      let o := convert str around d (args k)
      (o.1 ++ (render str around args rest (k + o.2)).1,
        (render str around args rest (k + o.2)).2) := by
  simp only [render, if_true]

/-- **Induction over formats**: the end, a lone `%` at the end, a conversion, a literal. -/
@[elab_as_elim]
theorem format_induction {P : List Int8 → Prop} (nil : P []) (percent : P [37])
    (conversion : ∀ d rest, P rest → P (37 :: d :: rest))
    (literal : ∀ c rest, c ≠ 37 → P rest → P (c :: rest)) (fmt : List Int8) : P fmt := by
  induction hlen : fmt.length using Nat.strong_induction_on generalizing fmt with
  | _ n ih =>
      cases fmt with
      | nil => exact nil
      | cons c rest =>
          by_cases hc : c = 37
          · subst hc
            cases rest with
            | nil => exact percent
            | cons d rest =>
                refine conversion d rest (ih rest.length ?_ rest rfl)
                rw [← hlen, List.length_cons, List.length_cons]
                omega
          · refine literal c rest hc (ih rest.length ?_ rest rfl)
            rw [← hlen, List.length_cons]
            omega

/-- A lone `%` at the end stands for nothing. -/
theorem render_percent (k : ℕ) : render str around args [37] k = ([], k) := by
  simp only [render, if_true]

end Render

section Scanner

variable {m : Mem} {around : ℤ → Int8} {format : ℕ} {args : ℕ → BitVec 32}

/-- A round that substitutes. -/
theorem printBody_substituting {s : PrintState} (hcur : s.curChar ≠ 0)
    (hsub : s.substituting = true) : printBody m around format args s =
      let o := convert (fun w => memoryFrom m w.toNat) around s.curChar (args s.arg)
      Sum.inl ({ s with
        substituting := false, arg := s.arg + o.2, out := s.out ++ o.1 }.next m format) := by
  rw [printBody, if_neg hcur, if_pos hsub, substitute_eq]

/-- **The loop of `print`** renders the rest of the format. -/
theorem printLoop {fmt : List Int8} {s : PrintState} (hfmt : StringAt m (format + s.offset) fmt)
    (hcur : s.curChar = charAt m (format + s.offset)) (hsub : ¬ s.substituting = true) :
    ∃ fuel, Loop.iter (printBody m around format args) fuel s =
      some (some (s.out ++ (render (fun w => memoryFrom m w.toNat) around args fmt s.arg).1,
        (render (fun w => memoryFrom m w.toNat) around args fmt s.arg).2)) := by
  induction fmt using format_induction generalizing s with
  | nil =>
      have hbody : printBody m around format args s = Sum.inr (some (s.out, s.arg)) := by
        rw [printBody, if_pos (hcur.trans hfmt)]
      refine ⟨1, ?_⟩
      rw [Loop.iter_succ_of_inr hbody, render, List.append_nil]
  | percent =>
      obtain ⟨hc, hc0, hrest⟩ := hfmt
      have hcur' : s.curChar = 37 := hcur.trans hc
      have hbody : printBody m around format args s
          = Sum.inl ({ s with substituting := true }.next m format) := by
        rw [printBody, if_neg (by rw [hcur']; exact hc0), if_neg hsub, if_pos hcur']
      have hend : printBody m around format args ({ s with substituting := true }.next m format)
          = Sum.inr (some (s.out, s.arg)) := by
        rw [printBody]
        exact if_pos hrest
      refine ⟨2, ?_⟩
      rw [Loop.iter_succ_of_inl hbody, Loop.iter_succ_of_inr hend, render_percent, List.append_nil]
  | conversion d rest ih =>
      obtain ⟨hc, hc0, hd, hd0, hrest⟩ := hfmt
      have hcur' : s.curChar = 37 := hcur.trans hc
      have hbody : printBody m around format args s
          = Sum.inl ({ s with substituting := true }.next m format) := by
        rw [printBody, if_neg (by rw [hcur']; exact hc0), if_neg hsub, if_pos hcur']
      have hd' : ({ s with substituting := true }.next m format).curChar = d := hd
      have hconv := @printBody_substituting m around format args
        ({ s with substituting := true }.next m format) (by rw [hd']; exact hd0) rfl
      rw [hd'] at hconv
      set o := convert (fun w => memoryFrom m w.toNat) around d (args s.arg) with ho
      let s' : PrintState := { ({ s with substituting := true }.next m format) with
        substituting := false, arg := s.arg + o.2, out := s.out ++ o.1 }.next m format
      obtain ⟨fuel, hfuel⟩ := @ih s' hrest rfl Bool.false_ne_true
      refine ⟨fuel + 2, ?_⟩
      rw [Loop.iter_succ_of_inl hbody, Loop.iter_succ_of_inl hconv, render_conversion,
        ← List.append_assoc]
      exact hfuel
  | literal c rest hpercent ih =>
      obtain ⟨hc, hc0, hrest⟩ := hfmt
      have hcur' : s.curChar = c := hcur.trans hc
      have hbody : printBody m around format args s
          = Sum.inl ({ s with out := s.out ++ [c] }.next m format) := by
        rw [printBody, if_neg (by rw [hcur']; exact hc0), if_neg hsub,
          if_neg (by rw [hcur']; exact hpercent), hcur']
      let s' : PrintState := { s with out := s.out ++ [c] }.next m format
      obtain ⟨fuel, hfuel⟩ := @ih s' hrest rfl hsub
      refine ⟨fuel + 1, ?_⟩
      rw [Loop.iter_succ_of_inl hbody, hfuel, render_literal hpercent]
      simp only [s', PrintState.next, List.append_assoc]
      rfl

/-- **`print`** ends, and emits the rendering of the format with all of memory in the place
of each string. -/
theorem print_eq_render {fmt : List Int8} (hfmt : StringAt m format fmt) :
    ∃ fuel, print m around format args fuel =
      some (render (fun w => memoryFrom m w.toNat) around args fmt 0) := by
  obtain ⟨fuel, hfuel⟩ := @printLoop m around format args fmt ⟨0, charAt m format, false, 0, []⟩
    hfmt rfl Bool.false_ne_true
  refine ⟨fuel, ?_⟩
  rw [print, hfuel]
  rfl

end Scanner

/-! ### Agreement with the format language -/

theorem convert_congr {str str' : BitVec 32 → List Int8} {around : ℤ → Int8} {c : Int8}
    {w : BitVec 32} (hc : c ≠ 115) : convert str around c w = convert str' around c w := by
  simp only [convert, if_neg hc]

/-- How many arguments a conversion takes depends on the conversion only. -/
theorem convert_snd (str str' : BitVec 32 → List Int8) (around around' : ℤ → Int8) (c : Int8)
    (w : BitVec 32) : (convert str around c w).2 = (convert str' around' c w).2 := by
  simp only [convert]
  split_ifs <;> rfl

section Agreement

variable {str str' : BitVec 32 → List Int8} {around : ℤ → Int8} {args : ℕ → BitVec 32}

theorem conversions_conversion (d : Int8) (rest : List Int8) :
    conversions (37 :: d :: rest) = d :: conversions rest := by
  simp only [conversions, if_true]

theorem conversions_literal {c : Int8} (hc : c ≠ 37) (rest : List Int8) :
    conversions (c :: rest) = conversions rest := by
  cases rest <;> simp only [conversions, if_neg hc]

theorem stringArgs_conversion (d : Int8) (rest : List Int8) (k : ℕ) :
    stringArgs args (37 :: d :: rest) k =
      let more := stringArgs args rest (k + (convert str around d (args k)).2)
      if d = 115 then args k :: more else more := by
  simp only [stringArgs, if_true, convert_snd (fun _ => []) str (fun _ => 0) around]

theorem stringArgs_literal {c : Int8} (hc : c ≠ 37) (rest : List Int8) (k : ℕ) :
    stringArgs args (c :: rest) k = stringArgs args rest k := by
  cases rest <;> simp only [stringArgs, if_neg hc]

/-- Without `%s` the strings do not matter. -/
theorem render_congr {fmt : List Int8} (h : 115 ∉ conversions fmt) (k : ℕ) :
    render str around args fmt k = render str' around args fmt k := by
  induction fmt using format_induction generalizing k with
  | nil => rfl
  | percent => rw [render_percent, render_percent]
  | conversion d rest ih =>
      rw [conversions_conversion, List.mem_cons, not_or] at h
      simp only [render_conversion, @convert_congr str str' around d _ (Ne.symm h.1), ih h.2]
  | literal c rest hc ih =>
      rw [conversions_literal hc] at h
      rw [render_literal hc, render_literal hc, ih h]

/-- **Longer strings** make the rendering longer, if there is a `%s`. -/
theorem render_length {fmt : List Int8} {k : ℕ}
    (h : ∀ w ∈ stringArgs args fmt k, (str w).length < (str' w).length) :
    (render str around args fmt k).1.length ≤ (render str' around args fmt k).1.length ∧
      (115 ∈ conversions fmt →
        (render str around args fmt k).1.length < (render str' around args fmt k).1.length) := by
  induction fmt using format_induction generalizing k with
  | nil => exact ⟨Nat.le_refl _, fun hm => absurd hm List.not_mem_nil⟩
  | percent =>
      rw [render_percent, render_percent]
      exact ⟨Nat.le_refl _, fun hm => absurd hm (by decide)⟩
  | conversion d rest ih =>
      have hsnd := convert_snd str str' around around d (args k)
      rw [@stringArgs_conversion str around args] at h
      simp only [render_conversion, conversions_conversion, List.length_append, List.mem_cons,
        ← hsnd]
      by_cases hd : d = 115
      · subst hd
        simp only [if_true, List.mem_cons] at h
        have hrest := (ih fun w hw => h w (Or.inr hw)).1
        have hstr : ∀ str, (convert str around 115 (args k)).1 = str (args k) := fun _ => rfl
        have hlt := h (args k) (Or.inl rfl)
        rw [← hstr str, ← hstr str'] at hlt
        exact ⟨by omega, fun _ => by omega⟩
      · simp only [if_neg hd] at h
        obtain ⟨hle, hlt⟩ := ih h
        rw [@convert_congr str str' around d _ hd] at hle hlt ⊢
        refine ⟨by omega, fun hm => ?_⟩
        have := hlt (hm.resolve_left (Ne.symm hd))
        omega
  | literal c rest hc ih =>
      rw [stringArgs_literal hc] at h
      rw [render_literal hc, render_literal hc, conversions_literal hc]
      simp only [List.length_cons]
      obtain ⟨hle, hlt⟩ := ih h
      refine ⟨by omega, fun hm => ?_⟩
      have := hlt hm
      omega

end Agreement

/-- A string is shorter than all of memory from its address on. -/
theorem IsString.length_lt {m : Mem} {a : ℕ} {l : List Int8} (h : IsString m a l) :
    l.length < (memoryFrom m a).length := by
  have hpos := h.pos
  have hfits := h.fits
  rw [memoryFrom, if_neg (by omega), List.length_map, List.length_range']
  omega

/-- **`print` and its format language**, for every format, every arguments and all of
memory, where each argument of a `%s` is a string: `print` emits the rendering of the
format, with the arguments consumed one after the other, exactly when the format has no
`%s`. -/
theorem print_agrees_iff {m : Mem} {around : ℤ → Int8} {format : ℕ} {args : ℕ → BitVec 32}
    {fmt : List Int8} {str : BitVec 32 → List Int8} (hfmt : IsString m format fmt)
    (hargs : ∀ w ∈ stringArgs args fmt 0, IsString m w.toNat (str w)) :
    (∃ fuel, print m around format args fuel = some (render str around args fmt 0)) ↔
      115 ∉ conversions fmt := by
  obtain ⟨fuel, hfuel⟩ := @print_eq_render m around format args fmt hfmt.chars
  constructor
  · rintro ⟨fuel', hfuel'⟩ hmem
    have hiter := Option.join_eq_some_iff.mp hfuel
    have hiter' := Option.join_eq_some_iff.mp hfuel'
    have heq := Option.some.inj (Loop.iter_unique hiter hiter')
    have hlt := (@render_length str (fun w => memoryFrom m w.toNat) around args fmt 0
      fun w hw => (hargs w hw).length_lt).2 hmem
    rw [heq] at hlt
    exact lt_irrefl _ hlt
  · intro hnot
    exact ⟨fuel, by rw [hfuel, render_congr hnot]⟩

/-- A format `%x` in memory. -/
theorem print_agrees_hex : ∃ fuel,
    print (textAt 4096 [37, 120]) (fun _ => 0) 4096 (fun _ => 0xb8000)
    fuel = some ([48, 48, 48, 66, 56, 48, 48, 48], 1) := by
  have hfmt : IsString (textAt 4096 [37, 120]) 4096 [37, 120] :=
    ⟨⟨rfl, by simp, rfl, by simp, rfl⟩, by simp, by simp⟩
  have hprint := (@print_agrees_iff _ (fun _ => 0) 4096 (fun _ => 0xb8000) _ (fun _ => []) hfmt
    (fun w hw => absurd hw List.not_mem_nil)).mpr (by decide)
  exact hprint

/-- **A string** of one character is not what `%s` emits. -/
theorem print_string : ¬ ∀ (m : Mem) (around : ℤ → Int8) (format : ℕ) (args : ℕ → BitVec 32)
    (fmt : List Int8) (str : BitVec 32 → List Int8), IsString m format fmt →
      (∀ w ∈ stringArgs args fmt 0, IsString m w.toNat (str w)) →
      ∃ fuel, print m around format args fuel = some (render str around args fmt 0) := by
  intro hall
  have hfmt : IsString (textAt 4096 [37, 115, 0, 65]) 4096 [37, 115] :=
    ⟨⟨rfl, by simp, rfl, by simp, rfl⟩, by simp, by simp⟩
  have harg : IsString (textAt 4096 [37, 115, 0, 65]) 4099 [65] :=
    ⟨⟨rfl, by simp, rfl⟩, by simp, by simp⟩
  have hargs : ∀ w ∈ stringArgs (fun _ => 4099) [37, 115] 0,
      IsString (textAt 4096 [37, 115, 0, 65]) w.toNat [65] := by
    intro w hw
    obtain rfl := List.mem_singleton.mp hw
    exact harg
  obtain ⟨fuel, hfuel⟩ := hall _ (fun _ => 0) 4096 (fun _ => 4099) _ (fun _ => [65]) hfmt hargs
  obtain ⟨fuel', hfuel'⟩ := @print_eq_render _ (fun _ => 0) 4096 (fun _ => 4099) _ hfmt.chars
  have hiter := Option.join_eq_some_iff.mp hfuel
  have hiter' := Option.join_eq_some_iff.mp hfuel'
  have heq := Option.some.inj (Loop.iter_unique hiter hiter')
  have hlt := (@render_length (fun _ => [65])
    (fun w => memoryFrom (textAt 4096 [37, 115, 0, 65]) w.toNat) (fun _ => 0) (fun _ => 4099)
    [37, 115] 0 fun w hw => (hargs w hw).length_lt).2 (by decide)
  rw [heq] at hlt
  exact lt_irrefl _ hlt

end LoofOS
