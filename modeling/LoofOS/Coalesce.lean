import LoofOS.Heap

/-!
# What Freeing a Block Does

`memory_free` clears the used bit of the header and hands the pointer it was given to
`coalesce_block`. That pointer addresses the payload, one byte behind the header, so the
loop takes payload bytes for headers. This module says what the loop can and cannot do
when it is started there.

On the kernel heap every header stands at a multiple of eight from the start of the heap,
and payload pointers at one more than that. The loop keeps to such pointers until it
leaves the heap for good, so it never writes a header (`kernelFree_frame`): the walk over
the heap is not damaged, but nothing is merged either. What it does write is the low seven
bits of first payload bytes, its own block's and, whenever a buddy below matches, those
of another block. Where no buddy below matches it writes nothing outside the block that
is being freed (`coalesceBlock_of_stopsInPlace`).

## Main results

* `coalesceBody_inl`: the inversion of a round that goes on.
* `coalesceBlock_terminates`: `coalesce_block` returns from every state.
* `coalesceBlock_of_stopsInPlace`: a run that never moves to a lower buddy.
* `kernelFree_frame`: headers of the kernel heap survive every `kernel_free`.
-/

namespace LoofOS

/-! ### One round -/

/-- **Inversion of a round that goes on**: the buddy is unused and of equal size, and the
lower one of the two grows by one. -/
theorem coalesceBody_inl {offset block : ℕ} {r : Ram} {t : Ram × ℕ}
    (h : coalesceBody offset (r, block) = Sum.inl t) :
    r.header (buddyOf offset block (r.size block)) = ⟨r.size block, false⟩ ∧
      t.2 = min block (buddyOf offset block (r.size block)) ∧
      t.1 = r.setSize t.2 (r.size block + 1) := by
  simp only [coalesceBody] at h
  split at h
  · rename_i hcond
    simp only [Bool.and_eq_true, Bool.not_eq_true', beq_iff_eq] at hcond
    have hhead : r.header (buddyOf offset block (r.size block)) = ⟨r.size block, false⟩ := by
      rw [Ram.header, hcond.1, hcond.2]
    split at h
    · obtain rfl := Sum.inl.inj h
      exact ⟨hhead, by simp only; omega, rfl⟩
    · obtain rfl := Sum.inl.inj h
      exact ⟨hhead, by simp only; omega, by simp only [hcond.2]⟩
  · cases h

/-- The loop is left where the buddy is in use or of another size. -/
theorem coalesceBody_inr {offset block : ℕ} {r r' : Ram}
    (h : coalesceBody offset (r, block) = Sum.inr r') : r' = r := by
  simp only [coalesceBody] at h
  split at h
  · split at h <;> cases h
  · exact (Sum.inr.inj h).symm

/-- A round that goes on keeps or lowers the pointer, and changes only the byte there. -/
theorem coalesceBody_byte {offset block x : ℕ} {r : Ram} {t : Ram × ℕ}
    (h : coalesceBody offset (r, block) = Sum.inl t) (hx : x ≠ t.2) :
    t.1.byte x = r.byte x := by
  rw [(coalesceBody_inl h).2.2]
  exact Ram.byte_setSize_of_ne _ hx

theorem coalesceBody_size {offset block : ℕ} {r : Ram} {t : Ram × ℕ}
    (h : coalesceBody offset (r, block) = Sum.inl t) :
    t.1.size t.2 = (r.size block + 1) % 128 := by
  rw [(coalesceBody_inl h).2.2, Ram.size_setSize_self]

/-- A block is not its own buddy. -/
theorem buddyOf_ne {offset : ℕ} (ho : offset < 2 ^ 32) (block size : ℕ) :
    buddyOf offset block size ≠ block := by
  intro h
  have hx : sub32 block offset < 2 ^ 32 := Nat.mod_lt _ (by simp)
  have hpow : bit32 size < 2 ^ 32 :=
    Nat.pow_lt_pow_right Nat.one_lt_two (Nat.mod_lt _ (by simp))
  have hsame : sub32 block offset ^^^ bit32 size = sub32 block offset := by
    have hlt := Nat.xor_lt_two_pow hx hpow
    rw [buddyOf, wrap32] at h
    generalize sub32 block offset ^^^ bit32 size = y at h hlt ⊢
    rw [sub32]
    omega
  have hzero : bit32 size = 0 := by
    rw [← Nat.zero_xor (bit32 size), ← Nat.xor_self (sub32 block offset), Nat.xor_assoc, hsame]
  exact absurd hzero (Nat.two_pow_pos _).ne'

/-! ### Termination

While the pointer stays where it is, only the byte at the pointer changes, and its size
runs through consecutive values. After 32 such rounds the same buddy is due again, which
would have to have two different sizes. So the number of rounds that can still be made
without moving (`staysLeft`) is at most 32, and a move lowers the pointer. -/

/-- How many consecutive sizes from `size` on, up to `n` of them, the buddies of a
block at `block` have. -/
def staysLeft (r : Ram) (offset block : ℕ) : ℕ → ℕ → ℕ
  | 0, _ => 0
  | n + 1, size =>
      if r.header (buddyOf offset block size) = ⟨size % 128, false⟩ then
        staysLeft r offset block n (size + 1) + 1
      else 0

theorem staysLeft_succ (r : Ram) (offset block n size : ℕ) :
    staysLeft r offset block (n + 1) size
      = if r.header (buddyOf offset block size) = ⟨size % 128, false⟩ then
          staysLeft r offset block n (size + 1) + 1
        else 0 := rfl

theorem staysLeft_le (r : Ram) (offset block n size : ℕ) :
    staysLeft r offset block n size ≤ n := by
  induction n generalizing size with
  | zero => exact le_refl 0
  | succ n ih =>
      rw [staysLeft_succ]
      split
      · exact Nat.succ_le_succ (ih _)
      · exact Nat.zero_le _

/-- Only the headers of the buddies matter. -/
theorem staysLeft_congr {r r' : Ram} {offset block : ℕ}
    (h : ∀ size, r'.header (buddyOf offset block size) = r.header (buddyOf offset block size))
    (n size : ℕ) : staysLeft r' offset block n size = staysLeft r offset block n size := by
  induction n generalizing size with
  | zero => rfl
  | succ n ih => simp only [staysLeft_succ, h, ih]

/-- A size outside seven bits is the same as its low seven bits. -/
theorem staysLeft_mod (r : Ram) (offset block n size : ℕ) :
    staysLeft r offset block n (size % 128) = staysLeft r offset block n size := by
  induction n generalizing size with
  | zero => rfl
  | succ n ih =>
      have hbuddy : buddyOf offset block (size % 128) = buddyOf offset block size := by
        rw [buddyOf, buddyOf, bit32, bit32, Nat.mod_mod_of_dvd _ (by simp)]
      have hnext : staysLeft r offset block n (size % 128 + 1)
          = staysLeft r offset block n (size + 1) := by
        rw [← ih (size % 128 + 1), ← ih (size + 1), Nat.mod_add_mod]
      simp only [staysLeft_succ, hbuddy, Nat.mod_mod, hnext]

/-- A buddy that has matched one size can not match the size 32 above, at which it is due
again. -/
theorem staysLeft_succ_le {r : Ram} {offset block size : ℕ}
    (h : r.header (buddyOf offset block size) = ⟨size % 128, false⟩) (n i : ℕ)
    (hn : n + i = 32) :
    staysLeft r offset block (n + 1) (size + i) ≤ staysLeft r offset block n (size + i) := by
  induction n generalizing i with
  | zero =>
      obtain rfl : i = 32 := by omega
      have hbuddy : buddyOf offset block (size + 32) = buddyOf offset block size := by
        rw [buddyOf, buddyOf, bit32, bit32, Nat.add_mod_right]
      have hne : r.header (buddyOf offset block (size + 32)) ≠ ⟨(size + 32) % 128, false⟩ := by
        rw [hbuddy, h]
        intro he
        have := congrArg Block.size he
        simp only at this
        omega
      rw [staysLeft_succ, if_neg hne]
      exact Nat.zero_le _
  | succ n ih =>
      have hnext := ih (i + 1) (by omega)
      rw [← Nat.add_assoc] at hnext
      rw [staysLeft_succ r offset block (n + 1) (size + i),
        staysLeft_succ r offset block n (size + i)]
      split
      · exact Nat.succ_le_succ hnext
      · exact le_refl 0

/-- A round that stays at its pointer uses up one of the rounds left. -/
theorem staysLeft_lt {offset block : ℕ} {r : Ram} {t : Ram × ℕ} (ho : offset < 2 ^ 32)
    (h : coalesceBody offset (r, block) = Sum.inl t) (ht : t.2 = block) :
    staysLeft t.1 offset t.2 32 (t.1.size t.2) < staysLeft r offset block 32 (r.size block) := by
  have hhead : r.header (buddyOf offset block (r.size block)) = ⟨r.size block % 128, false⟩ := by
    rw [(coalesceBody_inl h).1, Nat.mod_eq_of_lt (r.size_lt block)]
  have hsame : staysLeft t.1 offset block 32 (r.size block + 1)
      = staysLeft r offset block 32 (r.size block + 1) :=
    staysLeft_congr (fun size => Ram.header_congr
      (coalesceBody_byte h (by rw [ht]; exact buddyOf_ne ho block size))) _ _
  have hunfold : staysLeft r offset block 32 (r.size block)
      = staysLeft r offset block 31 (r.size block + 1) + 1 := by
    rw [staysLeft_succ, if_pos hhead]
  have hbound : staysLeft r offset block 32 (r.size block + 1)
      ≤ staysLeft r offset block 31 (r.size block + 1) := staysLeft_succ_le hhead 31 1 rfl
  rw [coalesceBody_size h, staysLeft_mod, ht, hsame, hunfold]
  omega

/-- **`coalesce_block` returns** from every memory and every pointer. -/
theorem coalesceBlock_terminates (r : Ram) {block offset : ℕ} (hb : block < 2 ^ 32)
    (ho : offset < 2 ^ 32) : ∃ r', coalesceBlock r block offset = some r' := by
  have hgo : ∀ s s' : Ram × ℕ, s.2 < 2 ^ 32 → coalesceBody offset s = Sum.inl s' →
      s'.2 < 2 ^ 32 ∧ 33 * s'.2 + staysLeft s'.1 offset s'.2 32 (s'.1.size s'.2)
        < 33 * s.2 + staysLeft s.1 offset s.2 32 (s.1.size s.2) := by
    rintro ⟨r₁, b₁⟩ s' hs hround
    have hmin := (coalesceBody_inl hround).2.1
    have hbound := staysLeft_le s'.1 offset s'.2 32 (s'.1.size s'.2)
    refine ⟨by simp only at hs; omega, ?_⟩
    rcases Nat.lt_or_ge s'.2 b₁ with hlt | hge
    · -- a move: the pointer pays for all the rounds that can follow
      simp only
      omega
    · have hstay : s'.2 = b₁ := by omega
      have := staysLeft_lt ho hround hstay
      simp only
      omega
  obtain ⟨r', hr', -⟩ := Loop.iter_total (Q := fun _ => True) _ hgo
    (fun _ _ _ _ => trivial) (s := (r, block)) hb (33 * 2 ^ 32) (by
      have := staysLeft_le r offset block 32 (r.size block)
      simp only
      omega)
  exact ⟨r', hr'⟩

/-- **`memory_free` returns** from every memory and every pointer. -/
theorem memoryFree_terminates (r : Ram) {spec : HeapSpec} {addr : ℕ} (ha : addr < 2 ^ 32)
    (hs : spec.start < 2 ^ 32) : ∃ r', memoryFree r spec addr = some r' :=
  coalesceBlock_terminates _ ha hs

/-! ### Runs that do not move -/

/-- The loop of `coalesce_block` started at `block` meets a buddy that does not match
before it meets one below: from the size at `block` up to some size `t` the buddies all
lie above, and the one of size `t` is not an unused block of that size. -/
def StopsInPlace (r : Ram) (offset block : ℕ) : Prop :=
  ∃ t < 128, r.size block ≤ t ∧
    (∀ j < t, r.size block ≤ j → block < buddyOf offset block j) ∧
    r.header (buddyOf offset block t) ≠ ⟨t, false⟩

instance (r : Ram) (offset block : ℕ) : Decidable (StopsInPlace r offset block) :=
  inferInstanceAs (Decidable (∃ t < 128, r.size block ≤ t ∧
    (∀ j < t, r.size block ≤ j → block < buddyOf offset block j) ∧
    r.header (buddyOf offset block t) ≠ ⟨t, false⟩))

/-- **A run that does not move** changes no byte but the one at the pointer. -/
theorem coalesceBlock_of_stopsInPlace {r r' : Ram} {offset block : ℕ} (ho : offset < 2 ^ 32)
    (hstop : StopsInPlace r offset block) (h : coalesceBlock r block offset = some r') :
    ∀ x, x ≠ block → r'.byte x = r.byte x := by
  obtain ⟨t, ht128, hst, habove, hne⟩ := hstop
  -- the pointer stays, its size grows up to `t`, and nothing else changes
  refine Loop.iter_sound
    (I := fun s => s.2 = block ∧ r.size block ≤ s.1.size block ∧ s.1.size block ≤ t ∧
      ∀ x, x ≠ block → s.1.byte x = r.byte x)
    (Q := fun r' => ∀ x, x ≠ block → r'.byte x = r.byte x) ?_ ?_
    ⟨rfl, le_refl _, hst, fun _ _ => rfl⟩ h
  · rintro ⟨r₁, b₁⟩ s' ⟨hb, hlo, hhi, hkeep⟩ hround
    obtain rfl : b₁ = block := hb
    simp only at hlo hhi hkeep
    obtain ⟨hhead, hmin, -⟩ := coalesceBody_inl hround
    have hhead' : r.header (buddyOf offset b₁ (r₁.size b₁)) = ⟨r₁.size b₁, false⟩ := by
      rw [← hhead]
      exact (Ram.header_congr (hkeep _ (buddyOf_ne ho b₁ _))).symm
    have hlt : r₁.size b₁ < t := by
      refine lt_of_le_of_ne hhi fun he => hne ?_
      rw [← he]
      exact hhead'
    have hstay : s'.2 = b₁ := by
      have := habove _ hlt hlo
      omega
    have hsize : s'.1.size b₁ = r₁.size b₁ + 1 := by
      have := coalesceBody_size hround
      rw [hstay] at this
      omega
    refine ⟨hstay, by omega, by omega, fun x hx => ?_⟩
    rw [coalesceBody_byte hround (by rw [hstay]; exact hx), hkeep x hx]
  · rintro ⟨r₁, b₁⟩ r₂ ⟨-, -, -, hkeep⟩ hround
    rw [coalesceBody_inr hround]
    exact hkeep

/-! ### Headers of the kernel heap

Offsets are counted from the start of the kernel heap, which is `2 ^ 29` bytes long.
Payload pointers have offsets one above a multiple of eight. -/

theorem buddyOf_kernel {x : ℕ} (hx : x < 2 ^ 29) (size : ℕ) :
    buddyOf kernelHeap.start (kernelHeap.start + x) size
      = wrap32 ((x ^^^ 2 ^ (size % 32)) + kernelHeap.start) := by
  have hstart := kernelHeap_start
  rw [buddyOf, sub32_of_le (by omega) (by omega), Nat.add_sub_cancel_left, bit32]

/-- The buddies of a payload pointer of sizes 3 to 28 are payload pointers of the heap. -/
theorem payload_xor {x c : ℕ} (hx : x % 8 = 1) (hlt : x < 2 ^ 29) (h3 : 3 ≤ c) (hc : c < 29) :
    (x ^^^ 2 ^ c) % 8 = 1 ∧ x ^^^ 2 ^ c < 2 ^ 29 := by
  refine ⟨?_, Nat.xor_lt_two_pow hlt (Nat.pow_lt_pow_right Nat.one_lt_two hc)⟩
  have hdvd : 2 ^ c % 2 ^ 3 = 0 := Nat.mod_eq_zero_of_dvd (Nat.pow_dvd_pow 2 h3)
  have hmod := Nat.xor_mod_two_pow (a := x) (b := 2 ^ c) (n := 3)
  rw [hdvd, Nat.xor_zero] at hmod
  omega

/-- **Where the loop goes from a payload pointer**: out of the heap, below its start, or
to a payload pointer of the heap; to the latter only while the size has not come round to
a multiple of 32. -/
theorem payload_min_buddy {x size : ℕ} (hx : x % 8 = 1) (hlt : x < 2 ^ 29)
    (hsize : size % 32 ≠ 0) :
    min (kernelHeap.start + x) (buddyOf kernelHeap.start (kernelHeap.start + x) size)
        < kernelHeap.start ∨
      (size % 32 ≠ 31 ∧ ∃ y, y % 8 = 1 ∧ y < 2 ^ 29 ∧
        min (kernelHeap.start + x) (buddyOf kernelHeap.start (kernelHeap.start + x) size)
          = kernelHeap.start + y) := by
  have hstart := kernelHeap_start
  have hc : size % 32 < 32 := Nat.mod_lt _ (by simp)
  rw [buddyOf_kernel hlt]
  generalize size % 32 = c at hsize hc ⊢
  by_cases hlow : c < 3
  · -- the buddies of sizes 1 and 2 lie just above
    have hclear : x.testBit c = false := by
      obtain rfl | rfl : c = 1 ∨ c = 2 := by omega
      all_goals
        rw [Nat.testBit_eq_decide_div_mod_eq, decide_eq_false_iff_not]
        omega
    rw [xor_two_pow_of_testBit_false hclear]
    refine Or.inr ⟨by omega, x, hx, hlt, ?_⟩
    obtain rfl | rfl : c = 1 ∨ c = 2 := by omega
    all_goals
      rw [wrap32]
      omega
  by_cases hmid : c < 29
  · obtain ⟨hy, hylt⟩ := payload_xor hx hlt (by omega) hmid
    generalize x ^^^ 2 ^ c = y at hy hylt ⊢
    rw [wrap32_of_lt (by omega)]
    refine Or.inr ⟨by omega, ?_⟩
    rcases Nat.le_total (kernelHeap.start + x) (y + kernelHeap.start) with hle | hle
    · exact ⟨x, hx, hlt, by omega⟩
    · exact ⟨y, hy, hylt, by omega⟩
  · -- the buddies of sizes 29 to 31 lie outside the heap
    have hclear : x.testBit c = false :=
      Nat.testBit_lt_two_pow (hlt.trans_le (Nat.pow_le_pow_right Nat.two_pos (by omega)))
    rw [xor_two_pow_of_testBit_false hclear]
    obtain rfl | rfl | rfl : c = 29 ∨ c = 30 ∨ c = 31 := by omega
    · rw [wrap32]
      rcases Nat.lt_or_ge (x + 2 ^ 29 + kernelHeap.start) (2 ^ 32) with hin | hout
      · exact Or.inr ⟨by omega, x, hx, hlt, by omega⟩
      · exact Or.inl (by omega)
    · rw [wrap32]
      exact Or.inl (by omega)
    · rw [wrap32]
      exact Or.inl (by omega)

/-- Bytes of the kernel heap at which no payload pointer of a block can point. -/
def OffPayload (x : ℕ) : Prop :=
  kernelHeap.start ≤ x ∧ x ≤ kernelHeap.last ∧ (x - kernelHeap.start) % 8 ≠ 1

/-- The loop, started at the payload pointer of a block that was just marked unused,
changes no byte of the heap at which no payload pointer can point. -/
theorem coalesceBlock_frame {r r' : Ram} {u k : ℕ} (hu : 8 * u + 8 ≤ 2 ^ 29)
    (hk : 3 ≤ k ∧ k ≤ 31) (hhead : r.header (kernelHeap.start + 8 * u) = ⟨k, false⟩)
    (h : coalesceBlock r (kernelHeap.start + 8 * u + 1) kernelHeap.start = some r') :
    ∀ x, OffPayload x → r'.byte x = r.byte x := by
  have hstart := kernelHeap_start
  have hlast := kernelHeap_last
  -- the pointer has left the heap, or it is a payload pointer whose size is no multiple of
  -- 32, unless it is the first one
  refine Loop.iter_sound
    (I := fun s => (∀ x, OffPayload x → s.1.byte x = r.byte x) ∧
      (s.2 < kernelHeap.start ∨ ∃ y, y % 8 = 1 ∧ y < 2 ^ 29 ∧ s.2 = kernelHeap.start + y ∧
        (s.1.size s.2 % 32 ≠ 0 ∨ y = 8 * u + 1)))
    (Q := fun r' => ∀ x, OffPayload x → r'.byte x = r.byte x) ?_ ?_
    ⟨fun _ _ => rfl, Or.inr ⟨8 * u + 1, by omega, by omega, by simp only; omega,
      Or.inr rfl⟩⟩ h
  · rintro ⟨r₁, b⟩ s' ⟨hkeep, hptr⟩ hround
    obtain ⟨hmatch, hmin, -⟩ := coalesceBody_inl hround
    have hkeep' : ∀ x, OffPayload x → x ≠ s'.2 → s'.1.byte x = r.byte x := fun x hx hne => by
      rw [coalesceBody_byte hround hne, hkeep x hx]
    have hleave : s'.2 < kernelHeap.start → ∀ x, OffPayload x → s'.1.byte x = r.byte x :=
      fun hlt x hx => hkeep' x hx (by have := hx.1; omega)
    rcases hptr with hout | ⟨y, hy, hylt, rfl, hsize⟩
    · have hlt : s'.2 < kernelHeap.start := by
        simp only at hout
        omega
      exact ⟨hleave hlt, Or.inl hlt⟩
    simp only at hkeep hsize hmatch hmin
    have hsize : r₁.size (kernelHeap.start + y) % 32 ≠ 0 := by
      intro hzero
      obtain rfl := hsize.resolve_left (fun hne => hne hzero)
      -- the buddy of a size that is a multiple of 32 is the block's own header
      have hown : buddyOf kernelHeap.start (kernelHeap.start + (8 * u + 1))
          (r₁.size (kernelHeap.start + (8 * u + 1))) = kernelHeap.start + 8 * u := by
        have hset : (8 * u + 1).testBit 0 = true := by
          rw [Nat.testBit_zero, decide_eq_true_eq]
          omega
        have hxor := xor_two_pow_of_testBit_true hset
        rw [buddyOf_kernel hylt, hzero]
        rw [pow_zero] at hxor ⊢
        rw [wrap32_of_lt (by omega)]
        omega
      have hoff : OffPayload (kernelHeap.start + 8 * u) := ⟨by omega, by omega, by omega⟩
      rw [hown, Ram.header_congr (hkeep _ hoff), hhead] at hmatch
      have := congrArg Block.size hmatch
      simp only at this
      omega
    rcases payload_min_buddy hy hylt hsize with hlt | ⟨h31, z, hz, hzlt, hzeq⟩
    · rw [← hmin] at hlt
      exact ⟨hleave hlt, Or.inl hlt⟩
    · rw [← hmin] at hzeq
      refine ⟨fun x hx => hkeep' x hx ?_, Or.inr ⟨z, hz, hzlt, hzeq, Or.inl ?_⟩⟩
      · rintro rfl
        have := hx.2.2
        rw [hzeq, Nat.add_sub_cancel_left] at this
        exact this hz
      · rw [coalesceBody_size hround]
        have := r₁.size_lt (kernelHeap.start + y)
        omega
  · rintro ⟨r₁, b⟩ r₂ ⟨hkeep, -⟩ hround
    rw [coalesceBody_inr hround]
    exact hkeep

/-- **`kernel_free` keeps the headers**: the block becomes unused with its size unchanged,
and no other byte of the heap changes at which no payload pointer can point. -/
theorem kernelFree_frame {r r' : Ram} {u k : ℕ} (hu : 8 * u + 8 ≤ 2 ^ 29)
    (hk : 3 ≤ k ∧ k ≤ 31) (hhead : r.header (kernelHeap.start + 8 * u) = ⟨k, true⟩)
    (h : kernelFree r (kernelHeap.start + 8 * u + 1) = some r') :
    r'.header (kernelHeap.start + 8 * u) = ⟨k, false⟩ ∧
      ∀ x, OffPayload x → x ≠ kernelHeap.start + 8 * u → r'.byte x = r.byte x := by
  have hstart := kernelHeap_start
  have hlast := kernelHeap_last
  have hown : sub32 (kernelHeap.start + 8 * u + 1) 1 = kernelHeap.start + 8 * u := by
    rw [sub32_of_le (by omega) (by omega), Nat.add_sub_cancel]
  rw [kernelFree, memoryFree, hown] at h
  have hsize : r.size (kernelHeap.start + 8 * u) = k := congrArg Block.size hhead
  have hclear : (r.setUsed (kernelHeap.start + 8 * u) false).header (kernelHeap.start + 8 * u)
      = ⟨k, false⟩ := by
    rw [Ram.header, Ram.size_setUsed_self, Ram.used_setUsed_self, hsize]
  have hframe := coalesceBlock_frame hu hk hclear h
  refine ⟨?_, fun x hx hne => ?_⟩
  · rw [Ram.header_congr (hframe _ ⟨by omega, by omega, by omega⟩), hclear]
  · rw [hframe x hx, Ram.byte_setUsed_of_ne _ hne]

end LoofOS
