import LoofOS.HeapRun

/-!
# The Heap as a List of Blocks

An abstract allocator on the list of the blocks of the heap: `takeFirst` takes the first unused
block that is large enough and splits it. `kernel_allocate` refines it (`HeapInv.allocate_eq`), so
its result depends on the headers only (`HeapInv.allocate_same`).
For the callers of the allocator the live results are apart, and those of at least half a page stand
on a page (`HeapInv.page_aligned`). A byte behind an unused header is a `FreeByte`; the allocator
does not write to it before it is handed out, so a block has the bytes that were there before
(`Granted.payload`).

## Main results

* `takeFirst_eq_some`: which block is taken.
* `HeapInv.allocate_eq`: `kernel_allocate` refines `takeFirst`.
* `HeapInv.page_aligned`: large blocks stand on pages.
* `HeapInv.congr_payloads`: what may be written to without harm to the heap.
-/

namespace LoofOS

open Tiling

/-! ### First fit -/

/-- The offset of the first block that a request of size `k` takes, and the blocks then. -/
def takeFirst (k : ℕ) : List Block → Option (ℕ × List Block)
  | [] => none
  | b :: bs =>
      if b.fits k then some (0, ⟨k, true⟩ :: (splits k b.size ++ bs))
      else (takeFirst k bs).map fun x => (b.span + x.1, b :: x.2)

theorem takeFirst_of_forall {k : ℕ} {bs : List Block} (h : ∀ b ∈ bs, b.fits k = false) :
    takeFirst k bs = none := by
  induction bs with
  | nil => rfl
  | cons b bs ih =>
      rw [takeFirst, if_neg (Bool.eq_false_iff.mp (h b List.mem_cons_self)),
        ih fun c hc => h c (List.mem_cons_of_mem _ hc), Option.map_none]

theorem takeFirst_append {k : ℕ} {pre post : List Block} {blk : Block}
    (hno : ∀ b ∈ pre, b.fits k = false) (hfit : blk.fits k = true) :
    takeFirst k (pre ++ blk :: post) =
      some (width Block.span pre, pre ++ (⟨k, true⟩ :: splits k blk.size) ++ post) := by
  induction pre with
  | nil =>
      rw [List.nil_append, takeFirst, if_pos hfit]
      rfl
  | cons b pre ih =>
      rw [List.cons_append, takeFirst, if_neg (Bool.eq_false_iff.mp (hno b List.mem_cons_self)),
        ih fun c hc => hno c (List.mem_cons_of_mem _ hc), Option.map_some, width_cons]
      rfl

/-- **Which block is taken.** -/
theorem takeFirst_cases (k : ℕ) (bs : List Block) :
    (takeFirst k bs = none ∧ ∀ b ∈ bs, b.fits k = false) ∨
      ∃ pre blk post, bs = pre ++ blk :: post ∧ (∀ b ∈ pre, b.fits k = false) ∧
        blk.fits k = true ∧ takeFirst k bs =
          some (width Block.span pre, pre ++ (⟨k, true⟩ :: splits k blk.size) ++ post) := by
  cases hfind : bs.find? (Block.fits k) with
  | none =>
      have hno : ∀ b ∈ bs, b.fits k = false := fun b hb =>
        Bool.eq_false_iff.mpr (List.find?_eq_none.mp hfind b hb)
      exact Or.inl ⟨takeFirst_of_forall hno, hno⟩
  | some blk =>
      obtain ⟨hfit, pre, post, rfl, hpre⟩ := List.find?_eq_some_iff_append.mp hfind
      have hno : ∀ b ∈ pre, b.fits k = false := fun b hb => by simpa using hpre b hb
      exact Or.inr ⟨pre, blk, post, rfl, hno, hfit, takeFirst_append hno hfit⟩

/-! ### What callers rely on -/

/-- The heap can be in this state: `init_kernel_heap` was called on some memory, and then a run of
calls and of writes to payloads took place. -/
def HeapReached (s : HeapState) : Prop :=
  ∃ r₀ r₁ ops, r₀.byte kernelHeap.last = 0 ∧ initKernelHeap r₀ = some r₁ ∧
    Run.Meets heapStep NoWrap ⟨r₁, []⟩ ops ∧ Run.exec heapStep ⟨r₁, []⟩ ops = some s

/-- **In every run of the heap** the invariant holds. -/
theorem HeapReached.inv {s : HeapState} (h : HeapReached s) : ∃ bs, HeapInv s bs := by
  obtain ⟨r₀, r₁, ops, hzero, hinit, hmeets, hexec⟩ := h
  refine Run.exec_invariant_of_meets (I := fun s => ∃ bs, HeapInv s bs) ?_
    ⟨_, initKernelHeap_inv hzero hinit⟩ hmeets hexec
  rintro s op s' ⟨bs, h⟩ hop hstep
  obtain ⟨bs', h', -⟩ := heapStep_inv h hop hstep
  exact ⟨bs', h'⟩

/-- A byte behind the header of an unused block. -/
def FreeByte (bs : List Block) (x : ℕ) : Prop :=
  ∃ a b, (a, b) ∈ layout Block.span kernelHeap.start bs ∧ b.used = false ∧ a < x ∧ x < a + b.span

/-- A range of addresses that lies in the payload of a live result, or outside the heap. -/
def Spared (live : List (ℕ × ℕ)) (a b : ℕ) : Prop :=
  (∃ p n, (p, n) ∈ live ∧ p ≤ a ∧ b ≤ p + n) ∨ b ≤ kernelHeap.start ∨ kernelHeap.last < a

namespace HeapInv

variable {s : HeapState} {bs : List Block}

/-- The live results lie in the heap. -/
theorem live_bounds (h : HeapInv s bs) {p n : ℕ} (hp : (p, n) ∈ s.live) :
    kernelHeap.start < p ∧ p + n ≤ kernelHeap.last := by
  obtain ⟨x, b, hx, rfl, -, hn⟩ := h.live p n hp
  have hb := h.bounds hx
  omega

/-- A result has one size. -/
theorem live_unique (h : HeapInv s bs) {p n m : ℕ} (hp : (p, n) ∈ s.live)
    (hq : (p, m) ∈ s.live) : n = m :=
  congrArg Prod.snd (List.inj_on_of_nodup_map h.once hp hq rfl)

/-- **Different live results are apart.** -/
theorem live_apart (h : HeapInv s bs) {p n q m : ℕ} (hp : (p, n) ∈ s.live)
    (hq : (q, m) ∈ s.live) (hne : p ≠ q) : p + n ≤ q ∨ q + m ≤ p := by
  obtain ⟨x, b, hx, rfl, -, hn⟩ := h.live p n hp
  obtain ⟨y, c, hy, rfl, -, hm⟩ := h.live q m hq
  rcases layout_apart hx hy with ⟨rfl, -⟩ | hle | hle
  · exact absurd rfl hne
  · exact Or.inl (by omega)
  · exact Or.inr (by omega)

/-- **Large results stand on pages**: the heap starts one byte below a page, and the blocks at
multiples of their spans from there. -/
theorem page_aligned (h : HeapInv s bs) {p n : ℕ} (hp : (p, n) ∈ s.live) (hn : 2048 ≤ n) :
    4096 ∣ p := by
  obtain ⟨x, b, hx, rfl, -, hle⟩ := h.live p n hp
  have hsize : 12 ≤ b.size := by
    by_contra hlt
    have hpow : 2 ^ b.size ≤ 2 ^ 11 := Nat.pow_le_pow_right Nat.two_pos (by omega)
    rw [Block.span] at hle
    omega
  have hspan : 2 ^ 12 ∣ b.span := Nat.pow_dvd_pow 2 hsize
  have hdvd : 4096 ∣ x - kernelHeap.start := hspan.trans (h.aligned x b hx)
  have hb := h.bounds hx
  have hstart := kernelHeap_start
  omega

/-- A byte of a live result is not free. -/
theorem not_freeByte (h : HeapInv s bs) {p n x : ℕ} (hp : (p, n) ∈ s.live) (hle : p ≤ x)
    (hlt : x < p + n) : ¬ FreeByte bs x := by
  rintro ⟨a, b, ha, hb, hax, hxa⟩
  have hout := @not_used s bs h p n (x - p) a b hp (by omega) ha hb
  omega

theorem freeByte_bounds (h : HeapInv s bs) {x : ℕ} (hx : FreeByte bs x) :
    kernelHeap.start < x ∧ x < kernelHeap.last := by
  obtain ⟨a, b, ha, -, hax, hxa⟩ := hx
  have hb := h.bounds ha
  omega

/-- **What may be written to**: a change of the payloads of live results, and of memory outside the
heap, does no harm to the heap and leaves the free bytes alone. -/
theorem congr_payloads (h : HeapInv s bs) {r : Ram}
    (hsame : ∀ x, kernelHeap.start ≤ x → x ≤ kernelHeap.last →
      (∀ p n, (p, n) ∈ s.live → x < p ∨ p + n ≤ x) → r.byte x = s.ram.byte x) :
    HeapInv ⟨r, s.live⟩ bs ∧ ∀ x, FreeByte bs x → r.byte x = s.ram.byte x := by
  refine ⟨h.congr (fun x blk hx => ?_) ?_, fun x hx => ?_⟩
  · have hb := h.bounds hx
    have hpos := blk.span_pos
    refine hsame x hb.1 (by omega) fun p n hp => ?_
    by_contra hin
    obtain ⟨-, hne⟩ := @payload_ne s bs h p n (x - p) hp (by omega)
    exact hne x blk hx (by omega)
  · have hlast : kernelHeap.start ≤ kernelHeap.last := by decide
    refine hsame kernelHeap.last hlast (le_refl _) fun p n hp => ?_
    have hb := h.live_bounds hp
    exact Or.inr hb.2
  · have hb := h.freeByte_bounds hx
    refine hsame x (by omega) (by omega) fun p n hp => ?_
    by_contra hin
    exact h.not_freeByte hp (by omega) (by omega) hx

/-- A range that is spared may be written to. -/
theorem spared (h : HeapInv s bs) {r : Ram} {a b : ℕ} (hab : Spared s.live a b)
    (hsame : ∀ x, x < a ∨ b ≤ x → r.byte x = s.ram.byte x) :
    HeapInv ⟨r, s.live⟩ bs ∧ ∀ x, FreeByte bs x → r.byte x = s.ram.byte x := by
  refine h.congr_payloads fun x hstart hlast hno => hsame x ?_
  rcases hab with ⟨p, n, hp, hpa, hbp⟩ | hle | hlt
  · rcases hno p n hp with hx | hx <;> omega
  · exact Or.inr (by omega)
  · exact Or.inl (by omega)

end HeapInv

/-! ### `kernel_allocate` -/

/-- What the memory looks like after a call that returned `p` for `n` bytes. -/
structure Granted (s : HeapState) (r : Ram) (bs bs' : List Block) (p n : ℕ) : Prop where
  heap : HeapInv ⟨r, (p, n) :: s.live⟩ bs'
  fresh : ∀ m, (p, m) ∉ s.live
  outside : ∀ x, x < kernelHeap.start ∨ kernelHeap.last ≤ x → r.byte x = s.ram.byte x
  kept : ∀ q m x, (q, m) ∈ s.live → q ≤ x → x < q + m → r.byte x = s.ram.byte x
  free : ∀ x, FreeByte bs' x → FreeByte bs x ∧ r.byte x = s.ram.byte x
  payload : ∀ x, p ≤ x → x < p + n → FreeByte bs x ∧ r.byte x = s.ram.byte x

namespace HeapInv

variable {s : HeapState} {bs : List Block} {n k : ℕ}

/-- What taking a block does to memory. -/
theorem granted {r : Ram} {pre post : List Block} {blk : Block}
    (h : HeapInv s (pre ++ blk :: post)) (hn : n + 1 ≤ 2 ^ k) (hfit : blk.fits k = true)
    (htaken : TakenFrom s.ram r (kernelHeap.start + width Block.span pre) k blk.size)
    (hT : Tiles r kernelHeap.start (pre ++ (⟨k, true⟩ :: splits k blk.size) ++ post)
      kernelHeap.last) :
    Granted s r (pre ++ blk :: post) (pre ++ (⟨k, true⟩ :: splits k blk.size) ++ post)
      (kernelHeap.start + width Block.span pre + 1) n := by
  have hheap := h.taken hn hfit htaken hT
  rw [Block.fits, Bool.and_eq_true, Bool.not_eq_true', decide_eq_true_eq] at hfit
  obtain ⟨hunused, hks⟩ := hfit
  set a := kernelHeap.start + width Block.span pre with ha
  have hself : (a, blk) ∈ layout Block.span kernelHeap.start (pre ++ blk :: post) :=
    mem_layout_cons.mpr (Or.inr ⟨rfl, rfl⟩)
  have hspan : blk.span = 2 ^ blk.size := rfl
  have hbounds := h.bounds hself
  have hpow : 2 ^ k ≤ 2 ^ blk.size := Nat.pow_le_pow_right Nat.two_pos hks
  refine ⟨hheap, fun m hm => ?_, fun x hx => htaken.byte_outside (by omega),
    fun q m x hq hqx hxq => htaken.byte_outside ?_, fun x hx => ?_, fun x hpx hxp => ⟨?_, ?_⟩⟩
  · exact (List.nodup_cons.mp hheap.once).1 (List.mem_map.mpr ⟨_, hm, rfl⟩)
  · have hout := @not_used s _ h q m (x - q) a blk hq (by omega) hself hunused
    omega
  · obtain ⟨y, b, hy, hb, hyx, hxy⟩ := hx
    rcases (mem_layout_replace (width_pieces hks)).mp hy with hy | hy
    · refine ⟨⟨y, b, mem_layout_cons.mpr (Or.inl hy), hb, hyx, hxy⟩, htaken.byte_outside ?_⟩
      rcases apart_of_mem_around hy with hle | hle <;> omega
    rcases mem_layout_pieces.mp hy with ⟨-, rfl⟩ | ⟨j, hkj, hjs, rfl, rfl⟩
    · cases hb
    · -- between the header of this piece and the next one there is none
      have hj : Block.span ⟨j, false⟩ = 2 ^ j := rfl
      have hnext : 2 ^ (j + 1) ≤ 2 ^ blk.size := Nat.pow_le_pow_right Nat.two_pos hjs
      have hdouble : 2 ^ (j + 1) = 2 ^ j + 2 ^ j := by rw [pow_succ, Nat.mul_two]
      have hpos := Nat.two_pow_pos j
      refine ⟨⟨a, blk, hself, hunused, by omega, by omega⟩, htaken.byte x (by omega) ?_⟩
      rintro i hki his rfl
      rcases Nat.lt_or_ge j i with hlt | hge
      · have := Nat.pow_le_pow_right (n := 2) (by simp) (show j + 1 ≤ i from hlt)
        omega
      · have := Nat.pow_le_pow_right (n := 2) (by simp) hge
        omega
  · exact ⟨a, blk, hself, hunused, by omega, by omega⟩
  · refine htaken.byte x (by omega) fun j hkj hjs => ?_
    have := Nat.pow_le_pow_right (n := 2) (by simp) hkj
    omega

/-- **`kernel_allocate` refines first fit** on the list of blocks. -/
theorem allocate_eq (h : HeapInv s bs) (hk : roundBlockSize (wrap32 (n + 1)) = some k)
    (hn : n + 1 < 2 ^ 32) :
    (takeFirst k bs = none ∧ kernelAllocate s.ram n = some (0, s.ram)) ∨
      ∃ o bs' r, takeFirst k bs = some (o, bs') ∧
        kernelAllocate s.ram n = some (kernelHeap.start + o + 1, r) ∧
        Granted s r bs bs' (kernelHeap.start + o + 1) n := by
  have hstop : kernelHeap.Stops s.ram kernelHeap.last := Or.inr ⟨rfl, h.zero⟩
  rcases takeFirst_cases k bs with ⟨htake, hno⟩ | ⟨pre, blk, post, rfl, hno, hfit, htake⟩
  · exact Or.inl ⟨htake, memoryAllocate_none h.tiles hstop (by decide) hk hno⟩
  · obtain ⟨r, hcall, htaken, hT⟩ :=
      memoryAllocate_some h.tiles hstop.le (by decide) hk hno hfit
    have hsize := roundBlockSize_eq_some hk
    rw [wrap32_of_lt hn] at hsize
    have hle : n + 1 ≤ 2 ^ k := by omega
    exact Or.inr ⟨_, _, r, htake, hcall, h.granted hle hfit htaken hT⟩

/-- **The result depends on the headers only.** -/
theorem allocate_same {r r' : Ram} {live : List (ℕ × ℕ)} (h : HeapInv ⟨r, live⟩ bs)
    (h' : HeapInv ⟨r', live⟩ bs) (hn : n + 1 < 2 ^ 31) :
    ∃ p r₁ r₁', kernelAllocate r n = some (p, r₁) ∧ kernelAllocate r' n = some (p, r₁') ∧
      ((p = 0 ∧ r₁ = r ∧ r₁' = r') ∨
        (p ≠ 0 ∧ ∃ bs', Granted ⟨r, live⟩ r₁ bs bs' p n ∧ Granted ⟨r', live⟩ r₁' bs bs' p n)) := by
  obtain ⟨k, hk, -⟩ := @roundBlockSize_spec (n + 1) hn
  rw [← wrap32_of_lt (show n + 1 < 2 ^ 32 by omega)] at hk
  rcases h.allocate_eq hk (by omega) with ⟨htake, hcall⟩ | ⟨o, bs', r₁, htake, hcall, hgrant⟩
  · rcases h'.allocate_eq hk (by omega) with ⟨-, hcall'⟩ | ⟨o', bs'', r₁', htake', -⟩
    · exact ⟨0, r, r', hcall, hcall', Or.inl ⟨rfl, rfl, rfl⟩⟩
    · rw [htake] at htake'
      cases htake'
  · rcases h'.allocate_eq hk (by omega) with ⟨htake', -⟩ | ⟨o', bs'', r₁', htake', hcall', hgrant'⟩
    · rw [htake] at htake'
      cases htake'
    · rw [htake] at htake'
      obtain ⟨rfl, rfl⟩ := Prod.mk.inj (Option.some.inj htake')
      exact ⟨_, r₁, r₁', hcall, hcall', Or.inr ⟨Nat.succ_ne_zero _, bs', hgrant, hgrant'⟩⟩

end HeapInv

end LoofOS
