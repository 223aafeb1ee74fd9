import LoofOS.FirstFit
import LoofOS.Run

/-!
# The End of a Heap

`init_memory` writes headers for the whole 8-byte units of a heap, while the search of
`memory_allocate` goes on to the last address. Where the two disagree, the search comes to
a byte that the allocator has not written and takes it for a header.

For every heap this decides whether the allocator only ever trusts its own headers: it
does if and only if the length of the heap is a multiple of eight
(`trustsOwnHeaders_iff`). The kernel heap is one byte longer than a multiple of eight.

## Main results

* `visits_tiles`: the search over a tiling visits the headers and the end.
* `AllStamped.memoryAllocate`: the step lemma.
* `trustsOwnHeaders_of_dvd`, `exists_overrun`: the two directions.
* `trustsOwnHeaders_iff`: the heaps whose allocator trusts its own headers only.
-/

namespace LoofOS

open Tiling Run

/-! ### Runs of `memory_allocate` -/

/-- One call of `memory_allocate`, of which only the memory is kept. -/
def allocStep (spec : HeapSpec) (r : Ram) (size : ℕ) : Option Ram :=
  (memoryAllocate r spec size).map Prod.snd

/-- In every run of calls after `init_memory`, the next call reads only headers that the
allocator has written, and a block that it returns lies inside the heap. -/
def TrustsOwnHeaders (spec : HeapSpec) : Prop :=
  ∀ (r₀ r₁ r : Ram) (sizes : List ℕ) (n : ℕ), r₀.stamped = [] →
    initMemory r₀ spec = some r₁ → exec (allocStep spec) r₁ sizes = some r →
    (∀ k a, roundBlockSize (wrap32 (n + 1)) = some k →
      Loop.Visits (searchBody r spec k) spec.start a → a ≤ spec.last → a ∈ r.stamped) ∧
    (∀ p r', memoryAllocate r spec n = some (p, r') → p ≠ 0 →
      spec.start ≤ p - 1 ∧ p - 1 + 2 ^ r'.size (p - 1) ≤ spec.last + 1)

/-! ### Heaps that are tiled to the end -/

/-- The search over a tiling visits its headers and the address behind them. -/
theorem visits_tiles {r : Ram} {spec : HeapSpec} {bs : List Block} {k a : ℕ}
    (hT : Tiles r spec.start bs (spec.last + 1)) (hlast : spec.last + 1 < 2 ^ 32)
    (h : Loop.Visits (searchBody r spec k) spec.start a) :
    (∃ blk, (a, blk) ∈ layout Block.span spec.start bs) ∨ a = spec.last + 1 := by
  refine h.invariant (I := fun a => (∃ blk, (a, blk) ∈ layout Block.span spec.start bs) ∨
    a = spec.last + 1) ?_ ?_
  · intro x x' hx hround
    rcases hx with ⟨blk, hx⟩ | rfl
    · have hb := mem_layout_bounds hx
      have hsz := hT.size blk (mem_of_mem_layout hx)
      have hsize : r.size x = blk.size := congrArg Block.size (hT.header x blk hx)
      have hpos := blk.span_pos
      have hends := hT.ends
      rw [searchBody, if_pos (by omega)] at hround
      split at hround
      · cases hround
      · obtain rfl := Sum.inl.inj hround
        rw [hsize, bit32_of_lt (by omega)]
        rw [Block.span] at hb
        rw [wrap32_of_lt (by omega)]
        have hnext := mem_layout_next hx
        rw [hends] at hnext
        exact hnext
    · rw [searchBody_end (by omega)] at hround
      cases hround
  · cases bs with
    | nil =>
        right
        simpa using hT.ends
    | cons blk bs => exact Or.inl ⟨blk, by simp⟩

/-- The heap is tiled to the end and every header was written by the allocator. -/
def AllStamped (spec : HeapSpec) (r : Ram) : Prop :=
  ∃ bs, Tiles r spec.start bs (spec.last + 1) ∧
    ∀ x h, (x, h) ∈ layout Block.span spec.start bs → x ∈ r.stamped

/-- **One call** keeps the heap tiled to the end, and what it returns lies inside. -/
theorem AllStamped.memoryAllocate {spec : HeapSpec} {r r' : Ram} {n p : ℕ}
    (h : AllStamped spec r) (hlast : spec.last + 1 < 2 ^ 32)
    (hcall : memoryAllocate r spec n = some (p, r')) :
    AllStamped spec r' ∧
      (p ≠ 0 → spec.start ≤ p - 1 ∧ p - 1 + 2 ^ r'.size (p - 1) ≤ spec.last + 1) := by
  obtain ⟨bs, hT, hstamp⟩ := h
  obtain ⟨k, -, ⟨rfl, rfl, -⟩ | ⟨pre, blk, post, rfl, hfit, rfl, htaken, hT'⟩⟩ :=
    memoryAllocate_cases hT (Or.inl rfl) hlast hcall
  · exact ⟨⟨bs, hT, hstamp⟩, fun hp => absurd rfl hp⟩
  rw [Block.fits, Bool.and_eq_true, decide_eq_true_eq] at hfit
  have hwidth : width Block.span (⟨k, true⟩ :: splits k blk.size) = blk.span :=
    width_pieces hfit.2
  refine ⟨⟨_, hT', fun x h hx => ?_⟩, fun _ => ?_⟩
  · rcases (mem_layout_replace hwidth).mp hx with hx | hx
    · exact htaken.stamped x (Or.inl (hstamp x h (mem_layout_cons.mpr (Or.inl hx))))
    rcases mem_layout_pieces.mp hx with ⟨rfl, -⟩ | ⟨j, hkj, hjs, rfl, -⟩
    · exact htaken.stamped _ (Or.inr (Or.inl rfl))
    · exact htaken.stamped _ (Or.inr (Or.inr ⟨j, hkj, hjs, rfl⟩))
  · have hsize : r'.size (spec.start + width Block.span pre) = k :=
      congrArg Block.size htaken.header_self
    have hself : (spec.start + width Block.span pre, blk)
        ∈ layout Block.span spec.start (pre ++ blk :: post) :=
      mem_layout_cons.mpr (Or.inr ⟨rfl, rfl⟩)
    have hb := mem_layout_bounds hself
    rw [hT.ends, Block.span] at hb
    have hpow : 2 ^ k ≤ 2 ^ blk.size := Nat.pow_le_pow_right Nat.two_pos hfit.2
    rw [Nat.add_sub_cancel, hsize]
    omega

/-- **A heap of whole units**: the allocator trusts its own headers only. -/
theorem trustsOwnHeaders_of_dvd {spec : HeapSpec} (hle : spec.start < spec.last)
    (hlast : spec.last + 1 < 2 ^ 32) (hdvd : 8 ∣ spec.last + 1 - spec.start) :
    TrustsOwnHeaders spec := by
  intro r₀ r₁ r sizes n _ hinit hrun
  have hboot : AllStamped spec r₁ := by
    obtain ⟨r₂, hr₂, hI⟩ := @initMemory_spec r₀ spec hle.le hlast
    obtain rfl : r₂ = r₁ := Option.some.inj (hr₂.symm.trans hinit)
    have hT := hI.tiles
    rw [show spec.start + (spec.last + 1 - spec.start) / 8 * 8 = spec.last + 1 by omega] at hT
    exact ⟨_, hT, fun x h hx => hI.stamped x (Or.inr ⟨h, hx⟩)⟩
  have hr : AllStamped spec r := by
    refine exec_invariant (fun r op r' h hstep => ?_) hboot hrun
    obtain ⟨⟨p, r₂⟩, hcall, rfl⟩ := Option.map_eq_some_iff.mp hstep
    exact (h.memoryAllocate hlast hcall).1
  refine ⟨fun k a _ hvisit ha => ?_, fun p r' hcall hp => (hr.memoryAllocate hlast hcall).2 hp⟩
  obtain ⟨bs, hT, hstamp⟩ := hr
  rcases visits_tiles hT hlast hvisit with ⟨blk, hx⟩ | rfl
  · exact hstamp a blk hx
  · omega

/-! ### Heaps with a rest behind the last unit -/

/-- A request of `2 ^ 30` bytes asks for the largest block there can be. -/
theorem roundBlockSize_large : roundBlockSize (wrap32 (2 ^ 30 + 1)) = some 31 := by
  decide +kernel

/-- **The overrun**: where no block fits and the byte behind the tiling reads as a large
unused block, that byte is taken for a header. -/
theorem memoryAllocate_overrun {r : Ram} {spec : HeapSpec} {bs : List Block} {e : ℕ}
    (hT : Tiles r spec.start bs e) (he : e ≤ spec.last) (hlast : spec.last + 1 < 2 ^ 32)
    (hno : ∀ h ∈ bs, h.fits 31 = false) (hbyte : r.byte e = 31) :
    memoryAllocate r spec (2 ^ 30) = some (e + 1, r.setUsed e true) := by
  have hlen := hT.length_le
  have hsize : r.size e = 31 := by rw [Ram.size, hbyte]; rfl
  have hfit : (r.header e).fits 31 = true := by
    rw [Ram.header, hsize, Ram.used, hbyte]
    rfl
  have hsearch : searchLoop r spec 31 = some (some e) := by
    obtain ⟨fuel, hfuel⟩ : ∃ fuel, 2 ^ 32 + 1 = (fuel + 1) + bs.length :=
      ⟨2 ^ 32 + 1 - 1 - bs.length, by omega⟩
    rw [searchLoop, hfuel, iter_searchBody_skip hT (by omega) (by omega) hno]
    exact Loop.iter_succ_of_inr (searchBody_fit he hfit) _
  have hsplit : splitLoop r e 31 = some r :=
    Loop.iter_succ_of_inr (by rw [splitBody, hsize, if_neg (lt_irrefl 31)]) _
  have hwrap : wrap32 (e + 1) = e + 1 := wrap32_of_lt (by omega)
  rw [memoryAllocate, roundBlockSize_large]
  simp [hsearch, hsplit, hwrap]

/-- An overrun breaks the promise. -/
theorem not_trustsOwnHeaders {r₀ r₁ r : Ram} {spec : HeapSpec} {sizes : List ℕ}
    {bs : List Block} {e : ℕ} (hstamp : r₀.stamped = [])
    (hinit : initMemory r₀ spec = some r₁) (hrun : exec (allocStep spec) r₁ sizes = some r)
    (hT : Tiles r spec.start bs e) (he : e ≤ spec.last) (hlast : spec.last + 1 < 2 ^ 32)
    (hrest : spec.last < e + 8) (hno : ∀ h ∈ bs, h.fits 31 = false) (hbyte : r.byte e = 31) :
    ¬ TrustsOwnHeaders spec := by
  intro hall
  have hcall := memoryAllocate_overrun hT he hlast hno hbyte
  obtain ⟨-, hin⟩ := (hall r₀ r₁ r sizes (2 ^ 30) hstamp hinit hrun).2 _ _ hcall
    (Nat.succ_ne_zero e)
  have hsize : (r.setUsed e true).size e = 31 := by
    rw [Ram.size_setUsed_self, Ram.size, hbyte]
    rfl
  rw [Nat.add_sub_cancel, hsize] at hin
  omega

/-- **A heap with a rest behind its last unit**: with a suitable byte in the rest, one of
the first two requests of `2 ^ 30` bytes overruns the heap. -/
theorem exists_overrun {spec : HeapSpec} (hle : spec.start < spec.last)
    (hlast : spec.last + 1 < 2 ^ 32) (hdvd : ¬ 8 ∣ spec.last + 1 - spec.start) :
    ¬ TrustsOwnHeaders spec := by
  set e := spec.start + (spec.last + 1 - spec.start) / 8 * 8 with he
  have hele : e ≤ spec.last := by omega
  have hrest : spec.last < e + 8 := by omega
  let r₀ : Ram := ⟨Mem.store (fun _ => 0) e 31, []⟩
  obtain ⟨r₁, hinit, hI⟩ := @initMemory_spec r₀ spec hle.le hlast
  rw [← he] at hI
  have hT := hI.tiles
  set bs := initBlocks 32 ((spec.last + 1 - spec.start) / 8) 3
  have hbyte : r₁.byte e = 31 := by
    rw [hI.byte e fun h hx => ?_]
    · exact Mem.store_self (fun _ => 0) e 31
    · have hb := mem_layout_bounds hx
      have hpos := h.span_pos
      have hends := hT.ends
      omega
  cases hfind : bs.find? (Block.fits 31) with
  | none =>
      have hno : ∀ h ∈ bs, h.fits 31 = false := fun h hh =>
        Bool.eq_false_iff.mpr (List.find?_eq_none.mp hfind h hh)
      exact not_trustsOwnHeaders rfl hinit (exec_nil r₁) hT hele hlast hrest hno hbyte
  | some blk =>
      -- there is at most one block of half the address space; the first request takes it
      obtain ⟨hfit, pre, post, hbs, hpre⟩ := List.find?_eq_some_iff_append.mp hfind
      have hno : ∀ h ∈ pre, h.fits 31 = false := fun h hh => by simpa using hpre h hh
      rw [hbs] at hT
      obtain ⟨r₂, hcall, htaken, hT₂⟩ :=
        memoryAllocate_some hT (by omega) hlast.le roundBlockSize_large hno hfit
      have hsize : blk.size = 31 := by
        rw [Block.fits, Bool.and_eq_true, decide_eq_true_eq] at hfit
        have := (hT.size blk (by simp)).2
        omega
      have hends := hT.ends
      rw [width_append, width_cons, Block.span, hsize] at hends
      have hstep : allocStep spec r₁ (2 ^ 30) = some r₂ := by
        rw [allocStep, hcall, Option.map_some]
      have hrun : exec (allocStep spec) r₁ [2 ^ 30] = some r₂ := by
        rw [exec_cons hstep, exec_nil]
      refine not_trustsOwnHeaders rfl hinit hrun hT₂ hele hlast hrest ?_ ?_
      · intro h hh
        rw [hsize, splits, Nat.sub_self, List.range'_zero, List.map_nil, List.append_assoc,
          List.mem_append] at hh
        rcases hh with hh | hh
        · exact hno h hh
        rcases List.mem_cons.mp hh with rfl | hh
        · rfl
        · have hspan : 2 ^ h.size ≤ width Block.span post := le_width_of_mem (w := Block.span) hh
          have hlt : h.size < 31 := by
            by_contra hge
            have hpow : 2 ^ 31 ≤ 2 ^ h.size := Nat.pow_le_pow_right Nat.two_pos (by omega)
            omega
          rw [Block.fits, decide_eq_false (by omega), Bool.and_false]
      · rw [htaken.byte_outside (Or.inr ?_), hbyte]
        rw [hsize]
        omega

/-- **The heaps whose allocator trusts its own headers only** are those whose length is a
multiple of eight. -/
theorem trustsOwnHeaders_iff {spec : HeapSpec} (hle : spec.start < spec.last)
    (hlast : spec.last + 1 < 2 ^ 32) :
    TrustsOwnHeaders spec ↔ 8 ∣ spec.last + 1 - spec.start := by
  constructor
  · intro h
    by_contra hdvd
    exact exists_overrun hle hlast hdvd h
  · exact trustsOwnHeaders_of_dvd hle hlast

/-- A heap of one block of sixteen bytes. -/
theorem trustsOwnHeaders_sixteen :
    TrustsOwnHeaders ⟨0x1000, 0x100f⟩ ↔ 8 ∣ 0x100f + 1 - 0x1000 :=
  trustsOwnHeaders_iff (by simp) (by simp)

/-- **The kernel heap overruns.** Its last byte is not written by `init_memory`; when the
byte is 31, the request of `2 ^ 30` bytes returns a pointer just behind the heap. -/
theorem kernelHeap_overruns : ¬ TrustsOwnHeaders kernelHeap := by
  intro hall
  have hrun : ((initKernelHeap ⟨Mem.store (fun _ => 0) 0xefffffff 31, []⟩).bind fun r =>
      (kernelAllocate r (2 ^ 30)).map fun (p, r') => (p, r'.size 0xefffffff))
      = some (0xf0000000, 31) := by decide +kernel
  obtain ⟨r₁, hinit, hrest⟩ := Option.bind_eq_some_iff.mp hrun
  obtain ⟨⟨p, r'⟩, hcall, he⟩ := Option.map_eq_some_iff.mp hrest
  obtain ⟨rfl, hsize⟩ := Prod.mk.inj he
  obtain ⟨-, hin⟩ := (hall _ r₁ r₁ [] (2 ^ 30) rfl hinit rfl).2 _ r' hcall (by simp)
  rw [show 0xf0000000 - 1 = 0xefffffff from rfl, hsize] at hin
  exact absurd hin (by decide)

end LoofOS
