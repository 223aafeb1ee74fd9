import LoofOS.HeapRun

/-!
# Fragmentation of the Kernel Heap

The header walk of a heap visits the headers from its start to its end, each found from
the one before. On a tiled heap it lists the blocks (`headerWalk_tiles`). Since `kernel_free`
merges nothing, the number of blocks never falls, and the walk is the one of the fresh heap
again only if no request has ever split the one big block (`kernelHeap_whole_iff`).

## Main results

* `headerWalk_tiles`: the walk over a tiled heap.
* `exec_blocks_le`: along a run the number of blocks never falls.
* `kernelHeap_whole_iff`: when the heap is whole again after everything was freed.
-/

namespace LoofOS

open Tiling Run

/-! ### The header walk -/

/-- One header of the walk; the headers visited before it are carried along. -/
def walkBody (r : Ram) (spec : HeapSpec) :
    ℕ × List (ℕ × Block) → (ℕ × List (ℕ × Block)) ⊕ List (ℕ × Block)
  | (a, seen) =>
      if a ≤ spec.last then Sum.inl (wrap32 (a + bit32 (r.size a)), seen ++ [(a, r.header a)])
      else Sum.inr seen

/-- The headers that a walk over the heap visits, with their addresses. -/
def headerWalk (r : Ram) (spec : HeapSpec) : Option (List (ℕ × Block)) :=
  Loop.iter (walkBody r spec) (2 ^ 32 + 1) (spec.start, [])

/-- The walk over a tiling visits its blocks. -/
theorem iter_walkBody {r : Ram} {spec : HeapSpec} {a b : ℕ} {bs : List Block}
    (hT : Tiles r a bs b) (hb : b ≤ spec.last) (hlast : spec.last < 2 ^ 32) (fuel : ℕ)
    (seen : List (ℕ × Block)) :
    Loop.iter (walkBody r spec) (fuel + bs.length) (a, seen)
      = Loop.iter (walkBody r spec) fuel (b, seen ++ layout Block.span a bs) := by
  induction bs generalizing a seen with
  | nil =>
      obtain rfl : a = b := hT.ends
      simp
  | cons blk bs ih =>
      obtain ⟨hhead, htail⟩ := @Tiles.split r a b [blk] bs hT
      have hself : r.header a = blk := hT.header a blk (by simp)
      have hsize : r.size a = blk.size := congrArg Block.size hself
      have hsz := hT.size blk List.mem_cons_self
      have hends := htail.ends
      simp only [width_cons, width_nil, Nat.add_zero] at htail hends
      have hround : walkBody r spec (a, seen)
          = Sum.inl (a + blk.span, seen ++ [(a, blk)]) := by
        rw [walkBody, if_pos (by omega), hself, hsize, bit32_of_lt (by omega)]
        rw [Block.span] at hends ⊢
        rw [wrap32_of_lt (by omega)]
      rw [List.length_cons, ← Nat.add_assoc, Loop.iter_succ_of_inl hround, ih htail,
        layout_cons, List.append_assoc, List.singleton_append]

/-- **The walk over the tiled kernel heap**: its blocks, and the zero byte behind them,
which reads as an unused block of one byte. -/
theorem headerWalk_tiles {r : Ram} {bs : List Block}
    (hT : Tiles r kernelHeap.start bs kernelHeap.last) (hzero : r.byte kernelHeap.last = 0) :
    headerWalk r kernelHeap
      = some (layout Block.span kernelHeap.start bs ++ [(kernelHeap.last, ⟨0, false⟩)]) := by
  have hlen := hT.length_le
  have hstart := kernelHeap_start
  have hlast := kernelHeap_last
  obtain ⟨fuel, hfuel⟩ : ∃ fuel, 2 ^ 32 + 1 = (fuel + 2) + bs.length :=
    ⟨2 ^ 32 + 1 - 2 - bs.length, by omega⟩
  have hhead : r.header kernelHeap.last = ⟨0, false⟩ := by
    rw [Ram.header, Ram.size, Ram.used, hzero]
    rfl
  have hsize : r.size kernelHeap.last = 0 := congrArg Block.size hhead
  have hround : walkBody r kernelHeap
      (kernelHeap.last, layout Block.span kernelHeap.start bs)
      = Sum.inl (kernelHeap.last + 1,
        layout Block.span kernelHeap.start bs ++ [(kernelHeap.last, ⟨0, false⟩)]) := by
    rw [walkBody, if_pos (le_refl _), hhead, hsize]
    rfl
  rw [headerWalk, hfuel, iter_walkBody hT (le_refl _) (by omega), List.nil_append,
    Loop.iter_succ_of_inl hround]
  exact Loop.iter_succ_of_inr (by rw [walkBody, if_neg (by omega)]) _

/-! ### The number of blocks -/

/-- The walk has one header more than the heap has blocks. -/
theorem HeapInv.walk_length {s : HeapState} {bs : List Block} {ws : List (ℕ × Block)}
    (h : HeapInv s bs) (hw : headerWalk s.ram kernelHeap = some ws) :
    ws.length = bs.length + 1 := by
  rw [headerWalk_tiles h.tiles h.zero] at hw
  rw [← Option.some.inj hw, List.length_append, length_layout, List.length_singleton]

/-- **The number of blocks never falls.** -/
theorem exec_blocks_le {s t : HeapState} {bs : List Block} {ops : List HeapOp}
    (h : HeapInv s bs) (hops : Meets heapStep NoWrap s ops)
    (hrun : exec heapStep s ops = some t) :
    ∃ bs', HeapInv t bs' ∧ bs.length ≤ bs'.length := by
  refine exec_invariant_of_meets (I := fun t => ∃ bs', HeapInv t bs' ∧ bs.length ≤ bs'.length)
    ?_ ⟨bs, h, le_refl _⟩ hops hrun
  rintro s op s' ⟨cs, hcs, hle⟩ hop hstep
  obtain ⟨cs', hcs', hle'⟩ := heapStep_inv hcs hop hstep
  exact ⟨cs', hcs', hle.trans hle'⟩

/-- A heap of a single block is one block of the size of the whole heap. -/
theorem HeapInv.eq_whole {s : HeapState} {bs : List Block} (h : HeapInv s bs)
    (hlen : bs.length ≤ 1) : ∃ u, bs = [⟨29, u⟩] := by
  have hends := h.tiles.ends
  have hstart := kernelHeap_start
  have hlast := kernelHeap_last
  match bs, hlen with
  | [], _ =>
      rw [width_nil] at hends
      omega
  | [⟨k, u⟩], _ =>
      rw [width_cons, width_nil, Block.span] at hends
      have hpow : 2 ^ k = 2 ^ 29 := by
        simp only at hends
        omega
      obtain rfl := Nat.pow_right_injective (le_refl 2) hpow
      exact ⟨u, rfl⟩

/-- In a heap of one block the block is used exactly when a result is live. -/
theorem HeapInv.whole_unused {s : HeapState} {u : Bool} (h : HeapInv s [⟨29, u⟩]) :
    u = false ↔ s.live = [] := by
  constructor
  · rintro rfl
    rw [List.eq_nil_iff_forall_not_mem]
    rintro ⟨p, n⟩ hp
    obtain ⟨x, b, hx, -, hb, -⟩ := h.live p n hp
    simp only [layout_cons, layout_nil, List.mem_singleton, Prod.mk.injEq] at hx
    rw [hx.2] at hb
    cases hb
  · intro hlive
    by_contra hu
    obtain ⟨n, hn⟩ := h.used kernelHeap.start ⟨29, u⟩ (by simp) (by simpa using hu)
    rw [hlive] at hn
    cases hn

/-! ### Runs that keep the heap whole -/

/-- While nothing is live, a request takes the whole heap or more. -/
def TakesWhole (s : HeapState) : HeapOp → Prop
  | .allocate n => s.live = [] → 2 ^ 28 ≤ wrap32 (n + 1)
  | _ => True

/-- The heap can serve a request. -/
def Serves (r : Ram) (n : ℕ) : Prop := ∃ p r', kernelAllocate r n = some (p, r') ∧ p ≠ 0

/-- A request of the whole heap leaves it whole. -/
theorem heapStep_whole {s s' : HeapState} {op : HeapOp} (h : ∃ u, HeapInv s [⟨29, u⟩])
    (hop : TakesWhole s op) (hstep : heapStep s op = some s') :
    ∃ u, HeapInv s' [⟨29, u⟩] := by
  obtain ⟨u, h⟩ := h
  cases op with
  | allocate n =>
      obtain ⟨hn, p, hcall, hlive⟩ := heapStep_allocate hstep
      obtain ⟨k, hk, ⟨rfl, hr, -⟩ | ⟨pre, blk, post, hbs, hfit, rfl, htaken, hT⟩⟩ :=
        h.allocate_cases hcall
      · obtain rfl : s' = s := by
          cases s
          cases s'
          simp only [if_true] at hr hlive
          rw [hr, hlive]
        exact ⟨u, h⟩
      · -- the block that is taken is the only one, so nothing was live
        obtain ⟨rfl, rfl, rfl⟩ : pre = [] ∧ blk = ⟨29, u⟩ ∧ post = [] := by
          cases pre with
          | nil =>
              obtain ⟨rfl, rfl⟩ := List.cons.inj hbs
              exact ⟨rfl, rfl, rfl⟩
          | cons c pre =>
              have := congrArg List.length hbs
              simp only [List.length_cons, List.length_append, List.length_nil] at this
              omega
        obtain ⟨h3, h31, hnk, hkn⟩ := roundBlockSize_eq_some hk
        have hparts := hfit
        rw [Block.fits, Bool.and_eq_true, Bool.not_eq_true', decide_eq_true_eq] at hparts
        have hbig := hop (h.whole_unused.mp hparts.1)
        have hk29 : k = 29 := by
          refine le_antisymm hparts.2 ?_
          by_contra hlt
          have hpow : 2 ^ k ≤ 2 ^ 28 := Nat.pow_le_pow_right Nat.two_pos (by omega)
          omega
        subst hk29
        have hfits : n + 1 ≤ 2 ^ 29 := by
          rw [wrap32] at hnk hbig
          omega
        have hinv := h.taken hfits hfit htaken hT
        rw [if_neg (Nat.succ_ne_zero _)] at hlive
        rw [← hlive] at hinv
        exact ⟨true, hinv⟩
  | free p =>
      obtain ⟨⟨n, hp⟩, hcall, hlive⟩ := heapStep_free hstep
      obtain ⟨bs', hinv, hsizes⟩ := h.free hp hcall
      rw [← hlive] at hinv
      have hlen := congrArg List.length hsizes
      rw [List.length_map, List.length_map] at hlen
      obtain ⟨v, rfl⟩ := hinv.eq_whole (by rw [hlen]; exact le_refl 1)
      exact ⟨v, hinv⟩
  | write p i v =>
      obtain ⟨⟨n, hp, hi⟩, rfl⟩ := heapStep_write hstep
      exact ⟨u, h.write hp hi v⟩

/-- A heap of one unused block serves what another one serves. -/
theorem HeapInv.serves {s t : HeapState} {n : ℕ} (hs : HeapInv s [⟨29, false⟩])
    (ht : HeapInv t [⟨29, false⟩]) (h : Serves s.ram n) : Serves t.ram n := by
  obtain ⟨p, r', hcall, hp⟩ := h
  obtain ⟨k, hk, ⟨rfl, -, -⟩ | ⟨pre, blk, post, hbs, hfit, -⟩⟩ :=
    hs.allocate_cases hcall
  · exact absurd rfl hp
  · have hblk : blk = ⟨29, false⟩ := by
      have : blk ∈ [(⟨29, false⟩ : Block)] := by
        rw [hbs]
        exact List.mem_append_right _ List.mem_cons_self
      exact List.mem_singleton.mp this
    rw [hblk] at hfit
    obtain ⟨r₂, hres, -⟩ := @memoryAllocate_some t.ram kernelHeap n k kernelHeap.last [] []
      ⟨29, false⟩ ht.tiles (Nat.le_succ _) (by decide) hk (by simp) hfit
    exact ⟨_, r₂, hres, Nat.succ_ne_zero _⟩

/-- A run that ends in a heap of one block has kept it whole all the time. -/
theorem meets_takesWhole {s t : HeapState} {bs bs' : List Block} {ops : List HeapOp}
    (h : HeapInv s bs) (hops : Meets heapStep NoWrap s ops)
    (hrun : exec heapStep s ops = some t) (ht : HeapInv t bs') (hlen : bs'.length ≤ 1) :
    Meets heapStep TakesWhole s ops := by
  -- any other tiling of the last state has as many blocks
  have hcount : ∀ cs, HeapInv t cs → cs.length ≤ 1 := by
    intro cs hcs
    have hw := headerWalk_tiles hcs.tiles hcs.zero
    have h₁ := hcs.walk_length hw
    have h₂ := ht.walk_length hw
    omega
  clear ht hlen
  induction ops generalizing s bs with
  | nil => trivial
  | cons op ops ih =>
      obtain ⟨s', hstep, hrest⟩ := exec_cons_inv hrun
      obtain ⟨cs, hcs, hle⟩ := exec_blocks_le h hops hrun
      obtain ⟨u, rfl⟩ := h.eq_whole (hle.trans (hcount cs hcs))
      refine ⟨?_, fun s₂ hs₂ => ?_⟩
      · cases op with
        | allocate n =>
            intro hlive
            obtain rfl := h.whole_unused.mpr hlive
            have hn : n + 1 < 2 ^ 32 := hops.1
            obtain ⟨-, p, hcall, hlive'⟩ := heapStep_allocate hstep
            obtain ⟨⟨ds, hds, -, hsplit⟩, -⟩ := h.allocate hn hcall
            rw [← hlive'] at hds
            rw [wrap32_of_lt hn]
            by_contra hsmall
            have htwo := hsplit (by omega) rfl
            obtain ⟨es, hes, hle'⟩ := exec_blocks_le hds (hops.2 s' hstep) hrest
            have := hcount es hes
            omega
        | free p => trivial
        | write p i v => trivial
      · obtain rfl : s' = s₂ := Option.some.inj (hstep.symm.trans hs₂)
        obtain ⟨ds, hds, -⟩ := heapStep_inv h hops.1 hstep
        exact ih hds (hops.2 s' hstep) hrest

/-- The walk over the fresh heap. -/
theorem headerWalk_boot {r₀ r₁ : Ram} (hzero : r₀.byte kernelHeap.last = 0)
    (hinit : initKernelHeap r₀ = some r₁) :
    headerWalk r₁ kernelHeap
      = some [(kernelHeap.start, ⟨29, false⟩), (kernelHeap.last, ⟨0, false⟩)] := by
  have h := initKernelHeap_inv hzero hinit
  have hw := headerWalk_tiles h.tiles h.zero
  simpa using hw

/-- **When the heap is whole again after everything was freed**: if every request made
while nothing was live took the whole heap (or more), the header walk is the one of the
fresh heap and every request is served as before. For requests of less than `2 ^ 32 - 1`
bytes this is the only way to get that walk back. -/
theorem kernelHeap_whole_iff {r₀ r₁ : Ram} {ops : List HeapOp} {s : HeapState}
    (hzero : r₀.byte kernelHeap.last = 0) (hinit : initKernelHeap r₀ = some r₁)
    (hrun : exec heapStep ⟨r₁, []⟩ ops = some s) (hfreed : s.live = []) :
    (Meets heapStep TakesWhole ⟨r₁, []⟩ ops →
      headerWalk s.ram kernelHeap = headerWalk r₁ kernelHeap ∧
        ∀ n, Serves r₁ n → Serves s.ram n) ∧
    (Meets heapStep NoWrap ⟨r₁, []⟩ ops →
      headerWalk s.ram kernelHeap = headerWalk r₁ kernelHeap →
        Meets heapStep TakesWhole ⟨r₁, []⟩ ops) := by
  have h₁ := initKernelHeap_inv hzero hinit
  have hboot := headerWalk_boot hzero hinit
  refine ⟨fun hops => ?_, fun hops hwalk => ?_⟩
  · obtain ⟨u, h⟩ := exec_invariant_of_meets (fun s op s' h hop hstep => heapStep_whole h hop hstep)
      ⟨false, h₁⟩ hops hrun
    obtain rfl := h.whole_unused.mpr hfreed
    refine ⟨?_, fun n hn => h₁.serves h hn⟩
    rw [headerWalk_tiles h.tiles h.zero, hboot]
    simp
  · obtain ⟨bs, h, -⟩ := exec_blocks_le h₁ hops hrun
    have hlen := h.walk_length (hwalk.trans hboot)
    exact meets_takesWhole h₁ hops hrun h (by simpa using hlen.ge)

/-- A request of half the heap takes all of it and leaves no trace once it was freed. -/
theorem kernelHeap_whole_half :
    ((exec heapStep ⟨bootRam, []⟩ [.allocate 0x10000000, .free 0xd0000000]).map
      fun s => headerWalk s.ram kernelHeap) = some (headerWalk bootRam kernelHeap) := by
  have hrun : ((exec heapStep ⟨bootRam, []⟩ [.allocate 0x10000000, .free 0xd0000000]).map
      HeapState.live) = some [] := by decide +kernel
  obtain ⟨s, hs, hlive⟩ := Option.map_eq_some_iff.mp hrun
  have hops : Meets heapStep TakesWhole ⟨bootRam, []⟩
      [.allocate 0x10000000, .free 0xd0000000] :=
    ⟨fun _ => by decide, fun _ _ => ⟨trivial, fun _ _ => trivial⟩⟩
  rw [hs, Option.map_some,
    ((kernelHeap_whole_iff rfl initKernelHeap_zeroRam hs hlive).1 hops).1]

/-- **Freed blocks are not merged.** One byte is allocated and freed again; the walk then
finds the pieces into which the heap was split. -/
theorem kernelFree_leaves_pieces :
    ¬ ∀ (r₀ r₁ : Ram) (ops : List HeapOp) (s : HeapState), r₀.byte kernelHeap.last = 0 →
      initKernelHeap r₀ = some r₁ → exec heapStep ⟨r₁, []⟩ ops = some s → s.live = [] →
      headerWalk s.ram kernelHeap = headerWalk r₁ kernelHeap := by
  intro hall
  have hrun : ((exec heapStep ⟨bootRam, []⟩ [.allocate 1, .free 0xd0000000]).map
      fun s => (s.live, headerWalk s.ram kernelHeap == headerWalk bootRam kernelHeap))
      = some ([], false) := by decide +kernel
  obtain ⟨s, hs, he⟩ := Option.map_eq_some_iff.mp hrun
  obtain ⟨hlive, hne⟩ := Prod.mk.inj he
  have hwalk := hall zeroRam bootRam _ s rfl initKernelHeap_zeroRam hs hlive
  rw [hwalk, beq_self_eq_true] at hne
  cases hne

end LoofOS
