import LoofOS.HeapModel
import LoofOS.LinkedChain
import LoofOS.PageTables
import LoofOS.Pool

/-!
# Allocating Pages
The state of the page allocator: `SpaceInv` says that the heap is in order, that the page
directories `dirs` lead to the tables `tables` as `Tables` says, that `page_freelist` is a chain
through the frames `free`, and that no frame is in two places. `allocate_page` keeps it.

Entries of a directory with an index outside `U` are none of its business; they stay what they are
(`Extends`).

## Main results

* `SpaceInv.allocatePage`: `allocate_page` maps the first frame of the free list, or changes nothing
  that is mapped.
-/

namespace LoofOS

open LinkedChain

/-! ### The invariant -/

/-- A directory maps a page of its address space to a physical page. -/
def Maps (U : ℕ → Prop) (m : Mem) (dirs : List ℕ) (x : ℕ × ℕ) (f : ℕ) : Prop :=
  x.1 ∈ dirs ∧ U (x.2 / 1024) ∧ pageOf m x.1 x.2 = some f

/-- The physical addresses of the frames of the free list. -/
def framesOf (free : List ℕ) : List ℕ := free.map (· + pageOffset)

/-- The state of the page allocator. -/
structure SpaceInv (U : ℕ → Prop) (s : Kernel) (bs : List Block) (dirs tables free : List ℕ) :
    Prop where
  heap : HeapInv ⟨s.ram, s.live⟩ bs
  mapped : Tables U s.ram.byte dirs tables
  live : ∀ p ∈ dirs ++ tables, (p, 4096) ∈ s.live
  chain : Chain s.read32 s.pageFreelist free kernelBase
  frame : ∀ a ∈ free, IsPage a ∧ a < kernelBase
  apart : Pool.Apart (framesOf free) (Maps U s.ram.byte dirs)

/-- What a step of the page allocator leaves as it is; its new tables were in no live block. -/
structure Extends (U : ℕ → Prop) (dirs tables tables' : List ℕ) (s s' : Kernel)
    (bs bs' : List Block) : Prop where
  live : ∀ x ∈ s.live, x ∈ s'.live
  fresh : ∀ t ∈ tables', t ∉ tables → ∀ n, (t, n) ∉ s.live
  image : ∀ x, x < kernelHeap.start → s'.ram.byte x = s.ram.byte x
  block : ∀ p n, (p, n) ∈ s.live → p ∉ dirs → p ∉ tables → ∀ x, p ≤ x → x < p + n →
    s'.ram.byte x = s.ram.byte x
  dir : ∀ d ∈ dirs, ∀ i < 1024, ¬ U i → Mem.entry s'.ram.byte d i = Mem.entry s.ram.byte d i
  unused : ∀ x, FreeByte bs' x → FreeByte bs x ∧ s'.ram.byte x = s.ram.byte x
  processes : s'.processes = s.processes
  currentProcess : s'.currentProcess = s.currentProcess
  cr3 : s'.cr3 = s.cr3

variable {U : ℕ → Prop} {s s' s'' : Kernel} {bs bs' bs'' : List Block}
  {dirs dirs' tables tables' tables'' free : List ℕ} {d t a i j p n : ℕ}

theorem Extends.refl (s : Kernel) : Extends U dirs tables tables s s bs bs where
  live _ hx := hx
  fresh _ ht hnot := absurd ht hnot
  image _ _ := rfl
  block _ _ _ _ _ _ _ _ := rfl
  dir _ _ _ _ _ := rfl
  unused _ hx := ⟨hx, rfl⟩
  processes := rfl
  currentProcess := rfl
  cr3 := rfl

/-- The directories may become more in between. -/
theorem Extends.trans (h : Extends U dirs tables tables' s s' bs bs')
    (h' : Extends U dirs' tables' tables'' s' s'' bs' bs'') (hdirs : ∀ d ∈ dirs, d ∈ dirs')
    (hnew : ∀ d ∈ dirs', d ∉ dirs → ∀ n, (d, n) ∉ s.live) :
    Extends U dirs tables tables'' s s'' bs bs'' where
  live x hx := h'.live x (h.live x hx)
  fresh t ht hnot n hn := by
    by_cases hmem : t ∈ tables'
    · exact h.fresh t hmem hnot n hn
    · exact h'.fresh t ht hmem n (h.live _ hn)
  image x hx := (h'.image x hx).trans (h.image x hx)
  block p n hp hpd hpt x hpx hxp := by
    have hpt' : p ∉ tables' := fun hmem => h.fresh p hmem hpt n hp
    have hpd' : p ∉ dirs' := fun hmem => hnew p hmem hpd n hp
    exact (h'.block p n (h.live _ hp) hpd' hpt' x hpx hxp).trans (h.block p n hp hpd hpt x hpx hxp)
  dir d hd i hi hU := (h'.dir d (hdirs d hd) i hi hU).trans (h.dir d hd i hi hU)
  unused x hx := by
    obtain ⟨hx', he'⟩ := h'.unused x hx
    obtain ⟨hx, he⟩ := h.unused x hx'
    exact ⟨hx, he'.trans he⟩
  processes := h'.processes.trans h.processes
  currentProcess := h'.currentProcess.trans h.currentProcess
  cr3 := h'.cr3.trans h.cr3

/-! ### What is mapped -/

/-- The same pages are mapped. -/
def SameMaps (U : ℕ → Prop) (dirs : List ℕ) (s s' : Kernel) : Prop :=
  ∀ d ∈ dirs, ∀ n, U (n / 1024) → pageOf s'.ram.byte d n = pageOf s.ram.byte d n

/-- A directory that did not map page `n` maps it to a physical page, and nothing else is mapped
anew. -/
structure MapsAnew (U : ℕ → Prop) (dirs : List ℕ) (s s' : Kernel) (d n f : ℕ) : Prop where
  before : pageOf s.ram.byte d n = none
  after : pageOf s'.ram.byte d n = some f
  other : ∀ d' ∈ dirs, ∀ k, U (k / 1024) → ¬ (d' = d ∧ k = n) →
    pageOf s'.ram.byte d' k = pageOf s.ram.byte d' k

/-- Two steps that change no mapping make one. -/
theorem SameMaps.trans (h : SameMaps U dirs s s') (h' : SameMaps U dirs s' s'') :
    SameMaps U dirs s s'' := fun d hd n hn => (h' d hd n hn).trans (h d hd n hn)

/-- A new mapping after a step that changes none. -/
theorem SameMaps.mapsAnew {f : ℕ} (h : SameMaps U dirs s s') (hd : d ∈ dirs) (hn : U (n / 1024))
    (h' : MapsAnew U dirs s' s'' d n f) : MapsAnew U dirs s s'' d n f where
  before := (h d hd n hn).symm.trans h'.before
  after := h'.after
  other d' hd' k hk hne := (h'.other d' hd' k hk hne).trans (h d' hd' k hk)

/-- After such a step a page is mapped exactly when it was. -/
theorem SameMaps.maps_iff (h : SameMaps U dirs s s') (x : ℕ × ℕ) (f : ℕ) :
    Maps U s'.ram.byte dirs x f ↔ Maps U s.ram.byte dirs x f := by
  constructor
  · exact fun ⟨hd, hn, hf⟩ => ⟨hd, hn, (h x.1 hd x.2 hn).symm.trans hf⟩
  · exact fun ⟨hd, hn, hf⟩ => ⟨hd, hn, (h x.1 hd x.2 hn).trans hf⟩

/-- A page is mapped exactly when it was, or is the new one. -/
theorem MapsAnew.maps_iff {f : ℕ} (h : MapsAnew U dirs s s' d n f) (hd : d ∈ dirs)
    (hn : U (n / 1024)) (x : ℕ × ℕ) (g : ℕ) :
    Maps U s'.ram.byte dirs x g ↔ Maps U s.ram.byte dirs x g ∨ (x = (d, n) ∧ g = f) := by
  obtain ⟨d', k⟩ := x
  by_cases hx : d' = d ∧ k = n
  · obtain ⟨rfl, rfl⟩ := hx
    constructor
    · rintro ⟨-, -, hg⟩
      exact Or.inr ⟨rfl, Option.some.inj (hg.symm.trans h.after)⟩
    · rintro (⟨-, -, hg⟩ | ⟨-, rfl⟩)
      · rw [h.before] at hg
        cases hg
      · exact ⟨hd, hn, h.after⟩
  · constructor
    · rintro ⟨hd', hk, hg⟩
      exact Or.inl ⟨hd', hk, (h.other d' hd' k hk hx).symm.trans hg⟩
    · rintro (⟨hd', hk, hg⟩ | ⟨he, -⟩)
      · exact ⟨hd', hk, (h.other d' hd' k hk hx).trans hg⟩
      · exact absurd (Prod.mk.inj he) hx

/-- A table that `allocate_page` has to make is not null, and no entry of it is present. -/
def TableClear (s : Kernel) (pageDir addr : ℕ) : Prop :=
  s.pageFreelist < kernelBase → addr < kernelBase →
    entryPresent (s.read32 (pageDir + 4 * (addr / 2 ^ 22))) = false →
    ∀ t r, kernelAllocate s.ram 4096 = some (t, r) →
      t ≠ 0 ∧ ∀ j < 1024, entryPresent (Mem.entry s.ram.byte t j) = false

/-- Writing an entry allocates nothing. -/
theorem setPage_live (s : Kernel) (t j : ℕ) : (setPage s t j).live = s.live := by
  rw [setPage]
  split <;> rfl

/-! ### Changes of memory -/

theorem kernelHeap_above : kernelBase + 4096 ≤ kernelHeap.start := by decide

/-- The block that a page takes. -/
theorem roundBlockSize_page : roundBlockSize (wrap32 (4096 + 1)) = some 13 := by decide

theorem kernelBase_le_heap : kernelBase ≤ kernelHeap.start := by decide

namespace SpaceInv

/-- A list head below the kernel's base is a free frame. -/
theorem head_lt (h : SpaceInv U s bs dirs tables free) (hlt : s.pageFreelist < kernelBase) :
    ∃ a rest, free = a :: rest ∧ s.pageFreelist = a := by
  have hchain := h.chain
  cases free with
  | nil => exact absurd hchain hlt.ne
  | cons a rest => exact ⟨a, rest, rfl, hchain.1⟩

/-- A list head from the kernel's base on is an empty list. -/
theorem free_eq_nil (h : SpaceInv U s bs dirs tables free) (hle : kernelBase ≤ s.pageFreelist) :
    free = [] := by
  have hchain := h.chain
  cases free with
  | nil => rfl
  | cons a rest =>
      have hlt := (h.frame a List.mem_cons_self).2
      rw [← hchain.1] at hlt
      omega

/-- The links of free frames lie below the heap. -/
theorem chain_congr (h : SpaceInv U s bs dirs tables free) {m : Mem}
    (himage : ∀ x, x < kernelHeap.start → m x = s.ram.byte x) :
    Chain m.read32 s.pageFreelist free kernelBase := by
  refine h.chain.congr fun b hb => Mem.read32_congr fun x _ hx => himage x ?_
  have hlt := (h.frame b hb).2
  have habove := kernelHeap_above
  omega

/-- An address that is of no concern to the page allocator: in another block of the heap, or below
`KERNEL_BASE` and in no link of the free list. -/
def Harmless (live : List (ℕ × ℕ)) (dirs tables free : List ℕ) (x : ℕ) : Prop :=
  (∃ q n, (q, n) ∈ live ∧ q ∉ dirs ++ tables ∧ q ≤ x ∧ x < q + n) ∨
    (x < kernelBase ∧ ∀ a ∈ free, x < a ∨ a + 4 ≤ x)

/-- **Writes that are harmless.** -/
theorem harmless (h : SpaceInv U s bs dirs tables free) {r : Ram}
    (hsame : ∀ x, ¬ Harmless s.live dirs tables free x → r.byte x = s.ram.byte x) :
    SpaceInv U { s with ram := r } bs dirs tables free ∧
      (∀ p ∈ dirs ++ tables, ∀ i < 1024, Mem.entry r.byte p i = Mem.entry s.ram.byte p i) ∧
      ∀ x, FreeByte bs x → r.byte x = s.ram.byte x := by
  have habove := kernelBase_le_heap
  obtain ⟨hheap, hunused⟩ := h.heap.congr_payloads (r := r) fun x hstart _ hno => by
    refine hsame x ?_
    rintro (⟨q, n, hq, -, hqx, hxq⟩ | ⟨hlt, -⟩)
    · rcases hno q n hq with hx | hx <;> omega
    · exact absurd (habove.trans hstart) (Nat.not_le.mpr hlt)
  have hentry : ∀ p ∈ dirs ++ tables, ∀ i < 1024,
      Mem.entry r.byte p i = Mem.entry s.ram.byte p i := by
    intro p hp i hi
    refine Mem.entry_congr hi fun x hpx hxp => hsame x ?_
    rintro (⟨q, n, hq, hnot, hqx, hxq⟩ | ⟨hlt, -⟩)
    · rcases h.heap.live_apart hq (h.live p hp) fun he => hnot (he ▸ hp) with hle | hle <;> omega
    · have hstart := (h.heap.live_bounds (h.live p hp)).1
      exact absurd (habove.trans (hstart.le.trans hpx)) (Nat.not_le.mpr hlt)
  have hchain : Chain r.byte.read32 s.pageFreelist free kernelBase := by
    refine h.chain.congr fun a ha => Mem.read32_congr fun x hax hxa => hsame x ?_
    have hlt := (h.frame a ha).2
    have habove := kernelHeap_above
    rintro (⟨q, n, hq, -, hqx, -⟩ | ⟨-, hno⟩)
    · have hstart := (h.heap.live_bounds hq).1
      omega
    · rcases hno a ha with hx | hx <;> omega
  exact ⟨⟨hheap, h.mapped.congr hentry, h.live, hchain, h.frame,
    h.apart.congr (SameMaps.maps_iff fun d hd n hn => h.mapped.pageOf_congr hentry hd hn)⟩, hentry,
    hunused⟩

/-- An entry of a directory or a table is spared by the heap. -/
theorem spared_entry (h : SpaceInv U s bs dirs tables free) (hp : p ∈ dirs ++ tables)
    (hi : i < 1024) : Spared s.live (p + 4 * i) (p + 4 * i + 4) :=
  Or.inl ⟨p, 4096, h.live p hp, by omega, by omega⟩

/-- A word of a block of the heap is assigned. -/
theorem word_outside (h : SpaceInv U s bs dirs tables free) (hp : p ∈ dirs ++ tables)
    (hi : i < 1024) (w : ℕ) :
    (∀ x, x < kernelHeap.start → (s.ram.write32 (p + 4 * i) w).byte x = s.ram.byte x) ∧
      ∀ q m, (q, m) ∈ s.live → q ≠ p → ∀ x, q ≤ x → x < q + m →
        (s.ram.write32 (p + 4 * i) w).byte x = s.ram.byte x := by
  have houtside : ∀ x, x < p + 4 * i ∨ p + 4 * i + 4 ≤ x →
      (s.ram.write32 (p + 4 * i) w).byte x = s.ram.byte x := fun x hx => Mem.write32_of_outside hx
  have hbounds := h.heap.live_bounds (h.live p hp)
  refine ⟨fun x hx => houtside x (Or.inl (by omega)), fun q m hq hne x hqx hxq => houtside x ?_⟩
  rcases h.heap.live_apart hq (h.live p hp) hne with hle | hle <;> omega

/-- **A new block of the heap.** -/
theorem grant (h : SpaceInv U s bs dirs tables free) {r : Ram}
    (hgrant : Granted ⟨s.ram, s.live⟩ r bs bs' p n)
    (hs' : s' = { s with ram := r, live := (p, n) :: s.live }) :
    SpaceInv U s' bs' dirs tables free ∧ Extends U dirs tables tables s s' bs bs' ∧
      SameMaps U dirs s s' ∧ p ∉ dirs ++ tables := by
  subst hs'
  have hbytes : ∀ q ∈ dirs ++ tables, ∀ x, q ≤ x → x < q + 4096 → r.byte x = s.ram.byte x :=
    fun q hq x => hgrant.kept q 4096 x (h.live q hq)
  have hentry : ∀ q ∈ dirs ++ tables, ∀ i < 1024,
      Mem.entry r.byte q i = Mem.entry s.ram.byte q i :=
    fun q hq i hi => Mem.entry_congr hi (hbytes q hq)
  have himage : ∀ x, x < kernelHeap.start → r.byte x = s.ram.byte x :=
    fun x hx => hgrant.outside x (Or.inl hx)
  have hsame : SameMaps U dirs s { s with ram := r, live := (p, n) :: s.live } :=
    fun d hd k hk => h.mapped.pageOf_congr hentry hd hk
  refine ⟨⟨hgrant.heap, h.mapped.congr hentry,
    fun q hq => List.mem_cons_of_mem _ (h.live q hq), h.chain_congr himage, h.frame,
    h.apart.congr hsame.maps_iff⟩, ⟨fun x hx => List.mem_cons_of_mem _ hx,
    fun t ht hnot => absurd ht hnot, himage, fun q m hq _ _ x => hgrant.kept q m x hq,
    fun d hd i hi _ => hentry d (List.mem_append_left _ hd) i hi, hgrant.free, rfl, rfl, rfl⟩,
    hsame, fun hp => hgrant.fresh 4096 (h.live p hp)⟩

/-! ### Assigning entries -/

/-- **A new table** for an entry of a directory that was not present. -/
theorem addTable (h : SpaceInv U s bs dirs tables free) (hd : d ∈ dirs) (hi : U i)
    (hnot : entryPresent (Mem.entry s.ram.byte d i) = false) (ht : (t, 4096) ∈ s.live)
    (hfresh : t ∉ dirs ++ tables)
    (hclear : ∀ j < 1024, entryPresent (Mem.entry s.ram.byte t j) = false)
    (hs' : s' = s.write32 (d + 4 * i) (pageEntry t)) :
    SpaceInv U s' bs dirs (t :: tables) free ∧ SameMaps U dirs s s' ∧
      Mem.entry s'.ram.byte d i = pageEntry t ∧
      (∀ x, x < kernelHeap.start → s'.ram.byte x = s.ram.byte x) ∧
      (∀ q m, (q, m) ∈ s.live → q ∉ dirs → ∀ x, q ≤ x → x < q + m →
        s'.ram.byte x = s.ram.byte x) ∧
      (∀ d' ∈ dirs, ∀ k < 1024, ¬ (d' = d ∧ k = i) →
        Mem.entry s'.ram.byte d' k = Mem.entry s.ram.byte d' k) ∧
      ∀ x, FreeByte bs x → s'.ram.byte x = s.ram.byte x := by
  subst hs'
  have hlt := h.mapped.index i hi
  have htp : IsPage t := ⟨h.heap.page_aligned ht (by simp), by
    have := (h.heap.live_bounds ht).2
    have hlast := kernelHeap_last
    omega⟩
  have hmem : d ∈ dirs ++ tables := List.mem_append_left _ hd
  obtain ⟨hmapped, hself, hsame⟩ := h.mapped.addTable hd hi hnot htp hfresh hclear rfl
  obtain ⟨himage, hblock⟩ := h.word_outside hmem hlt (pageEntry t)
  obtain ⟨hheap, hunused⟩ := h.heap.spared (r := s.ram.write32 (d + 4 * i) (pageEntry t))
    (h.spared_entry hmem hlt) (fun x hx => Mem.write32_of_outside hx)
  refine ⟨⟨hheap, hmapped, fun q hq => ?_, h.chain_congr himage, h.frame,
    h.apart.congr (SameMaps.maps_iff hsame)⟩, hsame, hself, himage,
    fun q m hq hqd => hblock q m hq fun he => hqd (he ▸ hd), fun d' hd' k hk hne =>
      (Mem.entry_write32 (h.mapped.dir_page hd) (h.mapped.dir_page hd') hlt hk).trans (if_neg hne),
    hunused⟩
  rcases List.mem_append.mp hq with hq | hq
  · exact h.live q (List.mem_append_left _ hq)
  rcases List.mem_cons.mp hq with rfl | hq
  · exact ht
  · exact h.live q (List.mem_append_right _ hq)

/-- **Setting a page** in a table that a directory leads to. -/
theorem setPage (h : SpaceInv U s bs dirs tables (a :: free)) (hd : d ∈ dirs) (hi : U i)
    (ht : t ∈ tables) (he : Mem.entry s.ram.byte d i = pageEntry t) (hj : j < 1024)
    (hs' : s' = LoofOS.setPage s t j) :
    (pageOf s.ram.byte d (1024 * i + j) ≠ none ∧ s' = s) ∨
      (SpaceInv U s' bs dirs tables free ∧ Extends U dirs tables tables s s' bs bs ∧
        MapsAnew U dirs s s' d (1024 * i + j) (a + pageOffset) ∧ ∀ d' ∈ dirs, ∀ k < 1024,
          Mem.entry s'.ram.byte d' k = Mem.entry s.ram.byte d' k) := by
  have htp := h.mapped.table_page ht
  have hdiv : (1024 * i + j) / 1024 = i := by omega
  have hmod : (1024 * i + j) % 1024 = j := by omega
  have hold := pageOf_of_table htp (he.symm ▸ hdiv.symm ▸ rfl :
    Mem.entry s.ram.byte d ((1024 * i + j) / 1024) = pageEntry t)
  rw [hmod] at hold
  by_cases hpresent : entryPresent (Mem.entry s.ram.byte t j) = true
  · rw [if_pos hpresent] at hold
    exact Or.inl ⟨by rw [hold]; exact Option.some_ne_none _, hs'.trans (if_pos hpresent)⟩
  · rw [if_neg hpresent] at hold
    obtain ⟨ha, hlt⟩ := h.frame a List.mem_cons_self
    have hhead : s.pageFreelist = a := h.chain.1
    have hphysical : sub32 a kernelBase = a + pageOffset := by
      rw [kernelBase_eq] at hlt
      rw [sub32, kernelBase_eq, pageOffset]
      omega
    have hpte : pte4kib (wrap32 (s.pageFreelist + pageOffset) / 2 ^ 12) = pageEntry a := by
      rw [kernelBase_eq] at hlt
      rw [hhead, pageEntry, hphysical, wrap32_of_lt (by rw [pageOffset]; omega), pte4kib]
    have hset : s' = { s with
        ram := s.ram.write32 (t + 4 * j) (pageEntry a)
        pageFreelist := s.read32 a } := by
      rw [hs', ← hpte, ← hhead]
      exact if_neg hpresent
    subst hset
    obtain ⟨hmapped, hself, hother⟩ := h.mapped.setPage hd hi ht he hj ha hlt rfl
    have hmem : t ∈ dirs ++ tables := List.mem_append_right _ ht
    obtain ⟨himage, hblock⟩ := h.word_outside hmem hj (pageEntry a)
    obtain ⟨hheap, hunused⟩ := h.heap.spared (r := s.ram.write32 (t + 4 * j) (pageEntry a))
      (h.spared_entry hmem hj) (fun x hx => Mem.write32_of_outside hx)
    have hanew : MapsAnew U dirs s { s with
        ram := s.ram.write32 (t + 4 * j) (pageEntry a)
        pageFreelist := s.read32 a } d (1024 * i + j) (a + pageOffset) :=
      ⟨hold, hphysical ▸ hself, hother⟩
    have hdir : ∀ d' ∈ dirs, ∀ k < 1024,
        Mem.entry (s.ram.write32 (t + 4 * j) (pageEntry a)).byte d' k
        = Mem.entry s.ram.byte d' k := by
      intro d' hd' k hk
      refine (Mem.entry_write32 htp (h.mapped.dir_page hd') hj hk).trans (if_neg ?_)
      rintro ⟨rfl, -⟩
      exact h.mapped.not_dir_of_table ht hd'
    refine Or.inr ⟨⟨hheap, hmapped, h.live, ?_, fun b hb => h.frame b (List.mem_cons_of_mem _ hb),
      h.apart.take (hanew.maps_iff hd (hdiv.symm ▸ hi))⟩, ⟨fun _ hx => hx,
      fun t ht hnot => absurd ht hnot, himage, fun p n hp _ hpt => hblock p n hp
      fun he => hpt (he ▸ ht), fun d' hd' k hk _ => hdir d' hd' k hk,
      fun x hx => ⟨hx, hunused x hx⟩, rfl, rfl, rfl⟩, hanew, hdir⟩
    have hchain := h.chain_congr himage
    rw [hhead] at hchain
    have hlink : Mem.read32 (s.ram.write32 (t + 4 * j) (pageEntry a)).byte a = s.read32 a :=
      Mem.read32_congr fun x _ hx => himage x (by have := kernelHeap_above; omega)
    exact hlink ▸ hchain.2

/-! ### `allocate_page` -/

/-- `allocate_page` when a table has to be made. -/
theorem allocatePage_new {addr : ℕ} {r : Ram} (h : SpaceInv U s bs dirs tables (a :: free))
    (hd : d ∈ dirs) (haddr : addr < kernelBase) (hi : U (addr / 2 ^ 22))
    (hnot : entryPresent (Mem.entry s.ram.byte d (addr / 2 ^ 22)) = false)
    (hcall : kernelAllocate s.ram 4096 = some (t, r)) (hne : t ≠ 0)
    (hgrant : Granted ⟨s.ram, s.live⟩ r bs bs' t 4096)
    (hclear : ∀ j < 1024, entryPresent (Mem.entry s.ram.byte t j) = false) :
    ∃ s', LoofOS.allocatePage s d addr = some s' ∧ s'.live = (t, 4096) :: s.live ∧
      SpaceInv U s' bs' dirs (t :: tables) free ∧
      Extends U dirs tables (t :: tables) s s' bs bs' ∧
      MapsAnew U dirs s s' d (addr / 2 ^ 12) (a + pageOffset) ∧
      ∀ d' ∈ dirs, ∀ k < 1024, ¬ (d' = d ∧ k = addr / 2 ^ 22) →
        Mem.entry s'.ram.byte d' k = Mem.entry s.ram.byte d' k := by
  have hlt := h.mapped.index _ hi
  have hn : 1024 * (addr / 2 ^ 22) + addr / 2 ^ 12 % 2 ^ 10 = addr / 2 ^ 12 := by omega
  have hhead : ¬ (kernelBase ≤ s.pageFreelist ∨ kernelBase ≤ addr) := by
    have hfree := (h.frame a List.mem_cons_self).2
    rw [show s.pageFreelist = a from h.chain.1]
    omega
  set s₁ : Kernel := { s with ram := r, live := (t, 4096) :: s.live } with hs₁
  set s₂ := s₁.write32 (d + 4 * (addr / 2 ^ 22)) (pageEntry t) with hs₂
  obtain ⟨h₁, hext, hsame, hfresh⟩ := h.grant hgrant hs₁
  have hentry : ∀ q ∈ dirs, ∀ i < 1024, Mem.entry r.byte q i = Mem.entry s.ram.byte q i :=
    fun q hq i hi => Mem.entry_congr hi fun x => hgrant.kept q 4096 x
      (h.live q (List.mem_append_left _ hq))
  have hclear₁ : ∀ j < 1024, entryPresent (Mem.entry s₁.ram.byte t j) = false := by
    intro j hj
    rw [← hclear j hj, Mem.entry_congr hj fun x hx hx' => (hgrant.payload x hx hx').2]
  obtain ⟨h₂, hsame₂, hself, himage, hblock, hdir, hunused⟩ :=
    h₁.addTable hd hi (by rw [hs₁, hentry d hd _ hlt, hnot]) List.mem_cons_self hfresh hclear₁ hs₂
  have hext₂ : Extends U dirs tables (t :: tables) s s₂ bs bs' := by
    refine ⟨hext.live, fun u hu hnot n hn => ?_, fun x hx => (himage x hx).trans (hext.image x hx),
      fun q n hq hqd hqt x hqx hxq => (hblock q n (hext.live _ hq) hqd x hqx hxq).trans
        (hext.block q n hq hqd hqt x hqx hxq),
      fun d' hd' k hk hU => (hdir d' hd' k hk fun he => hU (he.2 ▸ hi)).trans
        (hext.dir d' hd' k hk hU),
      fun x hx => ⟨(hext.unused x hx).1, (hunused x hx).trans (hext.unused x hx).2⟩, rfl, rfl, rfl⟩
    rcases List.mem_cons.mp hu with rfl | hu
    · exact hgrant.fresh n hn
    · exact hnot hu
  have hstep : LoofOS.allocatePage s d addr
      = some (LoofOS.setPage s₂ t (addr / 2 ^ 12 % 2 ^ 10)) :=
    allocatePage_of_not_present hhead hnot (Kernel.allocate_of_ne hcall hne)
  have hnone : pageOf s₂.ram.byte d (addr / 2 ^ 12) = none := by
    have hdiv : addr / 2 ^ 12 / 1024 = addr / 2 ^ 22 := by omega
    rw [hsame₂ d hd _ (hdiv.symm ▸ hi), hsame d hd _ (hdiv.symm ▸ hi)]
    exact pageOf_of_not_present (hdiv.symm ▸ hnot)
  have hj := tableIndex_lt addr
  refine ⟨_, hstep, setPage_live _ _ _, ?_⟩
  rcases h₂.setPage hd hi List.mem_cons_self hself hj rfl with
    ⟨hmapped, -⟩ | ⟨h₃, hext₃, hanew, hdir₃⟩
  · rw [hn, hnone] at hmapped
    exact absurd rfl hmapped
  · rw [hn] at hanew
    exact ⟨h₃, hext₂.trans hext₃ (fun _ hd => hd) fun _ hd hnot => absurd hd hnot,
      (hsame.trans hsame₂).mapsAnew hd (show U (addr / 2 ^ 12 / 1024) by
        rwa [show addr / 2 ^ 12 / 1024 = addr / 2 ^ 22 by omega]) hanew,
      fun d' hd' k hk hne => (hdir₃ d' hd' k hk).trans <| (hdir d' hd' k hk hne).trans
        (hentry d' hd' k hk)⟩

/-- **`allocate_page`** maps the first frame of the free list, or changes nothing that is mapped. -/
theorem allocatePage {addr : ℕ} (h : SpaceInv U s bs dirs tables free) (hd : d ∈ dirs)
    (hi : addr < kernelBase → U (addr / 2 ^ 22)) (hclear : TableClear s d addr) :
    ∃ s' bs' tables' free', LoofOS.allocatePage s d addr = some s' ∧
      SpaceInv U s' bs' dirs tables' free' ∧ Extends U dirs tables tables' s s' bs bs' ∧
      ((free' = free ∧ SameMaps U dirs s s' ∧
          (free = [] ∨ kernelBase ≤ addr ∨ pageOf s.ram.byte d (addr / 2 ^ 12) ≠ none)) ∨
        (addr < kernelBase ∧ ∃ a, free = a :: free' ∧
          MapsAnew U dirs s s' d (addr / 2 ^ 12) (a + pageOffset))) := by
  by_cases hdeny : kernelBase ≤ s.pageFreelist ∨ kernelBase ≤ addr
  · refine ⟨s, bs, tables, free, if_pos hdeny, h, Extends.refl s,
      Or.inl ⟨rfl, fun _ _ _ _ => rfl, ?_⟩⟩
    exact hdeny.imp h.free_eq_nil Or.inl
  · have hlist : s.pageFreelist < kernelBase := by omega
    have haddr : addr < kernelBase := by omega
    have hi := hi haddr
    have hn : 1024 * (addr / 2 ^ 22) + addr / 2 ^ 12 % 2 ^ 10 = addr / 2 ^ 12 := by omega
    have hj := tableIndex_lt addr
    obtain ⟨a, free, rfl, -⟩ := h.head_lt hlist
    by_cases hpresent : entryPresent (Mem.entry s.ram.byte d (addr / 2 ^ 22)) = true
    · obtain ⟨t, ht, he⟩ := h.mapped.pde d hd _ hi hpresent
      have hstep : LoofOS.allocatePage s d addr
          = some (LoofOS.setPage s t (addr / 2 ^ 12 % 2 ^ 10)) := by
        rw [allocatePage_of_table hdeny hpresent (he ▸ entryPs_pageEntry t), he,
          pointed_pageEntry (h.mapped.table_page ht)]
      rcases h.setPage hd hi ht he hj rfl with
        ⟨hmapped, hsame⟩ | ⟨h', hext, hanew, -⟩
      · rw [hn] at hmapped
        exact ⟨s, bs, tables, a :: free, hstep.trans (congrArg some hsame), h, Extends.refl s,
          Or.inl ⟨rfl, fun _ _ _ _ => rfl, Or.inr (Or.inr hmapped)⟩⟩
      · rw [hn] at hanew
        exact ⟨_, bs, tables, free, hstep, h', hext, Or.inr ⟨haddr, a, rfl, hanew⟩⟩
    · rw [Bool.not_eq_true] at hpresent
      obtain ⟨t, r, _, hcall, -, hgrant⟩ := h.heap.allocate_same h.heap (n := 4096) (by simp)
      obtain ⟨hne, hzero⟩ := hclear hlist haddr hpresent t r hcall
      obtain ⟨hzero', -⟩ | ⟨-, bs', hgrant, -⟩ := hgrant
      · exact absurd hzero' hne
      · obtain ⟨s', hstep, -, h', hext, hanew, -⟩ :=
          h.allocatePage_new hd haddr hi hpresent hcall hne hgrant hzero
        exact ⟨s', bs', t :: tables, free, hstep, h', hext, Or.inr ⟨haddr, a, rfl, hanew⟩⟩

end SpaceInv

end LoofOS
