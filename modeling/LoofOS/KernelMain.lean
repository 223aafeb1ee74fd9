import LoofOS.InterruptController
import LoofOS.KernelBlocks
import LoofOS.KernelScheduler
import LoofOS.MachineFairness

/-!
# `kernel_main`

From the memory that the boot loader leaves to the first process: `kernel_main` puts the tables of
the processor into the image and the heap, starts the interrupt controllers and the page allocator,
creates two processes and enters the first one. What it relies on is that the heap is zero and that
the linker has put its variables apart from one another. No interrupt comes while it runs; what
follows when one comes before the first process is entered is the subject of `Handover`.

`init_paging` calls `set_id` between its loops; as the table is in the heap, the call can as well be
made before (`initPagingGate_eq`).

## Main results

* `Provides.allocate`, `Provides.store`: the heap while `kernel_main` prepares it.
* `kernelMain_serves`: `kernel_main` gets to the first process, and in every run from there the
  processor finds its tables and every line of the controllers its gate.
-/

namespace LoofOS

open Run X86

/-! ### The code -/

/-- `outportb` writes to the port that the low half of its address names. -/
def outportb (addr : ℕ) (b : UInt8) : BitVec 16 × UInt8 := (BitVec.ofNat 16 addr, b)

/-- `PIC_COMMAND1`. -/
def picCommand1 : ℕ := kernelBase + 0x20

/-- `PIC_DATA1`. -/
def picData1 : ℕ := kernelBase + 0x21

/-- `PIC_COMMAND2`. -/
def picCommand2 : ℕ := kernelBase + 0xa0

/-- `PIC_DATA2`. -/
def picData2 : ℕ := kernelBase + 0xa1

/-- `IRQ_OFFSET`. -/
def irqOffset : UInt8 := 0x20

/-- What `init_pic` writes to the ports. -/
def initPic : List (BitVec 16 × UInt8) :=
  [outportb picCommand1 0x11, outportb picCommand2 0x11,
    outportb picData1 irqOffset, outportb picData2 irqOffset,
    outportb picData1 0x04, outportb picData2 2,
    outportb picData1 1, outportb picData2 1,
    outportb picData1 0, outportb picData2 0]

namespace Kernel

/-- `init_idt`, with the block that it gets. -/
def initIdt (k : Kernel) : Option (IdtState × Kernel) :=
  (LoofOS.initIdt k.ram).map fun t =>
    (t, { k with
      ram := t.ram
      live := if t.idt = 0 then k.live else (t.idt, sizeofIdtDesc * idtLimit) :: k.live })

/-- `set_id` with the arguments that all its calls have in common. -/
def setId (k : Kernel) (t : IdtState) (idtPos : UInt8) (offset : Word) : Kernel :=
  { k with ram := (LoofOS.setId { t with ram := k.ram } idtPos offset 0x08 0xe 0 1).ram }

/-- `init_paging`, with its call of `set_id`. -/
def initPagingGate (kernelMemory : ℕ) (t : IdtState) (offset : Word) (k : Kernel) : Kernel :=
  let r := k.ram.writeEntries kernelMemory (fun _ => 0) 1024
  let r := r.writeEntries kernelMemory (fun i => pde4mib 0 (i + 256)) 768
  let r := r.writeEntries (kernelMemory + 4 * 768) (fun i => pde4mib 1 i) 256
  let k := { k with ram := r }
  let k := k.setId t 14 offset
  let k := k.enablePaging (sub32 kernelMemory kernelBase)
  { k with ram := linkFrames k.ram (kernelBase / 4096), pageFreelist := 0 }

end Kernel

/-- Where the linker puts what `kernel_main` uses. -/
structure Layout where
  image : Image
  gdt : ℕ
  timerHandlerWrapper : Word
  pagefaultHandlerWrapper : Word

/-- The tables before `init_gdt`. -/
def Layout.gdtState (l : Layout) (r : Ram) : GdtState := ⟨r.byte, l.gdt, l.image.tss, 0, 0⟩

/-- The machine when `kernel_main` has entered the first process, with the tables that `load_gdt`
and `load_idt` have loaded and the interrupt controllers. -/
structure Started where
  machine : Machine
  gdtrSize : ℕ
  gdtrOffset : ℕ
  idtrSize : ℕ
  idtrOffset : ℕ
  pics : Pics

/-- `kernel_main`. -/
def kernelMain (l : Layout) (pics : Pics) (r : Ram) : Option Started := do
  -- `init_gdt` and `load_gdt`
  let g := initGdt (l.gdtState r)
  let r ← initKernelHeap { r with byte := g.byte }
  -- the test values
  let test1 ← (bootKernel r).allocate 4
  let test2 ← test1.2.allocate 4
  let k := (test2.2.write32 test1.1 0x11223344).write32 test2.1 0xabcdef12
  let table ← k.initIdt
  -- `init_timer`, `init_pic` and `load_idt`
  let k := table.2.setId table.1 irqOffset l.timerHandlerWrapper
  let pics := pics.outAll initPic
  let k := k.initPagingGate l.image.kernelMemory table.1 l.pagefaultHandlerWrapper
  -- `init_processes`, then the rest
  let m ← exec l.image.step ⟨k.initProcesses, false, fun _ => .created default⟩ kernelMainOps
  pure ⟨m, g.gdtrSize, g.gdtrOffset, table.1.idtrSize, table.1.idtrOffset, pics⟩

/-! ### Writes to the heap -/

variable {r : Ram} {live : List (ℕ × ℕ)} {k k' : Kernel} {p n a i : ℕ} {bytes : List UInt8}

/-- Storing no byte changes nothing. -/
theorem storeBytes_nil (m : Mem) (a : ℕ) : storeBytes m a [] = m := by
  funext x
  rw [storeBytes, List.getD_nil, ite_self]

/-- Bytes are stored one after the other. -/
theorem storeBytes_cons (m : Mem) (a : ℕ) (b : UInt8) (bytes : List UInt8) :
    storeBytes m a (b :: bytes) = storeBytes (m.store a b) (a + 1) bytes := by
  funext x
  rcases Nat.lt_trichotomy x a with hlt | rfl | hgt
  · rw [storeBytes_of_out _ (Or.inl hlt), storeBytes_of_out _ (Or.inl (by omega)),
      Mem.store_of_ne b (by omega)]
  · rw [storeBytes_of_out _ (Or.inl (Nat.lt_succ_self x)), Mem.store_self, storeBytes,
      if_pos (le_refl x), Nat.sub_self, List.getD_cons_zero]
  · have hsub : x - a = x - (a + 1) + 1 := by omega
    rw [storeBytes, storeBytes, if_pos hgt.le, if_pos (Nat.succ_le_of_lt hgt), hsub,
      List.getD_cons_succ, Mem.store_of_ne b (by omega)]

/-- A word is its four bytes, the lowest first. -/
theorem write32_eq_storeBytes (m : Mem) (a w : ℕ) : m.write32 a w = storeBytes m a
    [UInt8.ofNat w, UInt8.ofNat (w / 2 ^ 8), UInt8.ofNat (w / 2 ^ 16),
      UInt8.ofNat (w / 2 ^ 24)] := by
  funext x
  by_cases hout : x < a ∨ a + 4 ≤ x
  · rw [Mem.write32_of_outside hout, storeBytes_of_out _ hout]
  · obtain ⟨j, hj, rfl⟩ : ∃ j, j < 4 ∧ x = a + j := ⟨x - a, by omega, by omega⟩
    rw [storeBytes_mem _ hj]
    obtain rfl | rfl | rfl | rfl : j = 0 ∨ j = 1 ∨ j = 2 ∨ j = 3 := by omega
    all_goals simp [Mem.write32]

/-- One more operation. -/
theorem HeapReached.concat {u v : HeapState} {op : HeapOp} (h : HeapReached u) (hop : NoWrap u op)
    (hstep : heapStep u op = some v) : HeapReached v := by
  obtain ⟨r₀, r₁, ops, hzero, hinit, hmeets, hexec⟩ := h
  refine ⟨r₀, r₁, ops ++ [op], hzero, hinit, meets_append.mpr ⟨hmeets, fun t ht => ?_⟩,
    exec_concat hexec hstep⟩
  obtain rfl := Option.some.inj (hexec.symm.trans ht)
  exact ⟨hop, fun _ _ => trivial⟩

/-- **The heap in use**: what is stored in a payload. -/
theorem HeapReached.store (h : HeapReached ⟨r, live⟩) (hp : (p, n) ∈ live)
    (hi : i + bytes.length ≤ n) :
    HeapReached ⟨{ r with byte := storeBytes r.byte (p + i) bytes }, live⟩ := by
  induction bytes generalizing r i with
  | nil =>
      rw [storeBytes_nil]
      exact h
  | cons b bytes ih =>
      rw [List.length_cons] at hi
      have hone : HeapReached ⟨r.store (p + i) b, live⟩ := by
        have hwrap : NoWrap ⟨r, live⟩ (.write p i b) := trivial
        refine h.concat hwrap ?_
        rw [heapStep, if_pos]
        refine List.any_eq_true.mpr ⟨(p, n), hp, ?_⟩
        rw [Bool.and_eq_true, beq_self_eq_true, decide_eq_true_eq]
        exact ⟨rfl, by omega⟩
      rw [storeBytes_cons]
      exact ih (i := i + 1) hone (by omega)

/-- A call of `kernel_allocate` leads to a heap in reach. -/
theorem HeapReached.allocate (h : HeapReached ⟨k.ram, k.live⟩) (hn : n + 1 < 2 ^ 32)
    (hcall : k.allocate n = some (p, k')) : HeapReached ⟨k'.ram, k'.live⟩ := by
  obtain ⟨x, hx, he⟩ := Option.map_eq_some_iff.mp hcall
  obtain ⟨rfl, rfl⟩ := Prod.mk.inj he
  have hstep : heapStep ⟨k.ram, k.live⟩ (.allocate n)
      = some ⟨x.2, if x.1 = 0 then k.live else (x.1, n) :: k.live⟩ := by
    rw [heapStep, if_pos (by omega)]
    simp only [hx, Option.map_some]
  have hwrap : NoWrap ⟨k.ram, k.live⟩ (.allocate n) := hn
  exact h.concat hwrap hstep

/-! ### Preparing the heap -/

variable {below : Mem} {bs bs' : List Block} {sizes : List ℕ} {t : IdtState}

/-- A clean heap that grants requests of these sizes, one after the other, over an image; there is
no process. -/
structure Provides (below : Mem) (k : Kernel) (bs : List Block) (sizes : List ℕ) : Prop where
  reached : HeapReached ⟨k.ram, k.live⟩
  heap : HeapInv ⟨k.ram, k.live⟩ bs
  clean : Clean bs k.ram.byte
  small : ∀ n ∈ sizes, n + 1 < 2 ^ 31
  blocks : ∃ blocks, allocateAll k.ram sizes = some blocks ∧ 0 ∉ blocks
  processes : k.processes = []
  currentProcess : k.currentProcess = 0
  image : ∀ x, x < kernelHeap.start → k.ram.byte x = below x

namespace Provides

/-- A kernel whose heap provides for the requests has booted. -/
theorem booted (h : Provides below k bs sizes) : Booted k :=
  ⟨h.reached, h.processes, h.currentProcess⟩

/-- **The next request** is granted, with a block of zeros. -/
theorem allocate (h : Provides below k bs (n :: sizes)) : ∃ p k' bs', k.allocate n = some (p, k') ∧
    p ≠ 0 ∧ k'.live = (p, n) :: k.live ∧ Provides below k' bs' sizes ∧
    ∀ x, p ≤ x → x < p + n → k'.ram.byte x = 0 := by
  have hn := h.small n List.mem_cons_self
  obtain ⟨blocks, hblocks, hgranted⟩ := h.blocks
  obtain ⟨⟨p, r⟩, hcall, hrest⟩ := Option.bind_eq_some_iff.mp hblocks
  obtain ⟨blocks, htail, rfl⟩ := Option.map_eq_some_iff.mp hrest
  obtain ⟨hp, hgranted⟩ := not_or.mp (mt List.mem_cons.mpr hgranted)
  obtain ⟨q, r₁, r₂, hcall', -, hgrant⟩ := h.heap.allocate_same h.heap hn
  obtain ⟨rfl, rfl⟩ := Prod.mk.inj (Option.some.inj (hcall.symm.trans hcall'))
  obtain ⟨hzero, -⟩ | ⟨hne, bs', hgrant, -⟩ := hgrant
  · exact absurd hzero.symm hp
  have hallocate : k.allocate n = some (p, { k with ram := r, live := (p, n) :: k.live }) := by
    rw [Kernel.allocate, hcall, Option.map_some]
    simp only [if_neg hne]
  have hreached := h.reached.allocate (show n + 1 < 2 ^ 32 by omega) hallocate
  refine ⟨p, _, bs', hallocate, hne, rfl, ⟨hreached, hgrant.heap, fun x hx => ?_,
    fun m hm => h.small m (List.mem_cons_of_mem _ hm), ⟨blocks, htail, hgranted⟩, h.processes,
    h.currentProcess, fun x hx => (hgrant.outside x (Or.inl hx)).trans (h.image x hx)⟩,
    fun x hx hx' => ?_⟩
  · obtain ⟨hfree, hsame⟩ := hgrant.free x hx
    exact hsame.trans (h.clean x hfree)
  · obtain ⟨hfree, hsame⟩ := hgrant.payload x hx hx'
    exact hsame.trans (h.clean x hfree)

/-- **Bytes are stored** in a block. -/
theorem store (h : Provides below k bs sizes) (hp : (p, n) ∈ k.live) (hi : i + bytes.length ≤ n) :
    Provides below { k with ram := { k.ram with byte := storeBytes k.ram.byte (p + i) bytes } } bs
      sizes := by
  have hspared : Spared k.live (p + i) (p + i + bytes.length) :=
    Or.inl ⟨p, n, hp, Nat.le_add_right p i, by omega⟩
  obtain ⟨hheap, hsame⟩ := h.heap.spared
    (r := { k.ram with byte := storeBytes k.ram.byte (p + i) bytes }) hspared
    fun x hx => storeBytes_of_out _ hx
  obtain ⟨blocks, hblocks, hgranted⟩ := h.blocks
  refine ⟨h.reached.store hp hi, hheap, fun x hx => (hsame x hx).trans (h.clean x hx), h.small,
    ⟨blocks, ?_, hgranted⟩, h.processes, h.currentProcess, fun x hx => ?_⟩
  · rw [hheap.allocateAll_eq h.heap h.small]
    exact hblocks
  · have hstart := (h.heap.live_bounds hp).1
    exact (storeBytes_of_out _ (Or.inl (by omega))).trans (h.image x hx)

/-- A word is stored. -/
theorem write32 (h : Provides below k bs sizes) (hp : (p, 4) ∈ k.live) (w : ℕ) :
    Provides below (k.write32 p w) bs sizes := by
  have hlen : 0 + [UInt8.ofNat w, UInt8.ofNat (w / 2 ^ 8), UInt8.ofNat (w / 2 ^ 16),
      UInt8.ofNat (w / 2 ^ 24)].length ≤ 4 := le_refl 4
  have hstore := h.store hp hlen
  rw [Nat.add_zero, ← write32_eq_storeBytes] at hstore
  exact hstore

/-- A gate is set. -/
theorem setId (h : Provides below k bs sizes) (ht : (t.idt, sizeofIdtDesc * idtLimit) ∈ k.live)
    (idtPos : UInt8) (offset : Word) : Provides below (k.setId t idtPos offset) bs sizes := by
  have hlt := idtPos.toNat_lt
  have hsize : sizeofIdtDesc * idtLimit = 2048 := rfl
  exact h.store ht (show sizeofIdtDesc * idtPos.toNat + 8 ≤ _ by rw [hsize, sizeofIdtDesc]; omega)

end Provides

/-! ### The tables -/

/-- `init_idt` allocates the table and points the register at it. -/
theorem Kernel.initIdt_eq (k : Kernel) : k.initIdt = (k.allocate (sizeofIdtDesc * idtLimit)).map
    fun x => (⟨x.2.ram, x.1, sizeofIdtDesc * idtLimit - 1, x.1⟩, x.2) := by
  rw [Kernel.initIdt, LoofOS.initIdt, Kernel.allocate, Option.map_map, Option.map_map]
  rfl

/-- Bytes beside an array may as well be stored before it is filled. -/
theorem storeBytes_writeEntries {array : ℕ} {entry : ℕ → ℕ} (h : array + 4 * n ≤ a) :
    { r.writeEntries array entry n with
        byte := storeBytes (r.writeEntries array entry n).byte a bytes }
      = Ram.writeEntries { r with byte := storeBytes r.byte a bytes } array entry n := by
  induction n with
  | zero => rfl
  | succ n ih =>
      have hword : array + 4 * n + 4 ≤ a := by omega
      rw [Ram.writeEntries, Ram.writeEntries, ← ih (by omega)]
      refine congrArg (Ram.mk · _) (funext fun x => ?_)
      simp only [Ram.write32]
      by_cases hx : x < array + 4 * n ∨ array + 4 * n + 4 ≤ x
      · rw [Mem.write32_of_outside hx, storeBytes, storeBytes, Mem.write32_of_outside hx]
      · rw [storeBytes_of_out _ (Or.inl (by omega))]
        simp only [Mem.write32]
        rw [storeBytes_of_out _ (Or.inl (by omega))]

/-- **The call of `set_id`** can as well be made before `init_paging`. -/
theorem initPagingGate_eq {kernelMemory : ℕ} (hplace : KernelPlace kernelMemory)
    (ht : kernelHeap.start < t.idt) (offset : Word) :
    k.initPagingGate kernelMemory t offset = initPaging kernelMemory (k.setId t 14 offset) := by
  have hbelow := hplace.below
  have hafter : ∀ array n, array + 4 * n ≤ kernelMemory + 4096 →
      array + 4 * n ≤ t.idt + sizeofIdtDesc * (14 : UInt8).toNat := fun array n h => by omega
  rw [Kernel.initPagingGate, initPaging]
  simp only [Kernel.setId, LoofOS.setId, Kernel.enablePaging]
  rw [storeBytes_writeEntries (hafter _ 256 (by omega)),
    storeBytes_writeEntries (hafter _ 768 (by omega)),
    storeBytes_writeEntries (hafter _ 1024 (by omega))]

/-- The gate that `set_id` makes of an address. -/
def interruptGate (offset : Word) : Gate := ⟨offset.toNat, 0x08, 0xe, 0, 0, 1⟩

/-- A gate that is not present. -/
def noGate : Gate := ⟨0, 0, 0, 0, 0, 0⟩

/-- The gates of the kernel: those of the timer and of page faults, and no others. -/
def Layout.gates (l : Layout) (v : UInt8) : Gate :=
  if v = irqOffset then interruptGate l.timerHandlerWrapper
  else if v = 14 then interruptGate l.pagefaultHandlerWrapper
  else noGate

/-- The calls of `set_id`. -/
def gateCall (idtPos : UInt8) (offset : Word) : SetIdCall where
  idtPos := idtPos
  offset := offset
  selector := 0x08
  type := 0xe
  dpl := 0
  present := 1
  type_lt := by decide
  dpl_lt := by decide
  present_lt := by decide

/-- **The gates after both calls**, in a block of zeros. -/
theorem gates_setId (l : Layout)
    (hzero : ∀ x, t.idt ≤ x → x < t.idt + sizeofIdtDesc * idtLimit → k.ram.byte x = 0) (v : UInt8) :
    decodeGate ((k.setId t irqOffset l.timerHandlerWrapper).setId t 14
      l.pagefaultHandlerWrapper).ram.byte (t.idt + 8 * v.toNat) = l.gates v := by
  set c := gateCall irqOffset l.timerHandlerWrapper with hc
  set c' := gateCall 14 l.pagefaultHandlerWrapper with hc'
  set u : IdtState := { t with ram := k.ram, idtrOffset := t.idt } with hu
  have hsize : sizeofIdtDesc * idtLimit = 2048 := rfl
  have hv := v.toNat_lt
  have hblank : u.gate v = noGate := by
    have hcongr : decodeGate k.ram.byte (t.idt + 8 * v.toNat)
        = decodeGate (fun _ => 0) (t.idt + 8 * v.toNat) :=
      decodeGate_congr fun i hi => hzero _ (by omega) (by omega)
    exact hcongr.trans (by simp [decodeGate, Mem.read16, noGate])
  have hrun := gate_run (t := u) rfl [c, c'] v
  rw [hblank] at hrun
  refine (show _ = ([c, c'].foldl SetIdCall.perform u).gate v from rfl).trans (hrun.trans ?_)
  have hlast : lastCall v [c, c']
      = if v = 14 then some c' else if v = irqOffset then some c else none := by
    by_cases h : v = 14
    · subst h
      rfl
    · simp only [lastCall, hc, hc', gateCall, if_neg h, Option.or_none, Option.none_or, eq_comm]
  rw [hlast, Layout.gates]
  by_cases h : v = 14
  · subst h
    rfl
  · rw [if_neg h, if_neg h]
    by_cases h' : v = irqOffset
    · rw [if_pos h', if_pos h']
      rfl
    · rw [if_neg h', if_neg h']
      rfl

/-! ### The interrupt controllers -/

/-- **What `init_pic` does**: both controllers begin at `IRQ_OFFSET`, whatever they did before, and
no line is masked. So each line of the second one has the vector of a line of the first one. -/
theorem line_initPic (pics : Pics) {n : ℕ} (hn : n < 16) :
    (pics.outAll initPic).line n = some (irqOffset + UInt8.ofNat (n % 8)) := by
  have hmaster : (pics.outAll initPic).master = ⟨irqOffset, 0, []⟩ := rfl
  have hslave : (pics.outAll initPic).slave = ⟨irqOffset, 0, []⟩ := rfl
  rw [Pics.line_of_unmasked (by rw [hmaster]) (by rw [hslave]), hmaster, hslave]
  split
  next hlt => rw [Nat.mod_eq_of_lt hlt]
  next hge => rw [Nat.mod_eq_sub_mod (Nat.le_of_not_lt hge), Nat.mod_eq_of_lt (by omega)]

/-- Of the vectors of the lines only the first one has a gate. -/
theorem Layout.gates_line (l : Layout) (n : ℕ) : l.gates (irqOffset + UInt8.ofNat (n % 8))
    = if n % 8 = 0 then interruptGate l.timerHandlerWrapper else noGate := by
  have hn : n % 8 < 8 := Nat.mod_lt _ (Nat.zero_lt_succ 7)
  generalize n % 8 = i at hn
  obtain rfl | rfl | rfl | rfl | rfl | rfl | rfl | rfl :
    i = 0 ∨ i = 1 ∨ i = 2 ∨ i = 3 ∨ i = 4 ∨ i = 5 ∨ i = 6 ∨ i = 7 := by omega
  all_goals rfl

/-! ### Every run -/

/-- What the processor and the controllers find: the segments and the TSS, the gates, and for each
line its vector, which has a gate only if it is the first line of a controller. -/
structure Layout.Serves (l : Layout) (s : Started) (m : Machine) : Prop where
  tables : TablesAt m.kernel.ram.byte s.gdtrOffset l.image.tss
  gates : ∀ v : UInt8, decodeGate m.kernel.ram.byte (s.idtrOffset + 8 * v.toNat) = l.gates v
  line : ∀ n < 16, ∃ v, s.pics.line n = some v ∧
    decodeGate m.kernel.ram.byte (s.idtrOffset + 8 * v.toNat)
      = if n % 8 = 0 then interruptGate l.timerHandlerWrapper else noGate

/-- What `kernel_main` requests from the heap. -/
def kernelRequests : List ℕ := 4 :: 4 :: sizeofIdtDesc * idtLimit :: requests 2

/-- The boot heap grants every request that `kernel_main` makes. -/
theorem kernelRequests_granted : ∃ blocks, allocateAll bootRam kernelRequests = some blocks ∧
    0 ∉ blocks := by
  have hany : (allocateAll bootRam kernelRequests).any (fun blocks => decide (0 ∉ blocks))
      = true := by
    decide +kernel
  obtain ⟨blocks, hblocks, hgranted⟩ := (Option.any_eq_true _ _).mp hany
  exact ⟨blocks, hblocks, of_decide_eq_true hgranted⟩

/-- The heap after `init_kernel_heap` provides for all of it. -/
theorem provides_bootKernel (hboot : Booted (bootKernel r)) (hheap : HeapInv ⟨r, []⟩ [⟨29, false⟩])
    (hclean : Clean [⟨29, false⟩] r.byte) :
    Provides r.byte (bootKernel r) [⟨29, false⟩] kernelRequests := by
  have hsmall : ∀ n ∈ kernelRequests, n + 1 < 2 ^ 31 := by
    rw [kernelRequests, List.forall_mem_cons, List.forall_mem_cons, List.forall_mem_cons]
    exact ⟨by simp, by simp, by simp [sizeofIdtDesc, idtLimit], requests_small 2⟩
  obtain ⟨blocks, hblocks, hgranted⟩ := kernelRequests_granted
  rw [heapInv_bootRam.allocateAll_eq hheap hsmall] at hblocks
  exact ⟨hboot.heap, hheap, hclean, hsmall, ⟨blocks, hblocks, hgranted⟩, hboot.processes,
    hboot.currentProcess, fun _ _ => rfl⟩

/-- **The test values and the interrupt descriptor table** get their blocks. -/
theorem Provides.prepare (h : Provides below k bs (4 :: 4 :: sizeofIdtDesc * idtLimit :: sizes)) :
    ∃ test1 k₁ test2 k₂ t k₃ bs', k.allocate 4 = some (test1, k₁) ∧
      k₁.allocate 4 = some (test2, k₂) ∧
      ((k₂.write32 test1 0x11223344).write32 test2 0xabcdef12).initIdt = some (t, k₃) ∧
      t.idtrSize = 2047 ∧ t.idtrOffset = t.idt ∧ (t.idt, sizeofIdtDesc * idtLimit) ∈ k₃.live ∧
      Provides below k₃ bs' sizes ∧
      ∀ x, t.idt ≤ x → x < t.idt + sizeofIdtDesc * idtLimit → k₃.ram.byte x = 0 := by
  obtain ⟨test1, k₁, bs₁, hcall₁, -, hlive₁, h₁, -⟩ := h.allocate
  obtain ⟨test2, k₂, bs₂, hcall₂, -, hlive₂, h₂, -⟩ := h₁.allocate
  have hmem₁ : (test1, 4) ∈ k₂.live := by
    rw [hlive₂, hlive₁]
    exact List.mem_cons_of_mem _ List.mem_cons_self
  have hmem₂ : (test2, 4) ∈ k₂.live := by
    rw [hlive₂]
    exact List.mem_cons_self
  have htests := (h₂.write32 hmem₁ 0x11223344).write32 hmem₂ 0xabcdef12
  obtain ⟨idt, k₃, bs₃, hcall₃, -, hlive₃, h₃, hzero⟩ := htests.allocate
  refine ⟨test1, k₁, test2, k₂, ⟨k₃.ram, idt, 2047, idt⟩, k₃, bs₃, hcall₁, hcall₂, ?_, rfl, rfl, ?_,
    h₃, hzero⟩
  · rw [Kernel.initIdt_eq, hcall₃]
    rfl
  · rw [hlive₃]
    exact List.mem_cons_self

/-- `init_processes` after booting. -/
theorem Kernel.initProcesses_eq (h : k.currentProcess = 0) : k.initProcesses = k := by
  rw [Kernel.initProcesses, ← h]

/-- What `kernel_main` returns when its calls do. -/
theorem kernelMain_eq {l : Layout} {pics : Pics} {r' : Ram} {test1 test2 : ℕ} {k₁ k₂ k₃ : Kernel}
    {m : Machine}
    (hinit : initKernelHeap { r with byte := (initGdt (l.gdtState r)).byte } = some r')
    (hcall₁ : (bootKernel r').allocate 4 = some (test1, k₁))
    (hcall₂ : k₁.allocate 4 = some (test2, k₂))
    (hcall₃ : ((k₂.write32 test1 0x11223344).write32 test2 0xabcdef12).initIdt = some (t, k₃))
    (hrun : exec l.image.step ⟨((k₃.setId t irqOffset l.timerHandlerWrapper).initPagingGate
      l.image.kernelMemory t l.pagefaultHandlerWrapper).initProcesses, false,
      fun _ => .created default⟩ kernelMainOps = some m) :
    kernelMain l pics r = some ⟨m, (initGdt (l.gdtState r)).gdtrSize,
      (initGdt (l.gdtState r)).gdtrOffset, t.idtrSize, t.idtrOffset, pics.outAll initPic⟩ := by
  refine Option.bind_eq_some_iff.mpr ⟨r', hinit, ?_⟩
  refine Option.bind_eq_some_iff.mpr ⟨_, hcall₁, ?_⟩
  refine Option.bind_eq_some_iff.mpr ⟨_, hcall₂, ?_⟩
  refine Option.bind_eq_some_iff.mpr ⟨_, hcall₃, ?_⟩
  exact Option.bind_eq_some_iff.mpr ⟨_, hrun, rfl⟩
/-- Tables that are in memory before `init_paging` are found in every run. -/
theorem Layout.serves_of_reaches {l : Layout} {s : Started} {pics : Pics} {m : Machine}
    {ops : List MachineOp} (hplace : l.image.Places (l.gdtState r)) (hboot : Booted k)
    (hwritten : (l.gdtState r).Written k)
    (hlive : (s.idtrOffset, sizeofIdtDesc * idtLimit) ∈ k.live)
    (hgates : ∀ v : UInt8, decodeGate k.ram.byte (s.idtrOffset + 8 * v.toNat) = l.gates v)
    (hgdtr : s.gdtrOffset = l.gdt) (hpics : s.pics = pics.outAll initPic)
    (h : l.image.Reaches k ops m) : l.Serves s m := by
  have hserved : ∀ v : UInt8,
      decodeGate m.kernel.ram.byte (s.idtrOffset + 8 * v.toNat) = l.gates v :=
    fun v => (gates_kept hboot h hlive v).trans (hgates v)
  refine ⟨hgdtr ▸ tablesAt_reached hboot hplace hwritten h, hserved, fun n hn => ?_⟩
  rw [hpics]
  exact ⟨_, line_initPic pics hn, (hserved _).trans (l.gates_line n)⟩

/-- **`kernel_main`**, on any memory that is zero from the heap on, gets to the first of two
processes; and in every run from there the processor finds its tables, and an interrupt on a line of
the controllers its gate. -/
theorem kernelMain_serves (l : Layout) (pics : Pics) (hplace : l.image.Places (l.gdtState r))
    (hclean : ∀ x, kernelHeap.start ≤ x → r.byte x = 0) :
    ∃ s, kernelMain l pics r = some s ∧ s.machine.kernel.processes.length = 2 ∧
      ∀ ops m, Meets l.image.step l.image.Allows s.machine ops →
        exec l.image.step s.machine ops = some m → l.Serves s m := by
  obtain ⟨r', hinit, hboot, hheap, hclean', hwritten⟩ := @gdt_boots _ _ r hplace hclean
  obtain ⟨test1, k₁, test2, k₂, t, k₃, bs, hcall₁, hcall₂, hcall₃, -, hoffset, hlive, h, hzero⟩ :=
    (provides_bootKernel hboot hheap hclean').prepare
  have hpaging := @initPagingGate_eq (k₃.setId t irqOffset l.timerHandlerWrapper) t
    l.image.kernelMemory l.image.place (h.heap.live_bounds hlive).1 l.pagefaultHandlerWrapper
  have hgates := gates_setId l hzero
  have hready := (h.setId hlive irqOffset l.timerHandlerWrapper).setId hlive 14
    l.pagefaultHandlerWrapper
  have hlive' : (t.idt, sizeofIdtDesc * idtLimit) ∈ ((k₃.setId t irqOffset
    l.timerHandlerWrapper).setId t 14 l.pagefaultHandlerWrapper).live := hlive
  -- the kernel before `init_paging`
  generalize (k₃.setId t irqOffset l.timerHandlerWrapper).setId t 14 l.pagefaultHandlerWrapper = k
    at hpaging hgates hready hlive'
  have hwritten' : (l.gdtState r).Written k := fun x hx => by
    have hstack := l.image.stack.trans_lt bootStackTop_below
    have hgdt := hplace.below
    have htss := hplace.tssBelow
    refine (hready.image x ?_).trans (hwritten x hx)
    rw [hplace.tss] at hx
    omega
  -- both processes are created, and the first one is entered
  obtain ⟨blocks, hblocks, hgranted⟩ := hready.blocks
  obtain ⟨u, -, -, -, -, hreaches, -, henter, hlen, -⟩ :=
    boot_runs l.image hready.booted hready.heap hready.clean hblocks hgranted
  have hentered := hreaches.concat henter rfl
  have hrun := hentered.run
  rw [Image.boot, ← Kernel.initProcesses_eq (k := initPaging l.image.kernelMemory k)
    hready.currentProcess, ← hpaging] at hrun
  refine ⟨_, kernelMain_eq hinit hcall₁ hcall₂ hcall₃ hrun, hlen, fun ops m hops hexec => ?_⟩
  rw [← hoffset] at hgates hlive'
  exact Layout.serves_of_reaches hplace hready.booted hwritten' hlive' hgates rfl rfl
    (hentered.append hops hexec)

/-- The image with tables at 3 MiB. -/
def sampleLayout : Layout where
  image := sampleImage
  gdt := 0xc0300000
  timerHandlerWrapper := 0xc0100100
  pagefaultHandlerWrapper := 0xc0100200

/-- Controllers that the firmware has left at other vectors, the first one without its timer. -/
def samplePics : Pics := ⟨⟨8, 1, []⟩, ⟨0x70, 0xff, []⟩⟩

/-- `kernel_main` on memory of zeros. -/
theorem kernelMain_serves_zeroRam : ∃ s, kernelMain sampleLayout samplePics zeroRam = some s ∧
    s.machine.kernel.processes.length = 2 ∧ sampleLayout.Serves s s.machine := by
  obtain ⟨s, hs, htwo, hserves⟩ :=
    @kernelMain_serves zeroRam sampleLayout samplePics places_sampleGdt fun _ _ => rfl
  exact ⟨s, hs, htwo, hserves [] s.machine trivial (exec_nil _)⟩

end LoofOS
