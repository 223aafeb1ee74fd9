import LoofOS.Isolation
import LoofOS.KernelCreate
import LoofOS.SavedContext

/-!
# The Kernel and its Processes

The machine on which processes run: the memory of the kernel, the page directory that is loaded, and
the calls and interrupts that change them. A process may store any byte anywhere; whether the store
takes place is decided by the page directory that is loaded and nothing else. When an interrupt
comes in user mode, the processor and the handler push onto the stack that the TSS gives, which is
modelled as stores of any bytes there.

What `kernel_main` and the functions that it calls keep on their stack is not modelled; they may
store anything there, at any time. The bits that the processor itself sets in page table entries
(accessed, dirty) and in segment descriptors (accessed) are left out: nothing in the kernel reads
them.

`Quiet` is what the steps leave alone that create no process: the page tables, the free list, the
links of the descriptors, and the memory that the heap has not handed out.

## Main results

* `SpacesInv.quiet_writes`: writes to memory that is of no concern to the page allocator.
* `SpacesInv.quiet_image`: writes to the variables of the kernel.
-/

namespace LoofOS

open LinkedRing Run

/-! ### The machine -/

/-- Where `kernel_jump` puts `esp`: the top of the stack that `kernel_main` runs on. -/
def bootStackTop : ℕ := 0xcffffffc

/-- Where the linker puts `kernel_memory` and the TSS, and how far down `kernel_main` uses its
stack. -/
structure Image where
  kernelMemory : ℕ
  tss : ℕ
  bootStack : ℕ
  place : KernelPlace kernelMemory
  above : kernelBase ≤ tss
  below : tss + 8 ≤ bootStack
  apart : tss + 8 ≤ kernelMemory ∨ kernelMemory + 4096 ≤ tss
  memoryBelow : kernelMemory + 4096 ≤ bootStack
  stack : bootStack ≤ bootStackTop

/-- The boot stack ends below the heap. -/
theorem bootStackTop_below : bootStackTop < kernelHeap.start := by decide

/-- The saved `esp0` lies below the heap. -/
theorem Image.tss_below (img : Image) : img.tss + 8 ≤ kernelHeap.start :=
  (img.below.trans img.stack).trans bootStackTop_below.le

/-- An image with `kernel_memory` at 1 MiB, the TSS at 2 MiB and a stack of 64 KiB. -/
def sampleImage : Image where
  kernelMemory := 0xc0100000
  tss := 0xc0200000
  bootStack := 0xcfff0000
  place := kernelPlace_image
  above := by decide
  below := by decide
  apart := by decide
  memoryBelow := by decide
  stack := by decide

/-- The kernel, the flag that `enable_switching` sets, and for every process where its context comes
from; no function reads the last one. -/
structure Machine where
  kernel : Kernel
  switching : Bool
  captured : History

/-- What happens: calls of the functions of the kernel, timer interrupts with the registers that
they find, stores by the process on the CPU, pushes onto the stack that the TSS gives, and stores to
the stack of `kernel_main`. -/
inductive MachineOp
  | createProcess (eip : ℕ)
  | enableSwitching
  | forceEnterUserland
  | timer (c : Context)
  | updateProcess (state : UInt8)
  | userStore (addr : Word) (b : UInt8)
  | kernelPush (addr : ℕ) (b : UInt8)
  | bootPush (addr : ℕ) (b : UInt8)

/-- A byte is stored in user mode; `none` is a page fault. -/
def Kernel.userStore (s : Kernel) (addr : ℕ) (b : UInt8) : Option Kernel :=
  (translate s.ram.byte (s.cr3.headD 0) addr).bind fun t =>
    if t.rw && t.us then some { s with ram := s.ram.store (wrap32 (t.physical + kernelBase)) b }
    else none

/-- A program's store leaves the list of processes alone. -/
theorem Kernel.userStore_processes {s s' : Kernel} {addr : ℕ} {b : UInt8}
    (h : s.userStore addr b = some s') : s'.processes = s.processes := by
  obtain ⟨t, -, hif⟩ := Option.bind_eq_some_iff.mp h
  split at hif
  · rw [← Option.some.inj hif]
  · cases hif

/-- A program's store leaves `cr3` alone. -/
theorem Kernel.userStore_cr3 {s s' : Kernel} {addr : ℕ} {b : UInt8}
    (h : s.userStore addr b = some s') : s'.cr3 = s.cr3 := by
  obtain ⟨t, -, hif⟩ := Option.bind_eq_some_iff.mp h
  split at hif
  · rw [← Option.some.inj hif]
  · cases hif

/-- What is pushed is stored in the kernel half. -/
def Kernel.push (s : Kernel) (addr : ℕ) (b : UInt8) : Kernel := { s with ram := s.ram.store addr b }

/-- A timer interrupt captures the current process if it switches at all and the process is
running. -/
def Machine.record (m : Machine) (c : Context) : History :=
  let current := m.kernel.currentProcess
  if m.switching = true ∧ current ≠ 0 ∧ m.kernel.nextOf current ≠ current ∧
      m.kernel.stateOf current = 0 then
    Function.update m.captured (BitVec.ofNat 32 current) (.interrupted c)
  else m.captured

/-- One step. -/
def Image.step (img : Image) (m : Machine) : MachineOp → Option Machine
  | .createProcess eip => (m.kernel.createProcess img.kernelMemory eip).map fun k =>
      { m with
        kernel := k
        captured := Function.update m.captured (BitVec.ofNat 32 (k.descriptors.headD 0))
          (.created (initialContext (BitVec.ofNat 32 eip))) }
  | .enableSwitching => some { m with switching := true }
  | .forceEnterUserland => some { m with kernel := m.kernel.forceEnterUserland img.tss }
  | .timer c => (m.kernel.timerHandler img.tss m.switching c).map fun r =>
      { m with
        kernel := r.2.elim r.1 r.1.switchContext
        captured := m.record c }
  | .updateProcess state => some { m with kernel := m.kernel.updateProcess state }
  | .userStore addr b => (m.kernel.userStore addr.toNat b).map fun k => { m with kernel := k }
  | .kernelPush addr b => some { m with kernel := m.kernel.push addr b }
  | .bootPush addr b => some { m with kernel := m.kernel.push addr b }

/-- The state after `init_processes`. -/
def Image.boot (img : Image) (k : Kernel) : Machine where
  kernel := initPaging img.kernelMemory k
  switching := false
  captured _ := .created default

/-- The order of the calls in `kernel_main`, and what the kernel relies on: the blocks that
`create_process` gets are fresh; `update_process` is called by a process, which does not end; and
pushes stay within the page below the top of the stack, or within the stack of `kernel_main`. -/
def Image.Allows (img : Image) (m : Machine) : MachineOp → Prop
  | .createProcess eip => m.switching = false ∧ FreshBlocks m.kernel (.createProcess eip)
  | .forceEnterUserland => m.switching = true ∧ m.kernel.currentProcess ≠ 0
  | .updateProcess state => m.kernel.currentProcess ≠ 0 ∧ (state = 0 ∨ state = 1)
  | .kernelPush addr _ => m.kernel.cr3.headD 0 ≠ sub32 img.kernelMemory kernelBase ∧
      m.kernel.read32 (img.tss + 4) ≤ addr + 4092 ∧ addr < m.kernel.read32 (img.tss + 4)
  | .bootPush addr _ => img.bootStack ≤ addr ∧ addr < bootStackTop
  | _ => True

/-- A run after booting, in which every step is one that is allowed. -/
structure Image.Reaches (img : Image) (k : Kernel) (ops : List MachineOp) (m : Machine) : Prop where
  allowed : Meets img.step img.Allows (img.boot k) ops
  run : exec img.step (img.boot k) ops = some m

/-- One more step. -/
theorem Image.Reaches.concat {img : Image} {k : Kernel} {ops : List MachineOp} {op : MachineOp}
    {m m' : Machine} (h : img.Reaches k ops m) (hop : img.Allows m op)
    (hstep : img.step m op = some m') : img.Reaches k (ops ++ [op]) m' := by
  refine ⟨meets_append.mpr ⟨h.allowed, fun u hu => ?_⟩, exec_concat h.run hstep⟩
  obtain rfl := Option.some.inj (h.run.symm.trans hu)
  exact ⟨hop, fun _ _ => trivial⟩

/-- A run that continues another one. -/
theorem Image.Reaches.append {img : Image} {k : Kernel} {ops ops' : List MachineOp} {m m' : Machine}
    (h : img.Reaches k ops m) (hops : Meets img.step img.Allows m ops')
    (hrun : exec img.step m ops' = some m') : img.Reaches k (ops ++ ops') m' := by
  refine ⟨meets_append.mpr ⟨h.allowed, fun u hu => ?_⟩, ?_⟩
  · obtain rfl := Option.some.inj (h.run.symm.trans hu)
    exact hops
  · rw [exec_append, h.run, Option.bind_some, hrun]

/-- The directory of a listed process is among the directories. -/
theorem Kernel.mem_directories {k : Kernel} {x : ℕ × ℕ} (hx : x ∈ k.processes) :
    x.2 ∈ k.directories := List.mem_map.mpr ⟨x, hx, rfl⟩

/-- The descriptor of a listed process is among the descriptors. -/
theorem Kernel.mem_descriptors {k : Kernel} {x : ℕ × ℕ} (hx : x ∈ k.processes) :
    x.1 ∈ k.descriptors := List.mem_map.mpr ⟨x, hx, rfl⟩

/-! ### Quiet steps -/

/-- No process is created, no page is mapped, and nothing is allocated. -/
structure Quiet (U : ℕ → Prop) (kernelMemory : ℕ) (bs : List Block) (tables free : List ℕ)
    (k k' : Kernel) : Prop where
  spaces : SpacesInv U kernelMemory k' bs tables free
  live : k'.live = k.live
  processes : k'.processes = k.processes
  entry : ∀ p ∈ k.directories ++ tables, ∀ i < 1024,
    Mem.entry k'.ram.byte p i = Mem.entry k.ram.byte p i
  unused : ∀ x, FreeByte bs x → k'.ram.byte x = k.ram.byte x

variable {U : ℕ → Prop} {kernelMemory : ℕ} {k k' k'' : Kernel} {bs : List Block}
  {tables free : List ℕ} {r : Ram}

namespace Quiet

/-- The step that does nothing is quiet. -/
theorem refl (h : SpacesInv U kernelMemory k bs tables free) :
    Quiet U kernelMemory bs tables free k k :=
  ⟨h, rfl, rfl, fun _ _ _ _ => rfl, fun _ _ => rfl⟩

/-- A quiet step keeps the directories. -/
theorem directories (h : Quiet U kernelMemory bs tables free k k') :
    k'.directories = k.directories := congrArg (List.map Prod.snd) h.processes

/-- A quiet step keeps the descriptors. -/
theorem descriptors (h : Quiet U kernelMemory bs tables free k k') :
    k'.descriptors = k.descriptors := congrArg (List.map Prod.fst) h.processes

/-- Quiet steps compose. -/
theorem trans (h : Quiet U kernelMemory bs tables free k k')
    (h' : Quiet U kernelMemory bs tables free k' k'') :
    Quiet U kernelMemory bs tables free k k'' where
  spaces := h'.spaces
  live := h'.live.trans h.live
  processes := h'.processes.trans h.processes
  entry p hp i hi := (h'.entry p (h.directories ▸ hp) i hi).trans (h.entry p hp i hi)
  unused x hx := (h'.unused x hx).trans (h.unused x hx)

/-- The same pages are mapped. -/
theorem pageOf (h : Quiet U kernelMemory bs tables free k k')
    (hk : SpacesInv U kernelMemory k bs tables free) {d n : ℕ} (hd : d ∈ k.directories)
    (hn : U (n / 1024)) : pageOf k'.ram.byte d n = pageOf k.ram.byte d n :=
  hk.space.mapped.pageOf_congr h.entry hd hn

/-- Page directories translate addresses as before. -/
theorem translate (h : Quiet U kernelMemory bs tables free k k')
    (hk : SpacesInv U kernelMemory k bs tables free) {d addr : ℕ} (hd : d ∈ k.directories)
    (hU : addr < kernelBase → U (addr / 2 ^ 22)) (haddr : addr < 2 ^ 32) :
    translate k'.ram.byte (sub32 d kernelBase) addr
      = translate k.ram.byte (sub32 d kernelBase) addr := by
  have hd' : d ∈ k'.directories := h.directories ▸ hd
  by_cases hlow : addr < kernelBase
  · have hdiv : addr / 2 ^ 12 / 1024 = addr / 2 ^ 22 := by omega
    rw [h.spaces.space.mapped.translate_eq hd' (hU hlow), hk.space.mapped.translate_eq hd (hU hlow),
      h.pageOf hk hd (hdiv.symm ▸ hU hlow)]
  · have hle := Nat.le_of_not_lt hlow
    rw [translate_kernel (h.spaces.space.mapped.dir_page hd') (h.spaces.half d hd') hle haddr,
      translate_kernel (hk.space.mapped.dir_page hd) (hk.half d hd) hle haddr]

end Quiet

/-! ### Writes -/

/-- **The variables of the kernel** lie between `KERNEL_BASE` and the heap; the page allocator looks
at none of them but `page_freelist`. -/
theorem SpaceInv.image {dirs : List ℕ} (h : SpaceInv U k bs dirs tables free)
    (hsame : ∀ x, x < kernelBase ∨ kernelHeap.start ≤ x → r.byte x = k.ram.byte x) :
    SpaceInv U { k with ram := r } bs dirs tables free ∧
      (∀ p ∈ dirs ++ tables, ∀ i < 1024, Mem.entry r.byte p i = Mem.entry k.ram.byte p i) ∧
      ∀ x, FreeByte bs x → r.byte x = k.ram.byte x := by
  have habove := kernelHeap_above
  obtain ⟨hheap, hunused⟩ := h.heap.congr_payloads (r := r) fun x hstart _ _ =>
    hsame x (Or.inr hstart)
  have hentry : ∀ p ∈ dirs ++ tables, ∀ i < 1024,
      Mem.entry r.byte p i = Mem.entry k.ram.byte p i := fun p hp i hi =>
    Mem.entry_congr hi fun x hx _ =>
      hsame x (Or.inr ((h.heap.live_bounds (h.live p hp)).1.le.trans hx))
  have hchain : LinkedChain.Chain r.byte.read32 k.pageFreelist free kernelBase := by
    refine h.chain.congr fun a ha => Mem.read32_congr fun x _ hx => hsame x (Or.inl ?_)
    obtain ⟨hpage, hlt⟩ := h.frame a ha
    have hdvd := hpage.dvd
    rw [kernelBase_eq] at hlt ⊢
    omega
  exact ⟨⟨hheap, h.mapped.congr hentry, h.live, hchain, h.frame,
    h.apart.congr (SameMaps.maps_iff fun d hd n hn => h.mapped.pageOf_congr hentry hd hn)⟩, hentry,
    hunused⟩

/-- Descriptors that keep their links, and page directories that keep their entries. -/
theorem SpacesInv.of_space (h : SpacesInv U kernelMemory k bs tables free)
    (hspace : SpaceInv U { k with ram := r } bs k.directories tables free)
    (hentry : ∀ p ∈ k.directories ++ tables, ∀ i < 1024,
      Mem.entry r.byte p i = Mem.entry k.ram.byte p i)
    (himage : ∀ x, kernelMemory ≤ x → x < kernelMemory + 4096 → r.byte x = k.ram.byte x)
    (hlink : ∀ q ∈ k.descriptors, ∀ x, q + pageDirectoryOffset ≤ x → x < q + stateOffset →
      r.byte x = k.ram.byte x) :
    SpacesInv U kernelMemory { k with ram := r } bs tables free := by
  have hmapped : ∀ i < 1024,
      Mem.entry r.byte kernelMemory i = Mem.entry k.ram.byte kernelMemory i :=
    fun i hi => Mem.entry_congr hi himage
  have hoffset : pageDirectoryOffset = 72 ∧ prevOffset = 76 ∧ stateOffset = 84 := ⟨rfl, rfl, rfl⟩
  refine ⟨hspace, ⟨fun i hi => (hmapped i (by omega)).trans (h.kernel.user i hi),
    fun i hi => (hmapped (i + 768) (by omega)).trans (h.kernel.kernel i hi)⟩,
    fun d hd i hi => (hentry d (List.mem_append_left _ hd) _ (by omega)).trans (h.half d hd i hi),
    h.descriptor, fun x hx => ?_, h.queue.congr rfl fun q hq => ?_⟩
  · refine (Mem.read32_congr fun y hy hy' => ?_).trans (h.directory x hx)
    exact hlink x.1 (Kernel.mem_descriptors hx) y hy (by omega)
  · exact Mem.read32_congr fun y hy hy' => hlink q hq y (by omega) (by omega)

/-- **Harmless writes**, which spare the links of the descriptors. -/
theorem SpacesInv.quiet_writes (h : SpacesInv U kernelMemory k bs tables free)
    (hplace : KernelPlace kernelMemory)
    (hsame : ∀ x, ¬ SpaceInv.Harmless k.live k.directories tables free x →
      r.byte x = k.ram.byte x)
    (hlink : ∀ q ∈ k.descriptors, ∀ x, q + pageDirectoryOffset ≤ x → x < q + stateOffset →
      r.byte x = k.ram.byte x) : Quiet U kernelMemory bs tables free k { k with ram := r } := by
  obtain ⟨hspace, hentry, hunused⟩ := h.space.harmless hsame
  refine ⟨h.of_space hspace hentry (fun x hx hx' => hsame x ?_) hlink, rfl, rfl, hentry, hunused⟩
  have habove := hplace.above
  have hbelow := hplace.below
  rintro (⟨q, n, hq, -, hqx, -⟩ | ⟨hlt, -⟩)
  · have hstart := (h.space.heap.live_bounds hq).1
    omega
  · omega

/-- **Writes to a variable of the kernel.** -/
theorem SpacesInv.quiet_image (h : SpacesInv U kernelMemory k bs tables free)
    (hsame : ∀ x, x < kernelBase ∨ kernelHeap.start ≤ x → r.byte x = k.ram.byte x)
    (himage : ∀ x, kernelMemory ≤ x → x < kernelMemory + 4096 → r.byte x = k.ram.byte x) :
    Quiet U kernelMemory bs tables free k { k with ram := r } := by
  obtain ⟨hspace, hentry, hunused⟩ := h.space.image hsame
  refine ⟨h.of_space hspace hentry himage fun q hq x hx _ => hsame x (Or.inr ?_), rfl, rfl, hentry,
    hunused⟩
  have hbounds := (h.space.heap.live_bounds (h.descriptor_not_page hq).1).1
  omega

/-- Another process becomes the current one. -/
theorem SpacesInv.quiet_current (h : SpacesInv U kernelMemory k bs tables free) {p : ℕ}
    (hp : p ∈ k.descriptors) :
    Quiet U kernelMemory bs tables free k { k with currentProcess := p } := by
  refine ⟨⟨h.space.of_same rfl rfl rfl, h.kernel, h.half, h.descriptor, h.directory,
    ⟨h.queue.apart, h.queue.lt, h.queue.prev, Or.inr hp⟩⟩, rfl, rfl, fun _ _ _ _ => rfl,
    fun _ _ => rfl⟩

/-- Another page directory is loaded. -/
theorem SpacesInv.quiet_enablePaging (h : SpacesInv U kernelMemory k bs tables free) (a : ℕ) :
    Quiet U kernelMemory bs tables free k (k.enablePaging a) :=
  ⟨⟨h.space.enablePaging a, h.kernel, h.half, h.descriptor, h.directory,
    h.queue.congr rfl fun _ _ => rfl⟩, rfl, rfl, fun _ _ _ _ => rfl, fun _ _ => rfl⟩

/-- **`set_tss_stack`.** -/
theorem SpacesInv.quiet_setTssStack {img : Image}
    (h : SpacesInv U img.kernelMemory k bs tables free) (esp0 : ℕ) :
    Quiet U img.kernelMemory bs tables free k (k.setTssStack img.tss esp0) := by
  have habove := img.above
  have hbelow := img.tss_below
  have happart := img.apart
  refine h.quiet_image (fun x hx => Mem.write32_of_outside ?_)
    fun x hx hx' => Mem.write32_of_outside ?_
  · omega
  · omega

/-- **A store to the stack of `kernel_main`.** -/
theorem SpacesInv.quiet_bootPush {img : Image} {addr : ℕ}
    (h : SpacesInv U img.kernelMemory k bs tables free) (hlow : img.bootStack ≤ addr)
    (hhigh : addr < bootStackTop) (b : UInt8) :
    Quiet U img.kernelMemory bs tables free k (k.push addr b) := by
  have habove := img.above
  have hbelow := img.below
  have hmemory := img.memoryBelow
  have htop := bootStackTop_below
  exact h.quiet_image (fun x hx => Mem.store_of_ne b (by omega))
    fun x hx hx' => Mem.store_of_ne b (by omega)

/-- **Writes to the register sets or the state of a descriptor.** -/
theorem SpacesInv.quiet_descriptor (h : SpacesInv U kernelMemory k bs tables free)
    (hplace : KernelPlace kernelMemory) {q lo hi : ℕ} (hq : q ∈ k.descriptors)
    (halters : Alters lo hi k k') (hlo : q ≤ lo) (hhi : hi ≤ q + processDescSize)
    (hout : hi ≤ q + pageDirectoryOffset ∨ q + stateOffset ≤ lo) :
    Quiet U kernelMemory bs tables free k k' := by
  obtain ⟨hlive, hnot⟩ := h.descriptor_not_page hq
  have hsize : processDescSize = 85 := rfl
  have hoffset : pageDirectoryOffset = 72 ∧ stateOffset = 84 := ⟨rfl, rfl⟩
  rw [halters.only]
  refine h.quiet_writes hplace (fun x hx => halters.outside x ?_)
    fun q' hq' x hx hx' => halters.outside x ?_
  · by_contra hin
    exact hx (Or.inl ⟨q, processDescSize, hlive, hnot, by omega, by omega⟩)
  · by_cases he : q' = q
    · rw [he] at hx hx'
      omega
    · have happart := h.queue.apart q' hq' q hq he
      omega

end LoofOS
