import LoofOS.HeapRun

/-!
# Paging

The functions of `arch/x86/mm/paging.c`, and `create_process` of `kernel/proc/process.c` with
what it does to memory.

While `kernel_memory` is the page directory, as it is whenever the kernel runs these functions,
every 32-bit address `a` of the kernel is the physical address `a - KERNEL_BASE` (modulo `2 ^ 32`).
Memory is indexed by these addresses; `readPhysical` reads it as the processor does when it walks a
page directory (`translate`).
`Kernel` carries three lists that the code does not have: the live results of `kernel_allocate`, the
descriptors that `create_process` has put into the queue, with their page directories, and the
values that were loaded into `cr3`. No function reads them, but `cr3` itself is the head of its
list.
-/

namespace LoofOS

/-! ### Entries -/

/-- `PAGE_OFFSET`. -/
def pageOffset : ℕ := 0x40000000

/-- The bit `present` of an entry. -/
def entryPresent (w : ℕ) : Bool := decide (w % 2 = 1)

/-- The bit `rw`. -/
def entryRw (w : ℕ) : Bool := decide (w / 2 % 2 = 1)

/-- The bit `us`. -/
def entryUs (w : ℕ) : Bool := decide (w / 4 % 2 = 1)

/-- The bit `ps` of an entry of a page directory. -/
def entryPs (w : ℕ) : Bool := decide (w / 128 % 2 = 1)

/-- The field `addr` of `pde_4kib` and `pte_4kib`. -/
def entryAddr (w : ℕ) : ℕ := w / 2 ^ 12

/-- The `pde_4mib` with `present`, `rw` and `ps`, and the given `g` and `lowaddr`. -/
def pde4mib (g lowaddr : ℕ) : ℕ := 0x83 + 2 ^ 8 * g + 2 ^ 22 * lowaddr

/-- The `pde_4kib` with `present`, `rw` and `us`, and the given `addr`. -/
def pde4kib (addr : ℕ) : ℕ := 0x7 + 2 ^ 12 * addr

/-- The `pte_4kib` with `present`, `rw` and `us`, and the given `addr`. -/
def pte4kib (addr : ℕ) : ℕ := 0x7 + 2 ^ 12 * addr

/-! ### Address translation -/

/-- Where an address is mapped to, and what is allowed there. -/
structure Access where
  physical : ℕ
  rw : Bool
  us : Bool
  deriving DecidableEq, Repr

/-- The word at a physical address. -/
def readPhysical (m : Mem) (a : ℕ) : ℕ := m.read32 (wrap32 (a + kernelBase))

/-- The translation of a linear address, `none` when an entry is not present. -/
def translate (m : Mem) (cr3 addr : ℕ) : Option Access :=
  let pde := readPhysical m (cr3 / 2 ^ 12 * 2 ^ 12 + 4 * (addr / 2 ^ 22))
  if entryPresent pde then
    if entryPs pde then
      some {
        physical := pde / 2 ^ 22 * 2 ^ 22 + addr % 2 ^ 22 + 2 ^ 32 * (pde / 2 ^ 13 % 2 ^ 8)
        rw := entryRw pde
        us := entryUs pde }
    else
      let pte := readPhysical m (entryAddr pde * 2 ^ 12 + 4 * (addr / 2 ^ 12 % 2 ^ 10))
      if entryPresent pte then
        some {
          physical := entryAddr pte * 2 ^ 12 + addr % 2 ^ 12
          rw := entryRw pde && entryRw pte
          us := entryUs pde && entryUs pte }
      else none
  else none

/-! ### The state of the kernel -/

/-- A word is stored. -/
def Ram.write32 (r : Ram) (a w : ℕ) : Ram := { r with byte := r.byte.write32 a w }

/-- The entries number `0, ..., n - 1` of an array are assigned, in this order. -/
def Ram.writeEntries (r : Ram) (array : ℕ) (entry : ℕ → ℕ) : ℕ → Ram
  | 0 => r
  | n + 1 => (r.writeEntries array entry n).write32 (array + 4 * n) (entry n)

/-- Memory, `page_freelist`, `current_process`, and the three lists. -/
structure Kernel where
  ram : Ram
  pageFreelist : ℕ
  currentProcess : ℕ
  live : List (ℕ × ℕ)
  processes : List (ℕ × ℕ)
  cr3 : List ℕ

namespace Kernel

/-- The word at an address. -/
def read32 (s : Kernel) (a : ℕ) : ℕ := s.ram.byte.read32 a

/-- A word is stored. -/
def write32 (s : Kernel) (a w : ℕ) : Kernel := { s with ram := s.ram.write32 a w }

/-- A call of `kernel_allocate`. -/
def allocate (s : Kernel) (n : ℕ) : Option (ℕ × Kernel) :=
  (kernelAllocate s.ram n).map fun x =>
    (x.1, { s with
      ram := x.2
      live := if x.1 = 0 then s.live else (x.1, n) :: s.live })

/-- `enable_paging`, as far as it changes the page directory. -/
def enablePaging (s : Kernel) (directory : ℕ) : Kernel := { s with cr3 := directory :: s.cr3 }

end Kernel

/-! ### `paging.c` -/

/-- The loop of `init_paging` that sets up the free list. -/
def linkFrames (r : Ram) : ℕ → Ram
  | 0 => r
  | n + 1 => (linkFrames r n).write32 (4096 * n) (4096 * n + 4096)

/-- `init_paging`, with the address of `kernel_memory`. -/
def initPaging (kernelMemory : ℕ) (s : Kernel) : Kernel :=
  let r := s.ram.writeEntries kernelMemory (fun _ => 0) 1024
  let r := r.writeEntries kernelMemory (fun i => pde4mib 0 (i + 256)) 768
  let r := r.writeEntries (kernelMemory + 4 * 768) (fun i => pde4mib 1 i) 256
  let s := { s with ram := r }.enablePaging (sub32 kernelMemory kernelBase)
  { s with ram := linkFrames s.ram (kernelBase / 4096), pageFreelist := 0 }

/-- The last part of `allocate_page`: a page is popped and put into the table. -/
def setPage (s : Kernel) (pageTable tableIndex : ℕ) : Kernel :=
  if entryPresent (s.read32 (pageTable + 4 * tableIndex)) then s
  else
    let availablePage := wrap32 (s.pageFreelist + pageOffset)
    let s := { s with pageFreelist := s.read32 s.pageFreelist }
    s.write32 (pageTable + 4 * tableIndex) (pte4kib (availablePage / 2 ^ 12))

/-- `allocate_page`. -/
def allocatePage (s : Kernel) (pageDir addr : ℕ) : Option Kernel :=
  if kernelBase ≤ s.pageFreelist ∨ kernelBase ≤ addr then some s
  else
    let dirIndex := addr / 2 ^ 22
    let tableIndex := addr / 2 ^ 12 % 2 ^ 10
    let pde := s.read32 (pageDir + 4 * dirIndex)
    if entryPresent pde then
      if entryPs pde then some s
      else some (setPage s (wrap32 (entryAddr pde * 2 ^ 12 + kernelBase)) tableIndex)
    else
      (s.allocate 4096).map fun x =>
        let pageTable := x.1
        let s := x.2.write32 (pageDir + 4 * dirIndex)
          (pde4kib (sub32 pageTable kernelBase / 2 ^ 12))
        setPage s pageTable tableIndex

/-- `free_page`. -/
def freePage (s : Kernel) (pageDir addr : ℕ) : Kernel :=
  let dirIndex := addr / 2 ^ 22
  let tableIndex := addr / 2 ^ 12 % 2 ^ 10
  let pde := s.read32 (pageDir + 4 * dirIndex)
  if entryPresent pde then
    let pageTable := sub32 (entryAddr pde * 2 ^ 12) kernelBase
    let pte := s.read32 (pageTable + 4 * tableIndex)
    if entryPresent pte then
      let freedPage := sub32 (entryAddr pte * 2 ^ 12) pageOffset
      let s := s.write32 freedPage s.pageFreelist
      let s := { s with pageFreelist := freedPage }
      s.write32 (pageTable + 4 * tableIndex) 0
    else s
  else s

/-! ### `create_process` -/

/-- `sizeof(process_desc)`. -/
def processDescSize : ℕ := 85

/-- The offsets of the fields of `process_desc` that are assigned first, with their values. -/
def initialFields (eip : ℕ) : List (ℕ × ℕ) :=
  let codeSegment := 0x18 ||| 3
  let dataSegment := 0x20 ||| 3
  let esp := kernelBase - 4
  [(0, eip), (4, codeSegment), (8, 2 ^ 9), (12, esp), (16, dataSegment),
    (52, dataSegment), (56, dataSegment), (60, dataSegment), (64, dataSegment),
    (20, 0), (24, 0), (28, esp), (32, 0), (36, 0), (40, 0), (44, 0), (48, 0)]

/-- The offset of `esp0`. -/
def esp0Offset : ℕ := 68

/-- The offset of `page_directory`. -/
def pageDirectoryOffset : ℕ := 72

/-- The offset of `prev`. -/
def prevOffset : ℕ := 76

/-- The offset of `next`. -/
def nextOffset : ℕ := 80

/-- The offset of `state`. -/
def stateOffset : ℕ := 84

/-- Fields of the descriptor at `p` are assigned. -/
def writeFields (s : Kernel) (p : ℕ) : List (ℕ × ℕ) → Kernel
  | [] => s
  | (offset, w) :: fields => writeFields (s.write32 (p + offset) w) p fields

/-- The kernel half of `kernel_memory` is copied to a page directory, `n` entries of it. -/
def copyKernelHalf (s : Kernel) (kernelMemory directory : ℕ) : ℕ → Kernel
  | 0 => s
  | n + 1 =>
      let s := copyKernelHalf s kernelMemory directory n
      s.write32 (directory + 4 * (n + 768)) (s.read32 (kernelMemory + 4 * (n + 768)))

/-- A byte is written to a linear address, in the address space that `cr3` gives; `none` is a
page fault. -/
def writeLinear (s : Kernel) (addr : ℕ) (b : UInt8) : Option Kernel :=
  (translate s.ram.byte (s.cr3.headD 0) addr).map fun t =>
    { s with ram := s.ram.store (wrap32 (t.physical + kernelBase)) b }

/-- The program that `create_process` writes to the first page: a jump to itself. -/
def writeProgram (s : Kernel) : Option Kernel := do
  let s ← writeLinear s 0 0xe9
  let s ← writeLinear s 1 0xfb
  let s ← writeLinear s 2 0xff
  let s ← writeLinear s 3 0xff
  writeLinear s 4 0xff

/-- The last part of `create_process`: the descriptor is put into the queue. -/
def queueProcess (s : Kernel) (p : ℕ) : Kernel :=
  if s.currentProcess = 0 then
    let s := { s with currentProcess := p }
    let s := s.write32 (s.currentProcess + nextOffset) p
    s.write32 (s.currentProcess + prevOffset) p
  else
    let s := s.write32 (p + nextOffset) s.currentProcess
    let s := s.write32 (p + prevOffset) (s.read32 (s.currentProcess + prevOffset))
    let s := s.write32 (s.read32 (s.currentProcess + prevOffset) + nextOffset) p
    s.write32 (s.currentProcess + prevOffset) p

/-- `create_process`, with the address of `kernel_memory`. -/
def Kernel.createProcess (kernelMemory : ℕ) (s : Kernel) (eip : ℕ) : Option Kernel := do
  let (p, s) ← s.allocate processDescSize
  let s := writeFields s p (initialFields eip)
  let (stack, s) ← s.allocate 4096
  let s := s.write32 (p + esp0Offset) (wrap32 (stack + 4092))
  let (directory, s) ← s.allocate 4096
  let s := s.write32 (p + pageDirectoryOffset) directory
  let s := copyKernelHalf s kernelMemory directory 256
  let s ← allocatePage s directory (kernelBase - 4096)
  let s ← allocatePage s directory 0
  let s ← writeProgram (s.enablePaging (sub32 directory kernelBase))
  let s := s.enablePaging (sub32 kernelMemory kernelBase)
  let s := { s with ram := s.ram.store (p + stateOffset) 0 }
  let s := queueProcess s p
  pure { s with processes := (p, directory) :: s.processes }

end LoofOS
