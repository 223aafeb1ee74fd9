import LoofOS.Loop
import LoofOS.Memory

/-!
# The Kernel Heap Allocator

The functions of `arch/x86/mm/alloc.c` on a byte memory. A heap is a range of memory in
which one header byte (seven bits of block size as a binary logarithm, one bit "used")
stands in front of every block; the next header is found by adding `2 ^ size`.

Addresses are natural numbers; arithmetic on `uint32_t` and on pointers is reduced
modulo `2 ^ 32` where the source computes it. Shift counts are taken modulo 32, which is
what the x86 shift and bit-complement instructions do with the variable counts of this
file (the C standard leaves counts from 32 on undefined).

Every loop is a `Loop.iter` with a fuel that no terminating run of it exceeds, so a
function returns `none` exactly where the C function does not return.

`Ram` carries, beside the bytes, the list of addresses at which the allocator has
written a header. No function reads it; it is there to say which headers the allocator
wrote.
-/

namespace LoofOS

/-- `presets.h`: the first address of the kernel half of every address space. -/
def kernelBase : ℕ := 0xc0000000

/-- Reduction to 32 bits. -/
def wrap32 (x : ℕ) : ℕ := x % 2 ^ 32

/-- Subtraction of 32-bit values. -/
def sub32 (a b : ℕ) : ℕ := (a + 2 ^ 32 - b) % 2 ^ 32

/-- `1 << n` on 32-bit values. -/
def bit32 (n : ℕ) : ℕ := 2 ^ (n % 32)

theorem bit32_of_lt {n : ℕ} (h : n < 32) : bit32 n = 2 ^ n := by
  rw [bit32, Nat.mod_eq_of_lt h]

theorem wrap32_of_lt {x : ℕ} (h : x < 2 ^ 32) : wrap32 x = x := Nat.mod_eq_of_lt h

theorem sub32_of_le {a b : ℕ} (h : b ≤ a) (ha : a < 2 ^ 32) : sub32 a b = a - b := by
  simp only [sub32]
  omega

/-! ### Memory with header bytes -/

/-- The memory the kernel runs on, with the addresses of the header bytes the allocator
has written (most recent first). -/
structure Ram where
  byte : Mem
  stamped : List ℕ := []

/-- `heap_header`: `uint8_t size:7; uint8_t used:1`. -/
structure Block where
  size : ℕ
  used : Bool
  deriving DecidableEq, Repr

namespace Ram

/-- `((heap_header*)a)->size`. -/
def size (r : Ram) (a : ℕ) : ℕ := (r.byte a).toNat % 128

/-- `((heap_header*)a)->used`. -/
def used (r : Ram) (a : ℕ) : Bool := decide (128 ≤ (r.byte a).toNat)

/-- The whole header at `a`. -/
def header (r : Ram) (a : ℕ) : Block := ⟨r.size a, r.used a⟩

/-- `((heap_header*)a)->size = n`; the bit field keeps seven bits. -/
def setSize (r : Ram) (a n : ℕ) : Ram where
  byte := r.byte.store a (UInt8.ofNat (n % 128 + if r.used a then 128 else 0))
  stamped := a :: r.stamped

/-- `((heap_header*)a)->used = u`. -/
def setUsed (r : Ram) (a : ℕ) (u : Bool) : Ram where
  byte := r.byte.store a (UInt8.ofNat (r.size a + if u then 128 else 0))
  stamped := a :: r.stamped

/-- A byte written by somebody else than the allocator. -/
def store (r : Ram) (a : ℕ) (b : UInt8) : Ram := { r with byte := r.byte.store a b }

theorem size_lt (r : Ram) (a : ℕ) : r.size a < 128 := Nat.mod_lt _ (by simp)

@[simp] theorem size_setSize_self (r : Ram) (a n : ℕ) : (r.setSize a n).size a = n % 128 := by
  simp only [setSize, size, Mem.store_self, UInt8.toNat_ofNat']
  split <;> omega

@[simp] theorem used_setSize_self (r : Ram) (a n : ℕ) : (r.setSize a n).used a = r.used a := by
  have h := UInt8.toNat_lt (r.byte a)
  simp only [setSize, used, Mem.store_self, UInt8.toNat_ofNat', decide_eq_true_eq]
  split <;> simp only [decide_eq_decide] <;> omega

@[simp] theorem size_setUsed_self (r : Ram) (a : ℕ) (u : Bool) :
    (r.setUsed a u).size a = r.size a := by
  have h := r.size_lt a
  simp only [setUsed, size, Mem.store_self, UInt8.toNat_ofNat'] at h ⊢
  split <;> omega

@[simp] theorem used_setUsed_self (r : Ram) (a : ℕ) (u : Bool) :
    (r.setUsed a u).used a = u := by
  have h := r.size_lt a
  cases u <;> simp [setUsed, used] <;> omega

theorem byte_setSize_of_ne {r : Ram} {a x : ℕ} (n : ℕ) (h : x ≠ a) :
    (r.setSize a n).byte x = r.byte x :=
  Mem.store_of_ne _ h

theorem byte_setUsed_of_ne {r : Ram} {a x : ℕ} (u : Bool) (h : x ≠ a) :
    (r.setUsed a u).byte x = r.byte x :=
  Mem.store_of_ne _ h

@[simp] theorem stamped_setSize (r : Ram) (a n : ℕ) :
    (r.setSize a n).stamped = a :: r.stamped := rfl

@[simp] theorem stamped_setUsed (r : Ram) (a : ℕ) (u : Bool) :
    (r.setUsed a u).stamped = a :: r.stamped := rfl

/-- A header depends on its byte only. -/
theorem header_congr {r r' : Ram} {a : ℕ} (h : r.byte a = r'.byte a) :
    r.header a = r'.header a := by
  simp only [header, size, used, h]

end Ram

/-! ### `alloc.c` -/

/-- `heap_spec`. The source calls the last address `end`; it is inclusive. -/
structure HeapSpec where
  start : ℕ
  last : ℕ
  deriving DecidableEq, Repr

/-- `MIN_BLOCK_SIZE`, the binary logarithm of the smallest block. -/
def minBlockSize : ℕ := 3

/-- `kernel_heap`. -/
def kernelHeap : HeapSpec where
  start := kernelBase + 0x10000000 - 1
  last := kernelBase + 0x30000000 - 1

theorem kernelHeap_start : kernelHeap.start = 0xcfffffff := rfl

theorem kernelHeap_last : kernelHeap.last = 0xefffffff := rfl

/-- `split_block`. -/
def splitBlock (r : Ram) (block : ℕ) : Ram :=
  let newSize := sub32 (r.size block) 1
  let newBuddy := wrap32 (block + bit32 newSize)
  ((r.setSize newBuddy newSize).setUsed newBuddy false).setSize block newSize

/-- The buddy that `coalesce_block` computes for the block at `block`, whose size is
`size`: the offset into the heap with the bit of the size flipped. -/
def buddyOf (offset block size : ℕ) : ℕ :=
  wrap32 ((sub32 block offset ^^^ bit32 size) + offset)

/-- One round of the loop of `coalesce_block`. -/
def coalesceBody (offset : ℕ) : Ram × ℕ → (Ram × ℕ) ⊕ Ram
  | (r, block1) =>
      let block2 := buddyOf offset block1 (r.size block1)
      if !r.used block2 && r.size block2 == r.size block1 then
        if block1 < block2 then
          Sum.inl (r.setSize block1 (r.size block1 + 1), block1)
        else
          Sum.inl (r.setSize block2 (r.size block2 + 1), block2)
      else
        Sum.inr r

/-- `coalesce_block`. Between two moves to a lower address the loop makes at most 32
rounds, which the fuel allows for every address. -/
def coalesceBlock (r : Ram) (block offset : ℕ) : Option Ram :=
  Loop.iter (coalesceBody offset) (33 * 2 ^ 32) (r, block)

/-- One round of `while ((size >> ++block_size) != 0)`. -/
def roundBody (size blockSize : ℕ) : ℕ ⊕ ℕ :=
  if size / bit32 (blockSize + 1) ≠ 0 then Sum.inl (blockSize + 1)
  else Sum.inr (blockSize + 1)

/-- `round_block_size`. The condition of the loop only depends on `block_size` modulo 32,
so a loop that is not left in the first 32 rounds never is. -/
def roundBlockSize (size : ℕ) : Option ℕ :=
  (Loop.iter (roundBody size) 64 (minBlockSize - 1)).map fun blockSize =>
    if bit32 blockSize < size then blockSize + 1 else blockSize

/-- One round of the search of `memory_allocate`, which writes nothing: the first unused
block that is large enough, `none` past the end of the heap. -/
def searchBody (r : Ram) (spec : HeapSpec) (actualSize allocAddr : ℕ) : ℕ ⊕ Option ℕ :=
  if allocAddr ≤ spec.last then
    if !r.used allocAddr && decide (actualSize ≤ r.size allocAddr) then
      Sum.inr (some allocAddr)
    else
      Sum.inl (wrap32 (allocAddr + bit32 (r.size allocAddr)))
  else
    Sum.inr none

/-- The search of `memory_allocate`. It writes nothing, so it goes on forever once it
comes back to an address. -/
def searchLoop (r : Ram) (spec : HeapSpec) (actualSize : ℕ) : Option (Option ℕ) :=
  Loop.iter (searchBody r spec actualSize) (2 ^ 32 + 1) spec.start

/-- One round of `while (alloc_addr->size > actual_size)`. -/
def splitBody (block actualSize : ℕ) (r : Ram) : Ram ⊕ Ram :=
  if actualSize < r.size block then Sum.inl (splitBlock r block) else Sum.inr r

/-- The splitting loop of `memory_allocate`; every round lowers a seven-bit size. -/
def splitLoop (r : Ram) (block actualSize : ℕ) : Option Ram :=
  Loop.iter (splitBody block actualSize) 128 r

/-- `memory_allocate`: the pointer (0 if no block fits) and the new memory. -/
def memoryAllocate (r : Ram) (spec : HeapSpec) (size : ℕ) : Option (ℕ × Ram) := do
  let actualSize ← roundBlockSize (wrap32 (size + 1))
  match ← searchLoop r spec actualSize with
  | none => pure (0, r)
  | some allocAddr => do
      let r ← splitLoop r allocAddr actualSize
      pure (wrap32 (allocAddr + 1), r.setUsed allocAddr true)

/-- `memory_free`. The header is the byte before the pointer; the pointer itself is what
the source hands to `coalesce_block`. -/
def memoryFree (r : Ram) (spec : HeapSpec) (addr : ℕ) : Option Ram :=
  coalesceBlock (r.setUsed (sub32 addr 1) false) addr spec.start

/-- The state of the loop of `init_memory`: memory, `block`, `heap_length` and
`alloc_size`. -/
structure InitState where
  ram : Ram
  block : ℕ
  heapLength : ℕ
  allocSize : ℕ

/-- One round of the loop of `init_memory`. -/
def initBody (spec : HeapSpec) (s : InitState) : InitState ⊕ Ram :=
  if s.block < spec.last ∧ 0 < s.heapLength then
    if s.heapLength % 2 = 1 then
      Sum.inl {
        ram := (s.ram.setSize s.block s.allocSize).setUsed s.block false
        block := wrap32 (s.block + bit32 s.allocSize)
        heapLength := s.heapLength / 2
        allocSize := (s.allocSize + 1) % 256 }
    else
      Sum.inl { s with heapLength := s.heapLength / 2, allocSize := (s.allocSize + 1) % 256 }
  else
    Sum.inr s.ram

/-- `init_memory`. The length is halved in every round. -/
def initMemory (r : Ram) (spec : HeapSpec) : Option Ram :=
  Loop.iter (initBody spec) 33
    { ram := r
      block := spec.start
      heapLength := sub32 (spec.last + 1) spec.start / bit32 minBlockSize
      allocSize := minBlockSize }

/-- `kernel_allocate`. -/
def kernelAllocate (r : Ram) (size : ℕ) : Option (ℕ × Ram) := memoryAllocate r kernelHeap size

/-- `kernel_free`. -/
def kernelFree (r : Ram) (addr : ℕ) : Option Ram := memoryFree r kernelHeap addr

/-- `init_kernel_heap`. -/
def initKernelHeap (r : Ram) : Option Ram := initMemory r kernelHeap

end LoofOS
