import LoofOS.Coalesce
import LoofOS.Paging
import LoofOS.Simulation

/-!
# Freeing in the Address Space of a Process

`switch_process` calls `kernel_free` with the user stack pointer of a process that has ended, while
the page directory of this process is loaded. The pointer can be any address, and `coalesce_block`
goes on to buddies that can lie anywhere in the address space. So here headers are read and written
at linear addresses: above `KERNEL_BASE` these are the addresses that memory is indexed by, and
below it the page directory decides which byte is meant, or that there is none.

The translations are those at the time of the call. They keep the last twelve bits of an address, so
a block and its buddy of a size below 2 ^ 12 are never the same byte, and between two moves to a
lower address the loop makes at most 128 rounds, as the size of a header has seven bits.

## Main results

* `memoryFreePlaced_eq`: among the addresses of the kernel this is `memory_free`.
* `Kernel.free_only`: what `kernel_free` can change.
-/

namespace LoofOS

/-- Where the byte at a linear address lies; `none` is a page fault. -/
def Kernel.place (s : Kernel) (a : ℕ) : Option ℕ :=
  if kernelBase ≤ a then some a
  else (translate s.ram.byte (s.cr3.headD 0) a).map fun t => wrap32 (t.physical + kernelBase)

/-- One round of the loop of `coalesce_block`, with `block1` and `block2` linear addresses. -/
def coalescePlacedBody (place : ℕ → Option ℕ) (offset : ℕ) : Ram × ℕ → (Ram × ℕ) ⊕ Option Ram
  | (r, block1) =>
      match place block1 with
      | none => Sum.inr none
      | some a₁ =>
          let block2 := buddyOf offset block1 (r.size a₁)
          match place block2 with
          | none => Sum.inr none
          | some a₂ =>
              if !r.used a₂ && r.size a₂ == r.size a₁ then
                if block1 < block2 then
                  Sum.inl (r.setSize a₁ (r.size a₁ + 1), block1)
                else
                  Sum.inl (r.setSize a₂ (r.size a₂ + 1), block2)
              else
                Sum.inr (some r)

/-- `coalesce_block` at a linear address. -/
def coalescePlaced (place : ℕ → Option ℕ) (r : Ram) (block offset : ℕ) : Option Ram :=
  (Loop.iter (coalescePlacedBody place offset) (129 * 2 ^ 32) (r, block)).join

/-- `memory_free` at a linear address. -/
def memoryFreePlaced (place : ℕ → Option ℕ) (r : Ram) (spec : HeapSpec) (addr : ℕ) : Option Ram :=
  (place (sub32 addr 1)).bind fun header =>
    coalescePlaced place (r.setUsed header false) addr spec.start

/-- `kernel_free`, in the address space that is loaded. -/
def Kernel.free (s : Kernel) (a : ℕ) : Option Kernel :=
  (memoryFreePlaced s.place s.ram kernelHeap a).map fun r =>
    { s with ram := r, live := s.live.filter fun x => x.1 != a }

variable {place : ℕ → Option ℕ} {r r' : Ram} {spec : HeapSpec} {offset addr : ℕ}

/-! ### The addresses of the kernel -/

/-- An address of the kernel's half is reached where it is. -/
theorem Kernel.place_of_le {s : Kernel} {a : ℕ} (h : kernelBase ≤ a) : s.place a = some a := by
  rw [Kernel.place, if_pos h]

/-- A round at two addresses of the kernel. -/
theorem coalescePlacedBody_eq {t : Ram × ℕ} (hblock : place t.2 = some t.2)
    (hbuddy : place (buddyOf offset t.2 (t.1.size t.2))
      = some (buddyOf offset t.2 (t.1.size t.2))) :
    coalescePlacedBody place offset t = (coalesceBody offset t).map id some := by
  obtain ⟨r, block⟩ := t
  simp only at hblock hbuddy
  simp only [coalescePlacedBody, hblock, hbuddy, coalesceBody]
  split
  · split <;> rfl
  · rfl

/-- **Among the addresses of the kernel** both functions are the same: where every pointer that the
loop looks at is the address of its own byte. -/
theorem memoryFreePlaced_eq (ha : addr < 2 ^ 32) (hs : spec.start < 2 ^ 32)
    (hheader : place (sub32 addr 1) = some (sub32 addr 1))
    (hvisits : ∀ t, Loop.Visits (coalesceBody spec.start) (r.setUsed (sub32 addr 1) false, addr) t →
      place t.2 = some t.2 ∧ place (buddyOf spec.start t.2 (t.1.size t.2))
        = some (buddyOf spec.start t.2 (t.1.size t.2))) :
    memoryFreePlaced place r spec addr = memoryFree r spec addr := by
  obtain ⟨r', hr'⟩ := memoryFree_terminates r ha hs
  have hmore : Loop.iter (coalesceBody spec.start) (129 * 2 ^ 32)
      (r.setUsed (sub32 addr 1) false, addr) = some r' := Loop.iter_mono (by decide) hr'
  have hmap : Loop.iter (coalescePlacedBody place spec.start) (129 * 2 ^ 32)
      (r.setUsed (sub32 addr 1) false, addr) = some (some r') := by
    have hround : ∀ t, Loop.Visits (coalesceBody spec.start)
        (r.setUsed (sub32 addr 1) false, addr) t →
        coalescePlacedBody place spec.start (id t) = (coalesceBody spec.start t).map id some :=
      fun t ht => coalescePlacedBody_eq (hvisits t ht).1 (hvisits t ht).2
    have h := Loop.iter_map hround (fun _ _ ht hbody => ht.step hbody) Loop.Visits.refl
      (129 * 2 ^ 32)
    rwa [hmore] at h
  rw [hr', memoryFreePlaced, hheader, Option.bind_some, coalescePlaced, hmap]
  rfl

/-- The kernel frees its own memory. -/
theorem Kernel.free_eq_kernelFree {s : Kernel} {a : ℕ} (ha : kernelBase < a) (hlt : a < 2 ^ 32)
    (hvisits : ∀ t, Loop.Visits (coalesceBody kernelHeap.start)
      (s.ram.setUsed (sub32 a 1) false, a) t →
        kernelBase ≤ t.2 ∧ kernelBase ≤ buddyOf kernelHeap.start t.2 (t.1.size t.2)) :
    s.free a = (kernelFree s.ram a).map fun r =>
      { s with ram := r, live := s.live.filter fun x => x.1 != a } := by
  have hstart := kernelHeap_start
  have hheader : kernelBase ≤ sub32 a 1 := by
    rw [sub32_of_le (by omega) hlt]
    omega
  rw [Kernel.free, kernelFree, memoryFreePlaced_eq hlt (by omega) (Kernel.place_of_le hheader)
    fun t ht => ⟨Kernel.place_of_le (hvisits t ht).1, Kernel.place_of_le (hvisits t ht).2⟩]

/-! ### What is changed -/

/-- Only memory is changed, and the list of blocks. -/
theorem Kernel.free_only {s s' : Kernel} {a : ℕ} (h : s.free a = some s') :
    s' = { s with ram := s'.ram, live := s'.live } := by
  obtain ⟨r, -, rfl⟩ := Option.map_eq_some_iff.mp h
  rfl

end LoofOS
