import LoofOS.KernelMachine

/-!
# The Scheduler in Memory

The functions of `process.c` one after the other, on the memory of the kernel, with everything that
`kernel_free` writes there. The pointer that `switch_process` frees first, the user stack pointer of
a process that has ended, is chosen by the program: `memory_free` clears a bit before it and adds to
the byte there, wherever that is.

`Carries k s` says that memory holds the descriptors of the scheduler `s`, and that they form a
ring. Every operation keeps it that is `Guarded`: a new descriptor lies apart from the others, what
others write lies outside the descriptors, and where a process is removed, `kernel_free` returns and
spares the descriptors of the others and the links of the one that is removed.

## Main results

* `Represents.insertNew`: a process is created.
* `Represents.switchProcess_ended`: `switch_process` removes a process that has ended.
* `Carries.step`: every operation does in memory what it does to the records.
* `Carries.run`: the descriptors in every run.
-/

namespace LoofOS

open LinkedRing Run

/-- What happens to the descriptors: calls of the functions of `process.c`, timer interrupts, and
bytes that anybody else writes. `p`, `stack` and `directory` are what `create_process` gets from
`kernel_allocate`. -/
inductive KernelOp
  | create (p stack directory eip : Word)
  | enter
  | update (state : UInt8)
  | tick (c : Context)
  | write (a : ℕ) (b : UInt8)

namespace Kernel

/-- `init_processes`. -/
def initProcesses (k : Kernel) : Kernel := { k with currentProcess := 0 }

/-- `create_process` up to the queue, as far as it writes to the new descriptor and loads page
directories. -/
def fillNew (kernelMemory : ℕ) (k : Kernel) (p stack directory eip : ℕ) : Kernel :=
  let k := writeFields k p (initialFields eip)
  let k := k.write32 (p + esp0Offset) (wrap32 (stack + 4092))
  let k := k.write32 (p + pageDirectoryOffset) directory
  let k := k.enablePaging (sub32 directory kernelBase)
  let k := k.enablePaging (sub32 kernelMemory kernelBase)
  { k with ram := k.ram.store (p + stateOffset) 0 }

/-- `create_process`, with the blocks that it gets from `kernel_allocate`. -/
def insertNew (kernelMemory : ℕ) (k : Kernel) (p stack directory eip : ℕ) : Kernel :=
  let k := k.fillNew kernelMemory p stack directory eip
  let k := queueProcess k p
  { k with processes := (p, directory) :: k.processes }

end Kernel

/-- One operation. -/
def Image.schedule (img : Image) (k : Kernel) : KernelOp → Option Kernel
  | .create p stack directory eip => some (k.insertNew img.kernelMemory p.toNat stack.toNat
      directory.toNat eip.toNat)
  | .enter => some (k.forceEnterUserland img.tss)
  | .update state => some (k.updateProcess state)
  | .tick c => (k.switchProcess img.tss c).map fun r => r.2.elim r.1 r.1.switchContext
  | .write a b => some { k with ram := k.ram.store a b }

/-- The process that an operation hands to `switch_context`. -/
def Image.dispatched (img : Image) (k : Kernel) : KernelOp → Option ℕ
  | .tick c => (k.switchProcess img.tss c).bind fun r => r.2.map fun _ => r.1.currentProcess
  | _ => none

/-- The processes that are dispatched in a run, in this order. -/
def Image.dispatches (img : Image) : Kernel → List KernelOp → List ℕ
  | _, [] => []
  | k, op :: ops =>
      match img.schedule k op with
      | none => []
      | some k' => (img.dispatched k op).toList ++ img.dispatches k' ops

/-! ### What the operations rely on -/

/-- A new descriptor lies in the heap, apart from those that there are, and nobody else writes to a
descriptor. -/
def Kernel.Apart (k : Kernel) : KernelOp → Prop
  | .create p _ _ _ => kernelHeap.start < p.toNat ∧
      ∀ q ∈ k.descriptors, p.toNat + processDescSize ≤ q ∨ q + processDescSize ≤ p.toNat
  | .write a _ => ∀ q ∈ k.descriptors, a < q ∨ q + processDescSize ≤ a
  | _ => True

instance (k : Kernel) : ∀ op, Decidable (k.Apart op)
  | .create p _ _ _ => inferInstanceAs (Decidable (kernelHeap.start < p.toNat ∧
      ∀ q ∈ k.descriptors, p.toNat + processDescSize ≤ q ∨ q + processDescSize ≤ p.toNat))
  | .write a _ => inferInstanceAs (Decidable
      (∀ q ∈ k.descriptors, a < q ∨ q + processDescSize ≤ a))
  | .enter => isTrue trivial
  | .update _ => isTrue trivial
  | .tick _ => isTrue trivial

/-- The descriptors of the other processes are as before, and so are the links of the current
one. -/
def Kernel.SparedBy (k k' : Kernel) : Prop :=
  (∀ q ∈ k.descriptors, q ≠ k.currentProcess →
    descAt k'.ram.byte q = descAt k.ram.byte q) ∧
  k'.nextOf k.currentProcess = k.nextOf k.currentProcess ∧
  k'.prevOf k.currentProcess = k.prevOf k.currentProcess

instance (k k' : Kernel) : Decidable (k.SparedBy k') :=
  inferInstanceAs (Decidable ((∀ q ∈ k.descriptors, q ≠ k.currentProcess →
    descAt k'.ram.byte q = descAt k.ram.byte q) ∧ _ ∧ _))

/-- The calls of `kernel_free` return, and spare the other processes and the links of the one that
is freed. -/
def Kernel.FreesItself (k : Kernel) : Prop :=
  ∃ k', k.freeCurrent = some k' ∧ k.SparedBy k'

instance (k : Kernel) : Decidable k.FreesItself :=
  match h : k.freeCurrent with
  | none => isFalse (by simp [Kernel.FreesItself, h])
  | some k' => decidable_of_iff (k.SparedBy k') (by simp [Kernel.FreesItself, h])

/-- A process that has ended is removed without harm to the others. -/
def Kernel.Spares (k : Kernel) : KernelOp → Prop
  | .tick _ => k.currentProcess ≠ 0 → k.nextOf k.currentProcess ≠ k.currentProcess →
      k.stateOf k.currentProcess = 2 → k.FreesItself
  | _ => True

instance (k : Kernel) : ∀ op, Decidable (k.Spares op)
  | .tick _ => inferInstanceAs (Decidable (k.currentProcess ≠ 0 →
      k.nextOf k.currentProcess ≠ k.currentProcess → k.stateOf k.currentProcess = 2 →
        k.FreesItself))
  | .create _ _ _ _ => isTrue trivial
  | .enter => isTrue trivial
  | .update _ => isTrue trivial
  | .write _ _ => isTrue trivial

/-! ### A process is created -/

variable {img : Image} {k k' : Kernel} {s : Scheduler} {c : Context} {tss : ℕ}

/-- Nothing but the new descriptor is written. -/
theorem Kernel.fillNew_outside (k : Kernel) (kernelMemory p stack directory eip : ℕ) {x : ℕ}
    (hx : x < p ∨ p + processDescSize ≤ x) :
    (k.fillNew kernelMemory p stack directory eip).ram.byte x = k.ram.byte x := by
  have hsize : processDescSize = 85 ∧ esp0Offset = 68 ∧ pageDirectoryOffset = 72 ∧
    stateOffset = 84 := ⟨rfl, rfl, rfl, rfl⟩
  have hfields : Alters p (p + 68) k (writeFields k p (initialFields eip)) :=
    Alters.writeFields (initialFields_offset eip)
  rw [← hfields.outside x (by omega)]
  refine (Mem.store_of_ne 0 (by omega)).trans ((Mem.write32_of_outside (by omega)).trans ?_)
  exact Mem.write32_of_outside (by omega)

/-- No process is added yet. -/
theorem Kernel.fillNew_processes (k : Kernel) (kernelMemory p stack directory eip : ℕ) :
    (k.fillNew kernelMemory p stack directory eip).currentProcess = k.currentProcess ∧
      (k.fillNew kernelMemory p stack directory eip).processes = k.processes := by
  have hfields : Alters p (p + 68) k (writeFields k p (initialFields eip)) :=
    Alters.writeFields (initialFields_offset eip)
  rw [Kernel.fillNew]
  generalize writeFields k p (initialFields eip) = a at hfields
  constructor
  · change a.currentProcess = k.currentProcess
    rw [hfields.only]
  · change a.processes = k.processes
    rw [hfields.only]

/-- The fields of the new descriptor. -/
theorem Kernel.descAt_fillNew (k : Kernel) (kernelMemory p stack directory eip : ℕ) :
    descAt (k.fillNew kernelMemory p stack directory eip).ram.byte p
      = newProcess (descAt (k.fillNew kernelMemory p stack directory eip).ram.byte p)
        (BitVec.ofNat 32 stack) (BitVec.ofNat 32 directory) (BitVec.ofNat 32 eip) := by
  have hwords := fun (o : ℕ) ho =>
    @wordAt_writeFields k p o (initialFields eip) (wordFields_initialFields eip) ho
  rw [Kernel.fillNew]
  generalize writeFields k p (initialFields eip) = a at hwords
  set b := a.write32 (p + esp0Offset) (wrap32 (stack + 4092)) with hb
  set v := b.write32 (p + pageDirectoryOffset) directory with hv
  have hfields : { descAt v.ram.byte p with state := 0 } = newProcess (descAt v.ram.byte p)
      (BitVec.ofNat 32 stack) (BitVec.ofNat 32 directory) (BitVec.ofNat 32 eip) := by
    refine newProcess_of_words (w := fun o => wordAt k.ram.byte (p + o)) fun o ho _ => ?_
    rw [(@writeField_fields pageDirectoryOffset b p directory (by decide) (by decide)).1 o ho,
      (@writeField_fields esp0Offset a p _ (by decide) (by decide)).1 o ho, hwords o ho]
  have hdesc : descAt (v.ram.store (p + stateOffset) 0).byte p
      = { descAt v.ram.byte p with state := 0 } := descAt_storeState v.ram p 0
  change descAt (v.ram.store (p + stateOffset) 0).byte p
    = newProcess (descAt (v.ram.store (p + stateOffset) 0).byte p) _ _ _
  rw [hdesc]
  exact hfields.trans (newProcess_congr rfl rfl)

/-- **A process is created**, in memory as among the records. -/
theorem Represents.insertNew {p stack directory eip : Word} (h : Represents k s)
    (hring : RingInv s) (hsep : Separate (p.toNat :: k.descriptors)) (hp₀ : p ≠ 0)
    (hp : p ∉ s.live) (kernelMemory : ℕ) :
    Represents (k.insertNew kernelMemory p.toNat stack.toNat directory.toNat eip.toNat)
      (LoofOS.createProcess s p stack directory eip) := by
  obtain ⟨hcurrent, hprocesses⟩ := k.fillNew_processes kernelMemory p.toNat stack.toNat
    directory.toNat eip.toNat
  have hnew := k.descAt_fillNew kernelMemory p.toNat stack.toNat directory.toNat eip.toNat
  have houtside := fun x hx => @Kernel.fillNew_outside k kernelMemory p.toNat stack.toNat
    directory.toNat eip.toNat x hx
  rw [Kernel.insertNew]
  generalize k.fillNew kernelMemory p.toNat stack.toNat directory.toNat eip.toNat = v at *
  have hrep : Represents v s := h.congr hcurrent hprocesses fun q hq x hx hx' => by
    have hne : q ≠ p.toNat := fun he => hp (by
      obtain ⟨w, hw, hwq⟩ := List.mem_map.mp (h.live ▸ hq)
      exact BitVec.eq_of_toNat_eq (hwq.trans he) ▸ hw)
    have hsize : processDescSize = 85 := rfl
    have happart := hsep.apart q (List.mem_cons_of_mem _ hq) _ List.mem_cons_self hne
    exact houtside x (by omega)
  simp only [BitVec.ofNat_toNat, BitVec.setWidth_eq] at hnew
  have hsep' : Separate (p.toNat :: v.descriptors) := by
    rw [Kernel.descriptors, hprocesses]
    exact hsep
  have hinsert := hrep.insert (d := directory.toNat) hring hsep' hp₀ hp hnew
  rw [← queueProcess_processes] at hinsert
  have hqueue : (LoofOS.queueProcess v p.toNat).processes = v.processes := by
    rw [LoofOS.queueProcess]
    split <;> rfl
  rwa [← hqueue] at hinsert

/-! ### A process is removed -/

/-- Freeing the current process changes memory and the live blocks only. -/
theorem Kernel.freeCurrent_only (h : k.freeCurrent = some k') :
    k' = { k with ram := k'.ram, live := k'.live } := by
  rw [Kernel.freeCurrent, Option.bind_eq_bind, Option.bind_eq_some_iff] at h
  obtain ⟨u, hu, hk'⟩ := h
  have hfirst := Kernel.free_only hu
  have hsecond := Kernel.free_only hk'
  rw [hsecond, hfirst]

/-- The other processes stay in the list. -/
theorem Kernel.freed_descriptors (hfree : k.freeCurrent = some k') :
    ∀ q ∈ { k' with processes := k'.processes.filter fun x => x.1 != k.currentProcess }.descriptors,
      q ∈ k.descriptors ∧ q ≠ k.currentProcess := by
  intro q hq
  obtain ⟨x, hx, rfl⟩ := List.mem_map.mp hq
  obtain ⟨hx, hne⟩ := List.mem_filter.mp hx
  rw [Kernel.freeCurrent_only hfree] at hx
  exact ⟨Kernel.mem_descriptors hx, bne_iff_ne.mp hne⟩

/-- What is left to do when `kernel_free` has returned: the two links, which are read from the
descriptor that is freed, the second time after the first assignment. -/
theorem Kernel.deleteCurrent_eq {u : Kernel} (hfree : k.freeCurrent = some k')
    (hu : u = { k' with processes := k'.processes.filter fun x => x.1 != k.currentProcess })
    (hother : k.currentProcess ≠ u.nextOf k.currentProcess) {v : Kernel}
    (hv : v = u.write32 (u.prevOf k.currentProcess + nextOffset) (u.nextOf k.currentProcess)) :
    k.deleteCurrent = some (v.write32 (v.nextOf k.currentProcess + prevOffset)
      (v.prevOf k.currentProcess)) := by
  have hkernel : k.deleteCurrent = (if k.currentProcess = u.nextOf k.currentProcess then
        pure { u with currentProcess := 0 }
      else
        let v := u.write32 (u.prevOf k.currentProcess + nextOffset) (u.nextOf k.currentProcess)
        pure (v.write32 (v.nextOf k.currentProcess + prevOffset) (v.prevOf k.currentProcess))) := by
    simp only [Kernel.deleteCurrent, hfree, Option.bind_eq_bind, Option.bind_some, hu]
  rw [hkernel, if_neg hother, hv]
  rfl

/-- `switch_process` once the process that has ended is removed. -/
theorem Kernel.switchProcess_removed {v : Kernel} (tss : ℕ) (hc : k.currentProcess ≠ 0)
    (hmore : k.nextOf k.currentProcess ≠ k.currentProcess)
    (hended : k.stateOf k.currentProcess = 2) (hdelete : k.deleteCurrent = some v) (c : Context)
    {w : Kernel} (hw : w = v.patchCurrent (c.frame.cs &&& 3)) :
    k.switchProcess tss c = w.skipHalted.map fun p =>
      (w.enterProcess tss p, some (w.enterProcess tss p).switchArguments) := by
  have hleave : k.leaveCurrent c = some v := by
    rw [Kernel.leaveCurrent, hended, if_neg (by decide), if_pos rfl, hdelete]
  rw [Kernel.switchProcess, if_neg (not_or.mpr ⟨hc, hmore⟩)]
  simp only [hleave, Option.bind_eq_bind, Option.bind_some, Option.pure_def, Option.map_eq_bind, hw]
  rfl

/-- The links of a current process that is not alone lead to others. -/
theorem RingInv.links_current (h : RingInv s) (hc : s.currentProcess ≠ 0)
    (hmore : s.next s.currentProcess ≠ s.currentProcess) :
    s.prev s.currentProcess ≠ s.currentProcess ∧
      s.next s.currentProcess ∈ s.live.erase s.currentProcess ∧
      s.prev s.currentProcess ∈ s.live.erase s.currentProcess := by
  obtain ⟨l, hring, -⟩ := h.of_current_ne hc
  have hlinks := h.links (h.current_mem hc)
  have hprev : s.prev s.currentProcess ≠ s.currentProcess := by
    intro he
    have hback := hring.next_prev List.mem_cons_self
    rw [he] at hback
    exact hmore hback
  exact ⟨hprev, h.nodup.mem_erase_iff.mpr ⟨hmore, hlinks.1⟩,
    h.nodup.mem_erase_iff.mpr ⟨hprev, hlinks.2⟩⟩

namespace Represents

/-- **The calls of `kernel_free`**, where they spare the other processes. -/
theorem freeCurrent (h : Represents k s) (hring : RingInv s)
    (hfree : k.freeCurrent = some k') (hspared : k.SparedBy k') :
    Represents { k' with processes := k'.processes.filter fun x => x.1 != k.currentProcess }
      (freeProcess s s.currentProcess) := by
  have honly := Kernel.freeCurrent_only hfree
  have hprocesses : k'.processes = k.processes := by rw [honly]
  refine ⟨?_, ?_, fun p hp => ?_⟩
  · rw [honly]
    exact h.current
  · have hsame : ∀ p : Word, (p.toNat != k.currentProcess) = (p != s.currentProcess) := by
      intro p
      rw [← h.current, Bool.eq_iff_iff, bne_iff_ne, bne_iff_ne, ne_eq, BitVec.toNat_inj]
    have hlive : s.live.erase s.currentProcess = s.live.filter fun p => p != s.currentProcess :=
      hring.nodup.erase_eq_filter _
    rw [Kernel.descriptors, hprocesses, freeProcess, hlive]
    simp only [← hsame]
    have hfilter : ∀ {α : Type} (f : α → ℕ) (l : List α),
        (l.filter fun x => f x != k.currentProcess).map f
          = (l.map f).filter fun p => p != k.currentProcess := fun f l =>
      (List.filter_map (p := fun p => p != k.currentProcess) (f := f) (l := l)).symm
    rw [hfilter, hfilter, h.live, Kernel.descriptors]
  · obtain ⟨hne, hmem⟩ := hring.nodup.mem_erase_iff.mp hp
    have hne' : p.toNat ≠ k.currentProcess := by
      rw [← h.current]
      exact fun he => hne (BitVec.eq_of_toNat_eq he)
    exact (h.desc p hmem).trans (hspared.1 _ (h.mem hmem) hne').symm

/-- **The current process is removed** from the ring, in memory as among the records. -/
theorem deleteCurrent (h : Represents k s) (hring : RingInv s) (hsep : Separate k.descriptors)
    (hc : k.currentProcess ≠ 0) (hmore : k.nextOf k.currentProcess ≠ k.currentProcess)
    (hfree : k.freeCurrent = some k') (hspared : k.SparedBy k') :
    ∃ v, k.deleteCurrent = some v ∧ Represents v (LoofOS.deleteCurrent s) ∧
      v.currentProcess = k.currentProcess ∧
      (∀ q ∈ v.descriptors, q ∈ k.descriptors ∧ q ≠ k.currentProcess) ∧
      v.nextOf k.currentProcess = k.nextOf k.currentProcess := by
  obtain ⟨hc', hmem⟩ := h.current_mem hring hc
  have hmore' : s.next s.currentProcess ≠ s.currentProcess := fun he =>
    hmore (((h.stays_iff hring).mp (Or.inr he)).resolve_left hc)
  obtain ⟨-, hnextmem, hprevmem⟩ := hring.links_current hc' hmore'
  set u : Kernel := { k' with
    processes := k'.processes.filter fun x => x.1 != k.currentProcess } with hu
  set t := freeProcess s s.currentProcess with ht
  have hfreed : Represents u t := h.freeCurrent hring hfree hspared
  have hcurrent : u.currentProcess = k.currentProcess := by rw [hu, Kernel.freeCurrent_only hfree]
  have hsub : ∀ q ∈ u.descriptors, q ∈ k.descriptors ∧ q ≠ k.currentProcess :=
    Kernel.freed_descriptors hfree
  have hsep' : Separate u.descriptors :=
    ⟨fun q hq q' hq' => hsep.apart q (hsub q hq).1 q' (hsub q' hq').1,
      fun q hq => hsep.lt q (hsub q hq).1⟩
  -- the links of the removed process, before and after the first of the two assignments
  have hnext : u.nextOf k.currentProcess = (s.next s.currentProcess).toNat := by
    rw [h.next hmem, h.current]
    exact hspared.2.1
  have hprev : u.prevOf k.currentProcess = (s.prev s.currentProcess).toNat := by
    rw [h.prev hmem, h.current]
    exact hspared.2.2
  have hkeep : ∀ {v : Kernel} {p : Word} {o o' w : ℕ}, p ∈ t.live → o + 4 ≤ processDescSize →
      o' + 4 ≤ processDescSize → (v.write32 (p.toNat + o) w).read32 (k.currentProcess + o')
        = v.read32 (k.currentProcess + o') := by
    intro v p o o' w hp ho ho'
    obtain ⟨hq, hne⟩ := hsub _ (hfreed.mem hp)
    have hsize : processDescSize = 85 := rfl
    have happart := hsep.apart _ hq _ (h.current ▸ h.mem hmem) hne
    exact Mem.read32_write32_of_disjoint (by omega)
  have hnextSize : nextOffset + 4 ≤ processDescSize := by decide
  have hprevSize : prevOffset + 4 ≤ processDescSize := by decide
  have h₁ := hfreed.setNext hsep' hprevmem (s.next s.currentProcess)
  have h₂ := h₁.setPrev hsep' hnextmem (s.prev s.currentProcess)
  refine ⟨(u.write32 ((s.prev s.currentProcess).toNat + nextOffset)
    (s.next s.currentProcess).toNat).write32 ((s.next s.currentProcess).toNat + prevOffset)
    (s.prev s.currentProcess).toNat, ?_, ?_, hcurrent, hsub, ?_⟩
  · have hother : k.currentProcess ≠ u.nextOf k.currentProcess := by
      rw [hnext, h.next hmem, h.current]
      exact hmore.symm
    rw [Kernel.deleteCurrent_eq hfree hu hother rfl, hnext, hprev]
    simp only [Kernel.nextOf, Kernel.prevOf, hkeep hprevmem hnextSize hnextSize,
      hkeep hprevmem hnextSize hprevSize] at hnext hprev ⊢
    rw [hnext, hprev]
  · have hrecord : LoofOS.deleteCurrent s
        = (t.setNext (s.prev s.currentProcess) (s.next s.currentProcess)).setPrev
          (s.next s.currentProcess) (s.prev s.currentProcess) := by
      rw [LoofOS.deleteCurrent, next_freeProcess, if_neg (Ne.symm hmore')]
      simp [ht]
    rw [hrecord]
    exact h₂
  · rw [Kernel.nextOf, hkeep hnextmem hprevSize hnextSize, hkeep hprevmem hnextSize hnextSize]
    exact hspared.2.1

/-- The patch of a descriptor that is not in the ring any more. -/
theorem patchRemoved (h : Represents k s)
    (happart : ∀ q ∈ k.descriptors, k.currentProcess + processDescSize ≤ q ∨
      q + processDescSize ≤ k.currentProcess) (privLevel : Word) :
    Represents (k.patchCurrent privLevel) (LoofOS.patchCurrent s privLevel) := by
  have halters := Kernel.alters_patchCurrent k privLevel
  have hsize : processDescSize = 85 ∧ esp0Offset = 68 := ⟨rfl, rfl⟩
  refine ⟨?_, ?_, fun p hp => ?_⟩
  · rw [halters.only]
    exact h.current
  · rw [halters.only]
    exact h.live
  · have hp' := happart _ (h.mem hp)
    have hne : p ≠ s.currentProcess := by
      rintro rfl
      rw [h.current] at hp'
      omega
    rw [LoofOS.patchCurrent, Scheduler.desc_modify_of_ne _ _ _ hne, h.desc p hp]
    exact (descAt_congr fun x hx hx' => halters.outside x (by omega)).symm

/-- **`switch_process` with a process that has ended** does in memory what it does to the records,
where `kernel_free` spares the other processes. -/
theorem switchProcess_ended (h : Represents k s) (hring : RingInv s) (hsep : Separate k.descriptors)
    (hc : k.currentProcess ≠ 0) (hmore : k.nextOf k.currentProcess ≠ k.currentProcess)
    (hended : k.stateOf k.currentProcess = 2) (hfrees : k.FreesItself)
    (htss : ∀ q ∈ k.descriptors, tss + 8 ≤ q) (c : Context) :
    (k.switchProcess tss c = none ∧ LoofOS.switchProcess s c = none) ∨
      ∃ k' s' out, k.switchProcess tss c = some (k', out) ∧
        LoofOS.switchProcess s c = some (s', out) ∧ Represents k' s' := by
  have hstay : ¬ (k.currentProcess = 0 ∨ k.nextOf k.currentProcess = k.currentProcess) :=
    not_or.mpr ⟨hc, hmore⟩
  have hstays := h.stays_iff hring
  obtain ⟨hc', hmore'⟩ := not_or.mp (mt hstays.mp hstay)
  obtain ⟨-, hmem⟩ := h.current_mem hring hc
  obtain ⟨k', hfree, hspared⟩ := hfrees
  obtain ⟨v, hdelete, hrep, hcurrent, hsub, hnextv⟩ :=
    h.deleteCurrent hring hsep hc hmore hfree hspared
  have hstate : s.current.state = 2 := (h.state_iff hmem 2).mpr (h.current.symm ▸ hended)
  have hleave : leaveCurrent s c = LoofOS.deleteCurrent s := leaveCurrent_of_ended c hstate
  have happart : ∀ q ∈ v.descriptors, v.currentProcess + processDescSize ≤ q ∨
      q + processDescSize ≤ v.currentProcess := by
    intro q hq
    obtain ⟨hq, hne⟩ := hsub q hq
    rw [hcurrent]
    exact hsep.apart _ (h.current ▸ h.mem hmem) q hq hne.symm
  have hpatched := hrep.patchRemoved happart (c.frame.cs &&& 3)
  obtain ⟨d, m, hsearch, hperm, hd⟩ := hring.search c hc' hmore'
  rw [hleave] at hsearch hperm hd
  set u := LoofOS.patchCurrent (LoofOS.deleteCurrent s) (c.frame.cs &&& 3) with hu
  set w := v.patchCurrent (c.frame.cs &&& 3) with hw
  have halters := Kernel.alters_patchCurrent v (c.frame.cs &&& 3)
  have honly : w.currentProcess = k.currentProcess ∧ w.descriptors = v.descriptors := by
    rw [hw, Kernel.descriptors, halters.only]
    exact ⟨hcurrent, rfl⟩
  have hnext : d.toNat = w.nextOf w.currentProcess := by
    have hucurrent : u.currentProcess = s.currentProcess := currentProcess_deleteCurrent hmore'
    have hdelete' := deleteCurrent_next (x := s.currentProcess) hmore'
    rw [if_neg (hring.links_current hc' hmore').1.symm] at hdelete'
    rw [← hd, hucurrent, hu, next_patchCurrent, hdelete', h.next hmem, h.current, honly.1,
      ← hnextv]
    have hoffset : nextOffset = 80 ∧ esp0Offset = 68 := ⟨rfl, rfl⟩
    exact (halters.read32 (by omega)).symm
  have hkernel := Kernel.switchProcess_removed tss hc hmore hended hdelete c hw
  have hrecord : LoofOS.switchProcess s c = (LoofOS.skipHalted u).map fun p =>
      (LoofOS.enterProcess u p, some (LoofOS.switchArguments (LoofOS.enterProcess u p))) := by
    rw [LoofOS.switchProcess, if_neg (mt hstays.mp hstay), hleave]
  rw [hkernel, hrecord]
  rcases hpatched.searchNext hsearch hperm hd hnext
    (fun q hq => htss q (hsub q (honly.2 ▸ hq)).1) with ⟨hk, hs⟩ | ⟨p, hk, hs, henter, hargs⟩
  · exact Or.inl ⟨by rw [hk]; rfl, by rw [hs]; rfl⟩
  · exact Or.inr ⟨_, _, _, by rw [hk]; rfl, by rw [hs, Option.map_some, ← hargs], henter⟩

end Represents

/-! ### The simulation -/

/-- What an operation does to the records; `none` is nothing. -/
def KernelOp.sched : KernelOp → Option SchedOp
  | .create p stack directory eip => some (.create p stack directory eip)
  | .update state => some (.update (BitVec.ofNat 8 state.toNat))
  | .tick c => some (.tick c)
  | .enter => none
  | .write _ _ => none

/-- The memory of the kernel holds the descriptors of the scheduler `s`, which form a ring. -/
structure Carries (k : Kernel) (s : Scheduler) : Prop where
  ring : RingInv s
  records : Represents k s
  separate : Separate k.descriptors
  heap : ∀ q ∈ k.descriptors, kernelHeap.start < q

namespace Carries

/-- No descriptor overlaps the saved `esp0`. -/
theorem tss_below (h : Carries k s) (img : Image) : ∀ q ∈ k.descriptors, img.tss + 8 ≤ q := by
  intro q hq
  have hbelow := img.tss_below
  have hheap := h.heap q hq
  omega

/-- After `init_processes` there is no process. -/
theorem init (hnone : k.processes = []) :
    Carries k.initProcesses (initProcesses idleScheduler) := by
  have hdescriptors : k.initProcesses.descriptors = [] := congrArg (List.map Prod.fst) hnone
  refine ⟨RingInv.init rfl, ⟨rfl, hdescriptors.symm, fun p hp => absurd hp List.not_mem_nil⟩,
    ?_, ?_⟩
  · rw [hdescriptors]
    exact ⟨fun q hq => absurd hq List.not_mem_nil, fun q hq => absurd hq List.not_mem_nil⟩
  · rw [hdescriptors]
    exact fun q hq => absurd hq List.not_mem_nil

/-- Nothing changes but bytes outside the descriptors. -/
theorem congr (h : Carries k s) (hcurrent : k'.currentProcess = k.currentProcess)
    (hprocesses : k'.processes = k.processes)
    (hbyte : ∀ q ∈ k.descriptors, ∀ x, q ≤ x → x < q + processDescSize →
      k'.ram.byte x = k.ram.byte x) : Carries k' s := by
  have hdescriptors : k'.descriptors = k.descriptors := congrArg (List.map Prod.fst) hprocesses
  exact ⟨h.ring, h.records.congr hcurrent hprocesses hbyte, hdescriptors ▸ h.separate,
    hdescriptors ▸ h.heap⟩

/-- What a new descriptor is. -/
theorem fresh {p stack directory eip : Word} (h : Carries k s)
    (hapart : k.Apart (.create p stack directory eip)) : p ≠ 0 ∧ p ∉ s.live := by
  constructor
  · rintro rfl
    exact absurd hapart.1 (Nat.not_lt_zero _)
  · intro hp
    have hself := hapart.2 _ (h.records.mem hp)
    have hsize : processDescSize = 85 := rfl
    omega

/-- **`create_process`.** -/
theorem create {p stack directory eip : Word} (h : Carries k s)
    (hapart : k.Apart (.create p stack directory eip)) (kernelMemory : ℕ) :
    Carries (k.insertNew kernelMemory p.toNat stack.toNat directory.toNat eip.toNat)
      (createProcess s p stack directory eip) := by
  obtain ⟨hp₀, hp⟩ := h.fresh hapart
  have hsep : Separate (p.toNat :: k.descriptors) := h.separate.cons p.isLt hapart.2
  have hrep := @Represents.insertNew k s p stack directory eip h.records h.ring hsep hp₀ hp
    kernelMemory
  have hdescriptors : (k.insertNew kernelMemory p.toNat stack.toNat directory.toNat
      eip.toNat).descriptors = p.toNat :: k.descriptors := by
    rw [← hrep.live, live_createProcess, List.map_cons, h.records.live]
  refine ⟨h.ring.create hp₀ hp, hrep, hdescriptors ▸ hsep, ?_⟩
  rw [hdescriptors]
  intro q hq
  rcases List.mem_cons.mp hq with rfl | hq
  · exact hapart.1
  · exact h.heap q hq

/-- **`update_process`**, also when there is no process. -/
theorem update (h : Carries k s) (state : UInt8) :
    Carries (k.updateProcess state) (updateProcess s (BitVec.ofNat 8 state.toNat)) := by
  refine ⟨h.ring.update _, ?_, h.separate, h.heap⟩
  by_cases hc : k.currentProcess = 0
  · have hc' : s.currentProcess = 0 := BitVec.eq_of_toNat_eq (h.records.current.trans hc)
    refine ⟨h.records.current, h.records.live, fun p hp => ?_⟩
    have hlive : p ∈ s.live := hp
    rw [h.ring.live_eq_nil hc'] at hlive
    cases hlive
  · exact h.records.updateProcess h.ring h.separate hc state

/-- **`force_enter_userland`.** -/
theorem enter (h : Carries k s) (img : Image) : Carries (k.forceEnterUserland img.tss) s := by
  refine h.congr rfl rfl fun q hq x hx _ => Mem.write32_of_outside ?_
  have hbelow := h.tss_below img q hq
  omega

/-- **`switch_process`** returns in both or in neither, and does the same. -/
theorem tick (h : Carries k s) (img : Image) (c : Context) (hspares : k.Spares (.tick c)) :
    (k.switchProcess img.tss c = none ∧ switchProcess s c = none) ∨
      ∃ k' s' out, k.switchProcess img.tss c = some (k', out) ∧
        switchProcess s c = some (s', out) ∧ k'.currentProcess = s'.currentProcess.toNat ∧
        Carries (out.elim k' k'.switchContext) s' := by
  have hswitch : (k.switchProcess img.tss c = none ∧ switchProcess s c = none) ∨
      ∃ k' s' out, k.switchProcess img.tss c = some (k', out) ∧
        switchProcess s c = some (s', out) ∧ Represents k' s' := by
    by_cases hended : k.currentProcess ≠ 0 ∧ k.nextOf k.currentProcess ≠ k.currentProcess ∧
        k.stateOf k.currentProcess = 2
    · obtain ⟨hc, hmore, hstate⟩ := hended
      exact h.records.switchProcess_ended h.ring h.separate hc hmore hstate
        (hspares hc hmore hstate) (h.tss_below img) c
    · by_cases hmore : k.nextOf k.currentProcess = k.currentProcess
      · exact Or.inr ⟨k, s, none, if_pos (Or.inr hmore),
          if_pos ((h.records.stays_iff h.ring).mpr (Or.inr hmore)), h.records⟩
      · exact h.records.switchProcess h.ring h.separate
          (fun hc hstate => hended ⟨hc, hmore, hstate⟩) (h.tss_below img) c
  refine hswitch.imp_right fun ⟨k', s', out, hk, hs, hrep⟩ =>
    ⟨k', s', out, hk, hs, hrep.current.symm, ?_⟩
  have hlive : ∀ q ∈ k'.descriptors, q ∈ k.descriptors := by
    rw [← hrep.live, ← h.records.live]
    refine fun q hq => List.map_subset _ ?_ hq
    rcases switchProcess_cases hs with ⟨-, rfl, -⟩ | ⟨-, -, p, -, rfl, -⟩
    · exact List.Subset.refl _
    · exact RingInv.live_leave_subset s c
  have hk' : Carries k' s' := ⟨h.ring.tick hs, hrep,
    ⟨fun q hq q' hq' => h.separate.apart q (hlive q hq) q' (hlive q' hq'),
      fun q hq => h.separate.lt q (hlive q hq)⟩, fun q hq => h.heap q (hlive q hq)⟩
  cases out with
  | none => exact hk'
  | some a => exact hk'.congr rfl rfl fun _ _ _ _ _ => rfl

/-- **Every operation** does in memory what it does to the records, or nothing. -/
theorem step {op : KernelOp} (h : Carries k s) (img : Image) (hapart : k.Apart op)
    (hspares : k.Spares op) :
    (img.schedule k op = none ∧ ∃ o, op.sched = some o ∧ schedStep s o = none) ∨
      ∃ k' s', img.schedule k op = some k' ∧ Carries k' s' ∧
        ((op.sched = none ∧ s' = s) ∨
          ∃ o, op.sched = some o ∧ AllocatesFresh s o ∧ schedStep s o = some s') := by
  cases op with
  | create p stack directory eip =>
      exact Or.inr ⟨_, _, rfl, h.create hapart img.kernelMemory,
        Or.inr ⟨_, rfl, h.fresh hapart, rfl⟩⟩
  | enter => exact Or.inr ⟨_, _, rfl, h.enter img, Or.inl ⟨rfl, rfl⟩⟩
  | update state => exact Or.inr ⟨_, _, rfl, h.update state, Or.inr ⟨_, rfl, trivial, rfl⟩⟩
  | tick c =>
      rcases h.tick img c hspares with ⟨hk, hs⟩ | ⟨k', s', out, hk, hs, -, hcarries⟩
      · exact Or.inl ⟨by rw [Image.schedule, hk]; rfl, _, rfl, by rw [schedStep, hs]; rfl⟩
      · exact Or.inr ⟨_, _, by rw [Image.schedule, hk]; rfl, hcarries,
          Or.inr ⟨_, rfl, trivial, by rw [schedStep, hs]; rfl⟩⟩
  | write a b =>
      refine Or.inr ⟨_, _, rfl, h.congr rfl rfl fun q hq x hx hx' => Mem.store_of_ne b ?_,
        Or.inl ⟨rfl, rfl⟩⟩
      have hout : a < q ∨ q + processDescSize ≤ a := hapart q hq
      omega

end Carries

/-- What the operations rely on: nobody else writes to the descriptors, `kernel_free` included. -/
def Kernel.Guarded (k : Kernel) (op : KernelOp) : Prop := k.Apart op ∧ k.Spares op

instance (k : Kernel) (op : KernelOp) : Decidable (k.Guarded op) :=
  inferInstanceAs (Decidable (k.Apart op ∧ k.Spares op))

/-- The records are carried through one operation. -/
theorem Carries.next {op : KernelOp} (h : ∃ s, Carries k s) (hop : k.Guarded op)
    (hstep : img.schedule k op = some k') : ∃ s, Carries k' s := by
  obtain ⟨s, h⟩ := h
  rcases h.step img hop.1 hop.2 with ⟨hnone, -⟩ | ⟨u, s', hu, hcarries, -⟩
  · exact absurd (hnone.symm.trans hstep) nofun
  · obtain rfl := Option.some.inj (hu.symm.trans hstep)
    exact ⟨s', hcarries⟩

/-- **In every run** memory holds a ring of descriptors. -/
theorem Carries.run {ops : List KernelOp} (h : ∃ s, Carries k s)
    (hops : Meets img.schedule Kernel.Guarded k ops) (hexec : exec img.schedule k ops = some k') :
    ∃ s, Carries k' s :=
  exec_invariant_of_meets (I := fun k => ∃ s, Carries k s)
    (fun _ _ _ h hop hstep => Carries.next h hop hstep) h hops hexec

end LoofOS
