import LoofOS.Creation
import LoofOS.DescriptorBytes
import LoofOS.KernelFree
import LoofOS.Schedule

/-!
# Switching Processes in Memory

`switch_process`, `update_process`, `force_enter_userland` and `timer_handler` on the memory of the
kernel, where descriptors are bytes and links are addresses. `Represents k s` says that the
descriptors in the memory of `k` are those of the scheduler `s`; each of the functions then does in
memory what the function of `LoofOS.Process` does to the records.

## Main results

* `Represents.modify`: fields of one descriptor are assigned.
* `Represents.searchNext`: the search for the next process, and the switch to it.
* `Represents.switchProcess`: `switch_process` of a process that has not ended, with what it passes
  to `switch_context`.
-/

namespace LoofOS

open LinkedRing

/-! ### `process.c` in memory -/

namespace Kernel

/-- The descriptor that `current_process` points to. -/
def current (s : Kernel) : ProcessDesc := descAt s.ram.byte s.currentProcess

/-- The field `state` of the descriptor at `p`. -/
def stateOf (s : Kernel) (p : ℕ) : UInt8 := s.ram.byte (p + stateOffset)

/-- `p->next`. -/
def nextOf (s : Kernel) (p : ℕ) : ℕ := s.read32 (p + nextOffset)

/-- `p->prev`. -/
def prevOf (s : Kernel) (p : ℕ) : ℕ := s.read32 (p + prevOffset)

/-- `set_tss_stack`, with the address of the TSS. -/
def setTssStack (tss : ℕ) (s : Kernel) (esp0 : ℕ) : Kernel := s.write32 (tss + 4) esp0

/-- What is passed to `switch_context` for the current process. -/
def switchArguments (s : Kernel) : SwitchArguments where
  context := s.current.context
  pageDirectory := s.current.pageDirectory - BitVec.ofNat 32 kernelBase

/-- `switch_context`, as far as it changes the page directory. -/
def switchContext (s : Kernel) (a : SwitchArguments) : Kernel :=
  s.enablePaging a.pageDirectory.toNat

/-- `force_enter_userland`. -/
def forceEnterUserland (tss : ℕ) (s : Kernel) : Kernel :=
  let s := s.setTssStack tss (s.read32 (s.currentProcess + esp0Offset))
  s.switchContext s.switchArguments

/-- The first branch of `switch_process`: the registers are saved. -/
def saveRegisters (s : Kernel) (c : Context) : Kernel :=
  writeFields s s.currentProcess (contextFields c)

/-- The calls of `kernel_free` for a process that has ended, with the saved user stack pointer and
with the descriptor. -/
def freeCurrent (s : Kernel) : Option Kernel := do
  let current := s.currentProcess
  let s ← s.free (s.read32 (current + 12))
  s.free current

/-- The second branch of `switch_process`: the current process has ended. -/
def deleteCurrent (s : Kernel) : Option Kernel := do
  let current := s.currentProcess
  let s ← s.freeCurrent
  let s := { s with processes := s.processes.filter fun x => x.1 != current }
  if current = s.nextOf current then
    pure { s with currentProcess := 0 }
  else
    let s := s.write32 (s.prevOf current + nextOffset) (s.nextOf current)
    pure (s.write32 (s.nextOf current + prevOffset) (s.prevOf current))

/-- What `switch_process` does with the current process first. -/
def leaveCurrent (s : Kernel) (c : Context) : Option Kernel :=
  if s.stateOf s.currentProcess = 0 then some (s.saveRegisters c)
  else if s.stateOf s.currentProcess = 2 then s.deleteCurrent
  else some s

/-- The patch of `switch_process` after the save. -/
def patchCurrent (s : Kernel) (privLevel : Word) : Kernel :=
  let p := s.currentProcess
  if privLevel = 0 then
    let s := s.write32 (p + 16) 0x10
    s.write32 (p + 12) (s.read32 (p + 48))
  else
    s.write32 (p + 48) 0

/-- The loop of `switch_process` that skips halted processes. -/
def skipHalted (s : Kernel) : Option ℕ :=
  Loop.iter (advance s.nextOf fun p => s.stateOf p == 1) (2 ^ 32 + 1) s.currentProcess

/-- What `switch_process` does last: `p` becomes the current process. -/
def enterProcess (tss : ℕ) (s : Kernel) (p : ℕ) : Kernel :=
  let s := { s with currentProcess := p }
  s.setTssStack tss (s.read32 (s.currentProcess + esp0Offset))

/-- `switch_process`, up to the call of `switch_context`. -/
def switchProcess (tss : ℕ) (s : Kernel) (c : Context) :
    Option (Kernel × Option SwitchArguments) :=
  if s.currentProcess = 0 ∨ s.nextOf s.currentProcess = s.currentProcess then
    some (s, none)
  else do
    let privLevel := c.frame.cs &&& 3
    let s ← s.leaveCurrent c
    let s := s.patchCurrent privLevel
    let p ← s.skipHalted
    let s := s.enterProcess tss p
    pure (s, some s.switchArguments)

/-- `update_process`. -/
def updateProcess (s : Kernel) (state : UInt8) : Kernel :=
  { s with ram := s.ram.store (s.currentProcess + stateOffset) state }

/-- `timer_handler`, with the flag that `enable_switching` sets. -/
def timerHandler (tss : ℕ) (switchingEnabled : Bool) (s : Kernel) (c : Context) :
    Option (Kernel × Option SwitchArguments) :=
  if switchingEnabled then s.switchProcess tss c else some (s, none)

end Kernel

/-! ### What `switch_process` writes -/

namespace Kernel

/-- The kernel after the current process, which has not ended, was left. -/
def left (s : Kernel) (c : Context) : Kernel :=
  (if s.stateOf s.currentProcess = 0 then s.saveRegisters c else s).patchCurrent (c.frame.cs &&& 3)

/-- The end of the register sets in a descriptor. -/
theorem alters_saveRegisters (s : Kernel) (c : Context) :
    Alters s.currentProcess (s.currentProcess + esp0Offset) s (s.saveRegisters c) :=
  Alters.writeFields (by simp [contextFields, esp0Offset])

/-- `patch_esp0` writes to the current descriptor only. -/
theorem alters_patchCurrent (s : Kernel) (privLevel : Word) :
    Alters s.currentProcess (s.currentProcess + esp0Offset) s (s.patchCurrent privLevel) := by
  have hoffset : esp0Offset = 68 := rfl
  rw [patchCurrent]
  split
  · exact (Alters.write32 (by omega) (by omega)).trans (Alters.write32 (by omega) (by omega))
  · exact Alters.write32 (by omega) (by omega)

/-- Only the register sets of the current process are written. -/
theorem alters_left (s : Kernel) (c : Context) :
    Alters s.currentProcess (s.currentProcess + esp0Offset) s (s.left c) := by
  rw [left]
  split
  · have hsave := alters_saveRegisters s c
    have hcurrent : (s.saveRegisters c).currentProcess = s.currentProcess := by rw [hsave.only]
    exact hsave.trans (hcurrent ▸ alters_patchCurrent (s.saveRegisters c) _)
  · exact alters_patchCurrent s _

/-- **`switch_process`** when it does not return early and the current process has not ended. -/
theorem switchProcess_eq {s : Kernel} (tss : ℕ) (hc : s.currentProcess ≠ 0)
    (hmore : s.nextOf s.currentProcess ≠ s.currentProcess)
    (hstate : s.stateOf s.currentProcess ≠ 2) (c : Context) :
    s.switchProcess tss c = (s.left c).skipHalted.map fun p =>
      ((s.left c).enterProcess tss p, some ((s.left c).enterProcess tss p).switchArguments) := by
  have hleave : s.leaveCurrent c
      = some (if s.stateOf s.currentProcess = 0 then s.saveRegisters c else s) := by
    rw [leaveCurrent, if_neg hstate]
    split <;> rfl
  rw [switchProcess, if_neg (not_or.mpr ⟨hc, hmore⟩)]
  simp only [hleave, Option.bind_eq_bind, Option.bind_some, Option.pure_def, Option.map_eq_bind]
  rfl

end Kernel

/-! ### Records and bytes -/

/-- The links of a process lead to processes. -/
theorem RingInv.links {s : Scheduler} (h : RingInv s) {p : Word} (hp : p ∈ s.live) :
    s.next p ∈ s.live ∧ s.prev p ∈ s.live := by
  rcases h.ring with ⟨-, hnil⟩ | ⟨l, hring, hperm⟩
  · rw [hnil] at hp
    cases hp
  · have hmem := hperm.mem_iff.mpr hp
    exact ⟨hperm.mem_iff.mp (hring.next_mem hmem), hperm.mem_iff.mp (hring.prev_mem hmem)⟩

/-- The current process, when there is one, is on the ring. -/
theorem RingInv.current_mem {s : Scheduler} (h : RingInv s) (hc : s.currentProcess ≠ 0) :
    s.currentProcess ∈ s.live := by
  obtain ⟨l, -, hperm⟩ := h.of_current_ne hc
  exact hperm.mem_iff.mp List.mem_cons_self

/-- **The patch** in memory. -/
theorem descAt_patchCurrent (s : Kernel) (privLevel : Word) :
    descAt (s.patchCurrent privLevel).ram.byte s.currentProcess
      = s.current.setContext (patchContext privLevel s.current.context) := by
  rw [Kernel.patchCurrent, patchContext]
  split
  · set u := s.write32 (s.currentProcess + 16) 0x10 with hu
    obtain ⟨hword, hstate⟩ := @writeField_fields 16 s s.currentProcess 0x10 (by decide) (by decide)
    obtain ⟨hword', hstate'⟩ := @writeField_fields 12 u s.currentProcess
      (u.read32 (s.currentProcess + 48)) (by decide) (by decide)
    rw [← hu] at hword hstate
    have hesp : BitVec.ofNat 32 (u.read32 (s.currentProcess + 48))
        = wordAt s.ram.byte (s.currentProcess + 48) := hword 48 (by decide)
    simp (disch := decide) only [descAt, frameAt, genRegsAt, segRegsAt, hword', hstate', hword,
      hstate, hesp]
    rfl
  · obtain ⟨hword, hstate⟩ := @writeField_fields 48 s s.currentProcess 0 (by decide) (by decide)
    simp (disch := decide) only [descAt, frameAt, genRegsAt, segRegsAt, hword, hstate]
    rfl

/-- The descriptors in the memory of the kernel are those of the scheduler. -/
structure Represents (k : Kernel) (s : Scheduler) : Prop where
  current : s.currentProcess.toNat = k.currentProcess
  live : s.live.map BitVec.toNat = k.descriptors
  desc : ∀ p ∈ s.live, s.desc p = descAt k.ram.byte p.toNat

namespace Represents

variable {k k' : Kernel} {s : Scheduler} {p : Word} {f : ProcessDesc → ProcessDesc} {tss : ℕ}

/-- A live process of the scheduler is a descriptor of the kernel. -/
theorem mem (h : Represents k s) (hp : p ∈ s.live) : p.toNat ∈ k.descriptors :=
  h.live ▸ List.mem_map.mpr ⟨p, hp, rfl⟩

/-- The scheduler's `next` is the word in the descriptor. -/
theorem next (h : Represents k s) (hp : p ∈ s.live) : (s.next p).toNat = k.nextOf p.toNat := by
  rw [Scheduler.next, h.desc p hp]
  exact toNat_wordAt _ _

/-- The scheduler's `prev` is the word in the descriptor. -/
theorem prev (h : Represents k s) (hp : p ∈ s.live) : (s.prev p).toNat = k.prevOf p.toNat := by
  rw [Scheduler.prev, h.desc p hp]
  exact toNat_wordAt _ _

/-- The state of a process is compared as a byte. -/
theorem state_iff (h : Represents k s) (hp : p ∈ s.live) (b : UInt8) :
    (s.desc p).state = BitVec.ofNat 8 b.toNat ↔ k.stateOf p.toNat = b := by
  have hstate : (s.desc p).state = BitVec.ofNat 8 (k.stateOf p.toNat).toNat := by
    rw [h.desc p hp]
    rfl
  have hlt := (k.stateOf p.toNat).toNat_lt
  have hlt' := b.toNat_lt
  rw [hstate, ← BitVec.toNat_inj, BitVec.toNat_ofNat, BitVec.toNat_ofNat, Nat.mod_eq_of_lt hlt,
    Nat.mod_eq_of_lt hlt', UInt8.toNat_inj]

/-- The current process is a process, when there is one. -/
theorem current_mem (h : Represents k s) (hring : RingInv s) (hc : k.currentProcess ≠ 0) :
    s.currentProcess ≠ 0 ∧ s.currentProcess ∈ s.live := by
  have hne : s.currentProcess ≠ 0 := by
    intro hz
    rw [← h.current, hz] at hc
    exact hc rfl
  exact ⟨hne, hring.current_mem hne⟩

/-- `switch_process` returns early in both. -/
theorem stays_iff (h : Represents k s) (hring : RingInv s) :
    (s.currentProcess = 0 ∨ s.next s.currentProcess = s.currentProcess) ↔
      (k.currentProcess = 0 ∨ k.nextOf k.currentProcess = k.currentProcess) := by
  have hnull : s.currentProcess = 0 ↔ k.currentProcess = 0 := by
    rw [← h.current, ← BitVec.toNat_inj]
    rfl
  by_cases hc : k.currentProcess = 0
  · exact iff_of_true (Or.inl (hnull.mpr hc)) (Or.inl hc)
  · obtain ⟨-, hmem⟩ := h.current_mem hring hc
    have hself : s.next s.currentProcess = s.currentProcess ↔
        k.nextOf k.currentProcess = k.currentProcess := by
      rw [← h.current, ← h.next hmem, BitVec.toNat_inj]
    exact or_congr hnull hself

/-- Descriptors depend on their bytes only. -/
theorem congr (h : Represents k s) (hcurrent : k'.currentProcess = k.currentProcess)
    (hprocesses : k'.processes = k.processes)
    (hbyte : ∀ q ∈ k.descriptors, ∀ x, q ≤ x → x < q + processDescSize →
      k'.ram.byte x = k.ram.byte x) : Represents k' s where
  current := h.current.trans hcurrent.symm
  live := h.live.trans (congrArg (List.map Prod.fst) hprocesses.symm)
  desc p hp := (h.desc p hp).trans (descAt_congr (hbyte _ (h.mem hp))).symm

/-- **Fields of one descriptor are assigned.** -/
theorem modify (h : Represents k s) (hsep : Separate k.descriptors) (hp : p ∈ s.live)
    (halters : Alters p.toNat (p.toNat + processDescSize) k k')
    (hdesc : descAt k'.ram.byte p.toNat = f (s.desc p)) : Represents k' (s.modify p f) where
  current := by
    rw [halters.only]
    exact h.current
  live := by
    rw [halters.only]
    exact h.live
  desc q hq := by
    have hsize : processDescSize = 85 := rfl
    by_cases he : q = p
    · rw [he, Scheduler.desc_modify_self, hdesc]
    · rw [Scheduler.desc_modify_of_ne _ _ _ he, h.desc q hq]
      have hne : q.toNat ≠ p.toNat := fun hn => he (BitVec.eq_of_toNat_eq hn)
      have happart := hsep.apart _ (h.mem hq) _ (h.mem hp) hne
      exact (descAt_congr fun x hx hx' => halters.outside x (by omega)).symm

/-! ### `switch_process` -/

/-- Saving the registers in memory represents saving them in the scheduler. -/
theorem saveRegisters (h : Represents k s) (hring : RingInv s) (hsep : Separate k.descriptors)
    (hc : k.currentProcess ≠ 0) (c : Context) :
    Represents (k.saveRegisters c) (LoofOS.saveRegisters s c) := by
  obtain ⟨-, hmem⟩ := h.current_mem hring hc
  refine h.modify hsep hmem ?_ ?_
  · rw [h.current]
    exact Alters.writeFields (by simp [contextFields, processDescSize])
  · rw [h.current, Kernel.saveRegisters, descAt_writeContext, h.desc _ hmem, h.current]

/-- Patching `esp0` in memory represents patching it in the scheduler. -/
theorem patchCurrent (h : Represents k s) (hring : RingInv s) (hsep : Separate k.descriptors)
    (hc : k.currentProcess ≠ 0) (privLevel : Word) :
    Represents (k.patchCurrent privLevel) (LoofOS.patchCurrent s privLevel) := by
  obtain ⟨-, hmem⟩ := h.current_mem hring hc
  have hsize : processDescSize = 85 := rfl
  refine h.modify hsep hmem ?_ ?_
  · rw [h.current, Kernel.patchCurrent]
    split
    · exact (Alters.write32 (by omega) (by omega)).trans (Alters.write32 (by omega) (by omega))
    · exact Alters.write32 (by omega) (by omega)
  · rw [h.desc _ hmem, h.current, descAt_patchCurrent]
    rfl

/-- **The search** finds the same process, from any process whose `next` leads to the others: it
need not be one of them any more. -/
theorem skipHalted (h : Represents k s) (hlinks : ∀ p ∈ s.live, s.next p ∈ s.live)
    (hmem : s.next s.currentProcess ∈ s.live)
    (hnext : (s.next s.currentProcess).toNat = k.nextOf k.currentProcess) :
    k.skipHalted = (LoofOS.skipHalted s).map BitVec.toNat := by
  rw [← h.current] at hnext
  rw [Kernel.skipHalted, ← h.current]
  refine Loop.iter_map (I := fun p => s.next p ∈ s.live ∧ (s.next p).toNat = k.nextOf p.toNat)
    (fun p hp => ?_) (fun p q hp hq => ?_) ⟨hmem, hnext⟩ _
  · have hhalted : (k.stateOf (s.next p).toNat == 1)
        = ((s.desc (s.next p)).state == processHalted) := by
      rw [Bool.eq_iff_iff, beq_iff_eq, beq_iff_eq]
      exact (h.state_iff hp.1 1).symm
    simp only [advance, ← hp.2, hhalted]
    split <;> rfl
  · simp only [advance] at hq
    split at hq
    · obtain rfl := Sum.inl.inj hq
      exact ⟨hlinks _ hp.1, h.next hp.1⟩
    · cases hq

/-- What is passed to `switch_context`. -/
theorem switchArguments (h : Represents k s) (hmem : s.currentProcess ∈ s.live) :
    k.switchArguments = LoofOS.switchArguments s := by
  have hdesc : k.current = s.current := by
    rw [Kernel.current, Scheduler.current, h.desc _ hmem, h.current]
  rw [Kernel.switchArguments, LoofOS.switchArguments, hdesc]

/-- A process is entered. -/
theorem enterProcess (h : Represents k s) (htss : ∀ q ∈ k.descriptors, tss + 8 ≤ q) (p : Word) :
    Represents (k.enterProcess tss p.toNat) (LoofOS.enterProcess s p) := by
  have hset : Represents { k with currentProcess := p.toNat } (LoofOS.enterProcess s p) :=
    ⟨rfl, h.live, h.desc⟩
  refine hset.congr rfl rfl fun q hq x hx _ => Mem.write32_of_outside ?_
  have := htss q hq
  omega

/-- **The current process is left**, when it has not ended. -/
theorem left (h : Represents k s) (hring : RingInv s) (hsep : Separate k.descriptors)
    (hc : k.currentProcess ≠ 0) (hstate : k.stateOf k.currentProcess ≠ 2) (c : Context) :
    let u := LoofOS.patchCurrent (leaveCurrent s c) (c.frame.cs &&& 3)
    Represents (k.left c) u ∧ RingInv u ∧ u.currentProcess = s.currentProcess ∧
      u.live = s.live := by
  obtain ⟨-, hmem⟩ := h.current_mem hring hc
  have hended : s.current.state ≠ 2 := fun he =>
    hstate (h.current ▸ (h.state_iff hmem 2).mp he)
  obtain ⟨hnext, hprev, hlive⟩ := links_leaveCurrent c hended
  have hcurrent : (leaveCurrent s c).currentProcess = s.currentProcess := by
    rw [leaveCurrent, if_neg hended]
    split <;> rfl
  have hring' : RingInv (leaveCurrent s c) := hring.congr hnext hprev hcurrent hlive
  have hrunning : s.current.state = processRunning ↔ k.stateOf k.currentProcess = 0 :=
    h.current ▸ h.state_iff hmem 0
  have hleave : Represents (if k.stateOf k.currentProcess = 0 then k.saveRegisters c else k)
      (leaveCurrent s c) := by
    rw [leaveCurrent, if_neg hended]
    by_cases hrun : k.stateOf k.currentProcess = 0
    · rw [if_pos hrun, if_pos (hrunning.mpr hrun)]
      exact h.saveRegisters hring hsep hc c
    · rw [if_neg hrun, if_neg fun he => hrun (hrunning.mp he)]
      exact h
  refine ⟨hleave.patchCurrent hring' ?_ ?_ _, hring'.congr (fun x => next_patchCurrent _ x _)
    (fun x => prev_patchCurrent _ x _) rfl rfl, hcurrent, hlive⟩
  · split
    · rw [(Kernel.alters_saveRegisters k c).only]
      exact hsep
    · exact hsep
  · split
    · rw [(Kernel.alters_saveRegisters k c).only]
      exact hc
    · exact hc

/-- **What `switch_process` does last**: it searches from the current process on, which need not be
in the ring any more, and enters the process that it finds. -/
theorem searchNext (h : Represents k s) {d : Word} {m : List Word}
    (hring : IsRing s.next s.prev d m) (hperm : (d :: m).Perm s.live)
    (hd : s.next s.currentProcess = d) (hnext : d.toNat = k.nextOf k.currentProcess)
    (htss : ∀ q ∈ k.descriptors, tss + 8 ≤ q) :
    (k.skipHalted = none ∧ LoofOS.skipHalted s = none) ∨
      ∃ p, k.skipHalted = some p.toNat ∧ LoofOS.skipHalted s = some p ∧
        Represents (k.enterProcess tss p.toNat) (LoofOS.enterProcess s p) ∧
        (k.enterProcess tss p.toNat).switchArguments
          = LoofOS.switchArguments (LoofOS.enterProcess s p) := by
  have hmem : s.next s.currentProcess ∈ d :: m := hd ▸ List.mem_cons_self
  have hsearch := h.skipHalted
    (fun p hp => hperm.mem_iff.mp (hring.next_mem (hperm.mem_iff.mpr hp)))
    (hperm.mem_iff.mp hmem) (hd.symm ▸ hnext)
  cases hskip : LoofOS.skipHalted s with
  | none => exact Or.inl ⟨by rw [hsearch, hskip]; rfl, rfl⟩
  | some p =>
      have hlive : p ∈ s.live := hperm.mem_iff.mp (hring.mem_of_iter_advance hmem hskip).1
      have henter := h.enterProcess htss p
      exact Or.inr ⟨p, by rw [hsearch, hskip]; rfl, rfl, henter, henter.switchArguments hlive⟩

/-- **`switch_process`** does in memory what it does to the records, and passes the same arguments
to `switch_context`. -/
theorem switchProcess (h : Represents k s) (hring : RingInv s) (hsep : Separate k.descriptors)
    (hstate : k.currentProcess ≠ 0 → k.stateOf k.currentProcess ≠ 2)
    (htss : ∀ q ∈ k.descriptors, tss + 8 ≤ q) (c : Context) :
    (k.switchProcess tss c = none ∧ LoofOS.switchProcess s c = none) ∨
      ∃ k' s' out, k.switchProcess tss c = some (k', out) ∧
        LoofOS.switchProcess s c = some (s', out) ∧ Represents k' s' := by
  have hstays := h.stays_iff hring
  by_cases hstay : k.currentProcess = 0 ∨ k.nextOf k.currentProcess = k.currentProcess
  · exact Or.inr ⟨k, s, none, if_pos hstay, if_pos (hstays.mpr hstay), h⟩
  obtain ⟨hc, hmore⟩ := not_or.mp hstay
  obtain ⟨hc', hmore'⟩ := not_or.mp (mt hstays.mp hstay)
  obtain ⟨hleft, hring', hcurrent, -⟩ := h.left hring hsep hc (hstate hc) c
  obtain ⟨d, m, hsearch, hperm, hd⟩ := hring.search c hc' hmore'
  set u := LoofOS.patchCurrent (leaveCurrent s c) (c.frame.cs &&& 3) with hu
  have hmem : u.currentProcess ∈ u.live := hring'.current_mem (hcurrent ▸ hc')
  have hnext : d.toNat = (k.left c).nextOf (k.left c).currentProcess := by
    rw [← hd, hleft.next hmem, hleft.current]
  have htss' : ∀ q ∈ (k.left c).descriptors, tss + 8 ≤ q := by
    rw [Kernel.descriptors, (Kernel.alters_left k c).only]
    exact htss
  have hrecord : LoofOS.switchProcess s c = (LoofOS.skipHalted u).map fun p =>
      (LoofOS.enterProcess u p, some (LoofOS.switchArguments (LoofOS.enterProcess u p))) :=
    if_neg (mt hstays.mp hstay)
  rw [Kernel.switchProcess_eq tss hc hmore (hstate hc) c, hrecord]
  rcases hleft.searchNext hsearch hperm hd hnext htss' with ⟨hk, hs⟩ | ⟨p, hk, hs, henter, hargs⟩
  · exact Or.inl ⟨by rw [hk]; rfl, by rw [hs]; rfl⟩
  · exact Or.inr ⟨_, _, _, by rw [hk]; rfl, by rw [hs, Option.map_some, ← hargs], henter⟩

/-! ### `update_process` -/

/-- **`update_process`** does in memory what it does to the record. -/
theorem updateProcess (h : Represents k s) (hring : RingInv s) (hsep : Separate k.descriptors)
    (hc : k.currentProcess ≠ 0) (state : UInt8) :
    Represents (k.updateProcess state) (LoofOS.updateProcess s (BitVec.ofNat 8 state.toNat)) := by
  obtain ⟨-, hmem⟩ := h.current_mem hring hc
  refine h.modify hsep hmem ?_ ?_
  · rw [h.current]
    exact Alters.store (Nat.le_add_right _ _) (Nat.add_lt_add_left (by decide) _)
  · rw [h.desc _ hmem, h.current]
    exact descAt_storeState k.ram k.currentProcess state

/-! ### The queue -/

/-- A written `next` link represents the scheduler's update of it. -/
theorem setNext (h : Represents k s) (hsep : Separate k.descriptors) (hp : p ∈ s.live) (w : Word) :
    Represents (k.write32 (p.toNat + nextOffset) w.toNat) (s.setNext p w) := by
  have hoffset : nextOffset + 4 ≤ processDescSize := by decide
  refine h.modify hsep hp (Alters.write32 (by omega) (by omega)) ?_
  rw [descAt_writeNext, h.desc p hp, BitVec.ofNat_toNat, BitVec.setWidth_eq]

/-- A written `prev` link represents the scheduler's update of it. -/
theorem setPrev (h : Represents k s) (hsep : Separate k.descriptors) (hp : p ∈ s.live) (w : Word) :
    Represents (k.write32 (p.toNat + prevOffset) w.toNat) (s.setPrev p w) := by
  have hoffset : prevOffset + 4 ≤ processDescSize := by decide
  refine h.modify hsep hp (Alters.write32 (by omega) (by omega)) ?_
  rw [descAt_writePrev, h.desc p hp, BitVec.ofNat_toNat, BitVec.setWidth_eq]

/-- **A descriptor is put into the queue**, in memory as among the records. -/
theorem queueProcess (h : Represents k s) (hsep : Separate k.descriptors) (hp : p ∈ s.live)
    (hcurrent : s.currentProcess = 0 ∨ s.currentProcess ∈ s.live ∧
      s.prev s.currentProcess ∈ s.live ∧ s.currentProcess ≠ p) :
    Represents (LoofOS.queueProcess k p.toNat) (insertProcess s p) := by
  have hnull : k.currentProcess = 0 ↔ s.currentProcess = 0 := by
    rw [← h.current, ← BitVec.toNat_inj]
    rfl
  rw [LoofOS.queueProcess, insertProcess]
  by_cases hc : s.currentProcess = 0
  · rw [if_pos (hnull.mpr hc), if_pos hc]
    have h₀ : Represents { k with currentProcess := p.toNat } (s.setCurrent p) :=
      ⟨rfl, h.live, h.desc⟩
    exact (h₀.setNext hsep hp p).setPrev hsep hp p
  · rw [if_neg (mt hnull.mp hc), if_neg hc]
    obtain ⟨hcmem, hlmem, hcp⟩ := hcurrent.resolve_left hc
    have h₁ := h.setNext hsep hp s.currentProcess
    set k₁ := k.write32 (p.toNat + nextOffset) s.currentProcess.toNat with hk₁
    set s₁ := s.setNext p s.currentProcess with hs₁
    have hprev₁ : k₁.read32 (k₁.currentProcess + prevOffset)
        = (s₁.prev s₁.currentProcess).toNat := by
      rw [← h₁.current]
      exact (h₁.prev hcmem).symm
    have h₂ := h₁.setPrev hsep hp (s₁.prev s₁.currentProcess)
    set k₂ := k₁.write32 (p.toNat + prevOffset) (s₁.prev s₁.currentProcess).toNat with hk₂
    set s₂ := s₁.setPrev p (s₁.prev s₁.currentProcess) with hs₂
    have hprev₂ : k₂.read32 (k₂.currentProcess + prevOffset)
        = (s₂.prev s₂.currentProcess).toNat := by
      rw [← h₂.current]
      exact (h₂.prev hcmem).symm
    have hlmem₂ : s₂.prev s₂.currentProcess ∈ s₂.live := by
      have hback : s₂.prev s₂.currentProcess = s.prev s.currentProcess := by
        simp [hs₂, hs₁, hcp]
      rw [hback]
      exact hlmem
    have h₃ := h₂.setNext hsep hlmem₂ p
    have h₄ := h₃.setPrev hsep (p := s₂.currentProcess) hcmem p
    simp only [← h.current, ← hk₁, hprev₁, ← hk₂, hprev₂]
    exact h₂.current ▸ h₄

end Represents

end LoofOS
