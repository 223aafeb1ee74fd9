import LoofOS.Multitasking

/-!
# Entering the Kernel

What the processor and `timer_handler_wrapper` write when a process is interrupted: eighteen words
below the stack pointer in the TSS, and nothing else (`pushed_timerEntry`). In every run these are
pushes within the kernel stack of the process, so that all that holds of the steps of the machine
holds of them (`interrupt_pushes`).

## Main results

* `pushed_timerEntry`: the words that are pushed.
* `Image.Sound.exec_pushes`: bytes pushed onto the kernel stack.
* `interrupt_pushes`: an interrupt, in every run.
-/

namespace LoofOS

open LinkedRing Run X86

variable {usable : BitVec 16 → BitVec 16 → Bool} {c : Cpu} {img : Image} {m m' : Machine}
  {k : Kernel} {s : Scheduler} {bs : List Block} {tables free : List ℕ}

/-- **The processor and the wrapper** push eighteen words below the stack pointer in the TSS. -/
theorem pushed_timerEntry (hring : c.privilege ≠ 0) (handlerEip returnAddress : Word) :
    (timerEntry usable c handlerEip returnAddress).Pushed c.esp0 c.mem 18 := by
  have hstack : c.takeStack.Pushed c.esp0 c.mem 0 := ⟨by simp, fun _ _ => rfl⟩
  have hlen : ∀ n ≤ 5, 4 * n < 2 ^ 32 := fun n hn => by omega
  have hframe := ((((hstack.push (c.ss.setWidth 32) (hlen 1 (by simp))).push (c.reg .esp)
    (hlen 2 (by simp))).push c.eflags (hlen 3 (by simp))).push (c.cs.setWidth 32)
      (hlen 4 (by simp))).push c.eip (hlen 5 (by simp))
  have hentered : (c.interrupt 0x08 handlerEip).Pushed c.esp0 c.mem 5 := by
    rw [Cpu.interrupt, if_neg hring]
    exact hframe.congr rfl rfl
  have hcode : ∀ i ∈ timerHandlerWrapper returnAddress, (Cpu.pushCount i).isSome = true := by
    simp [timerHandlerWrapper, Cpu.pushCount]
  have hwords : ((timerHandlerWrapper returnAddress).filterMap Cpu.pushCount).sum = 13 := by
    simp [timerHandlerWrapper, Cpu.pushCount]
  have hcount : (timerHandlerWrapper returnAddress).length = 19 := rfl
  have hrun := @Cpu.Pushed.run usable _ _ _ _ _ hentered hcode (by rw [hwords]; omega)
  rwa [hwords, hcount] at hrun

/-! ### Bytes on the kernel stack -/

/-- The bytes from an address on. -/
def bytesAt (f : ℕ → UInt8) (a n : ℕ) : List (ℕ × UInt8) :=
  (List.range n).map fun i => (a + i, f (a + i))

/-- **Bytes pushed onto the kernel stack**, one after the other. -/
theorem Image.Sound.exec_pushes {f : ℕ → UInt8} {a n : ℕ} (h : img.Sound m s bs tables free)
    (hprocess : m.kernel.cr3.headD 0 ≠ sub32 img.kernelMemory kernelBase)
    (hlow : m.kernel.read32 (img.tss + 4) ≤ a + 4092)
    (hhigh : a + n ≤ m.kernel.read32 (img.tss + 4)) :
    ∃ r, Meets img.step img.Allows m (pushes (bytesAt f a n)) ∧
      exec img.step m (pushes (bytesAt f a n))
        = some { m with kernel := { m.kernel with ram := r } } ∧
      (∀ x, r.byte x = if a ≤ x ∧ x < a + n then f x else m.kernel.ram.byte x) ∧
      img.Sound { m with kernel := { m.kernel with ram := r } } s bs tables free ∧
      Mem.read32 r.byte (img.tss + 4) = m.kernel.read32 (img.tss + 4) := by
  induction n with
  | zero =>
      refine ⟨m.kernel.ram, trivial, rfl, fun x => ?_, h, rfl⟩
      rw [if_neg (by omega)]
  | succ n ih =>
      obtain ⟨r, hmeets, hexec, hbyte, hsound, hread⟩ := ih (by omega)
      have hallowed : img.Allows { m with kernel := { m.kernel with ram := r } }
          (.kernelPush (a + n) (f (a + n))) := by
        refine ⟨hprocess, ?_, ?_⟩
        · rw [Kernel.read32, hread]
          omega
        · rw [Kernel.read32, hread]
          omega
      have hbounds := (hsound.push_bounds hallowed).1
      have hbelow := img.tss_below
      have hsplit : pushes (bytesAt f a (n + 1))
          = pushes (bytesAt f a n) ++ [.kernelPush (a + n) (f (a + n))] := by
        simp [pushes, bytesAt, List.range_succ]
      refine ⟨r.store (a + n) (f (a + n)), ?_, ?_, fun x => ?_, hsound.kernelPush hallowed,
        (Mem.read32_store_of_outside (Or.inr (by omega))).trans hread⟩
      · rw [hsplit]
        refine meets_append.mpr ⟨hmeets, fun u hu => ?_⟩
        obtain rfl := Option.some.inj (hexec.symm.trans hu)
        exact ⟨hallowed, fun _ _ => trivial⟩
      · rw [hsplit]
        exact exec_concat hexec rfl
      · by_cases hx : x = a + n
        · rw [hx, if_pos (by omega)]
          exact Mem.store_self _ _ _
        · refine (Mem.store_of_ne _ hx).trans ((hbyte x).trans ?_)
          by_cases hin : a ≤ x ∧ x < a + n
          · rw [if_pos hin, if_pos (by omega)]
          · rw [if_neg hin, if_neg (by omega)]

/-! ### Interrupts -/

/-- From the heap on, the processor and the kernel have the same memory. -/
def Agrees (mem : Memory) (k : Kernel) : Prop :=
  ∀ x, kernelHeap.start ≤ x → x < 2 ^ 32 → mem (BitVec.ofNat 32 x) = k.ram.byte x

/-- The bytes that an interrupt leaves below the stack pointer in the TSS. -/
def entryBytes (c e : Cpu) : List (ℕ × UInt8) :=
  bytesAt (fun x => e.mem (BitVec.ofNat 32 x)) (c.esp0.toNat - 72) 72

/-- The stack of the process that is on the CPU. -/
theorem Image.Sound.stack_bounds (h : img.Sound m s bs tables free)
    (hprocess : m.kernel.cr3.headD 0 ≠ sub32 img.kernelMemory kernelBase) :
    kernelHeap.start + 4092 < m.kernel.read32 (img.tss + 4) := by
  have hload := h.cpu.resolve_left hprocess
  obtain ⟨a, ha⟩ := h.stack _ (h.faithful.ring.current_mem hload.current)
  have hstart := (h.spaces.space.heap.live_bounds ha.live).1
  rw [hload.stack.trans ha.top]
  exact Nat.add_lt_add_right hstart 4092

/-- **An interrupt of a process, in every run**: what the processor and the wrapper write are
pushes within the kernel stack of the process. The machine allows them, and the memory of the
processor is its memory afterwards. -/
theorem interrupt_pushes {ops : List MachineOp} (hboot : Booted k) (h : img.Reaches k ops m)
    (hprocess : m.kernel.cr3.headD 0 ≠ sub32 img.kernelMemory kernelBase)
    (hring : c.privilege ≠ 0) (hstack : c.esp0.toNat = m.kernel.read32 (img.tss + 4))
    (hmem : Agrees c.mem m.kernel) (handlerEip returnAddress : Word) :
    ∃ m', Meets img.step img.Allows m
        (pushes (entryBytes c (timerEntry usable c handlerEip returnAddress))) ∧
      exec img.step m (pushes (entryBytes c (timerEntry usable c handlerEip returnAddress)))
        = some m' ∧
      Agrees (timerEntry usable c handlerEip returnAddress).mem m'.kernel ∧
      ∀ x < kernelHeap.start, (timerEntry usable c handlerEip returnAddress).mem (BitVec.ofNat 32 x)
        = c.mem (BitVec.ofNat 32 x) := by
  obtain ⟨-, s, -, -, bs, tables, free, h⟩ := machine_carriesOut hboot h
  have hbounds := h.stack_bounds hprocess
  have hpushed := @pushed_timerEntry usable c hring handlerEip returnAddress
  set e := timerEntry usable c handlerEip returnAddress
  -- outside the eighteen words nothing is written
  have houtside : ∀ x < 2 ^ 32, x < c.esp0.toNat - 72 ∨ c.esp0.toNat ≤ x →
      e.mem (BitVec.ofNat 32 x) = c.mem (BitVec.ofNat 32 x) := by
    intro x hx hor
    refine hpushed.mem _ ?_
    have hx' : (BitVec.ofNat 32 x : Word).toNat = x := by
      rw [BitVec.toNat_ofNat]
      exact Nat.mod_eq_of_lt hx
    bv_omega
  obtain ⟨r, hmeets, hexec, hbyte, -⟩ := @Image.Sound.exec_pushes _ _ _ _ _ _
    (fun x => e.mem (BitVec.ofNat 32 x)) (c.esp0.toNat - 72) 72 h hprocess (by omega) (by omega)
  refine ⟨_, hmeets, hexec, fun x hstart hx => ?_, fun x hx => houtside x ?_ (Or.inl (by omega))⟩
  · rw [hbyte x]
    split
    · rfl
    · exact (houtside x hx (by omega)).trans (hmem x hstart hx)
  · have habove := kernelHeap_last
    omega

/-- The first process is interrupted. -/
theorem interrupt_pushes_first : ∃ m c m',
    sampleImage.Reaches (bootKernel bootRam) kernelMainOps m ∧
    Agrees c.mem m.kernel ∧
    exec sampleImage.step m (pushes (entryBytes c
      (timerEntry (fun _ _ => true) c 0xc0100000 0xc0100040))) = some m' ∧
    Agrees (timerEntry (fun _ _ => true) c 0xc0100000 0xc0100040).mem m'.kernel := by
  obtain ⟨m, s, h, -, -, hprocess, -⟩ := kernelMain_reaches
  set c : Cpu := { userProgram with
    mem := fun x => m.kernel.ram.byte x.toNat
    esp0 := BitVec.ofNat 32 (m.kernel.read32 (sampleImage.tss + 4)) }
  have hring : c.privilege ≠ 0 := show userProgram.privilege ≠ 0 by decide
  have hstack : c.esp0.toNat = m.kernel.read32 (sampleImage.tss + 4) := by
    rw [BitVec.toNat_ofNat]
    exact Nat.mod_eq_of_lt (Mem.read32_lt _ _)
  have hmem : Agrees c.mem m.kernel := fun x _ hx => by
    change m.kernel.ram.byte (BitVec.ofNat 32 x).toNat = _
    rw [BitVec.toNat_ofNat, Nat.mod_eq_of_lt hx]
  obtain ⟨m', -, hexec, hagrees, -⟩ := @interrupt_pushes (fun _ _ => true) _ _ _ _ _ booted_zeroRam
    h hprocess hring hstack hmem 0xc0100000 0xc0100040
  exact ⟨m, c, m', h, hmem, hexec, hagrees⟩

end LoofOS
