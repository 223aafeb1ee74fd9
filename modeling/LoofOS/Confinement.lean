import LoofOS.KernelImage
import LoofOS.Multitasking

/-!
# What a Process Can Do to the Processor

A process may load any selector that the processor lets it load and change any flag that it may
change. With the segments and the TSS of `init_gdt`, it stays where `create_process` has put it: in
ring 3, on the flat user segments, with interrupts on and no right to any port (`Confined`). What it
has loaded, `timer_handler_wrapper` and `switch_context` can load again, so that no entry into the
kernel and no way back faults.

## Main results

* `Confined.stays`: what a program can do to its registers.
* `passes_wrapper`, `passes_switchContext`, `passes_timerHandlerReturn`: the code of the kernel.
* `programs_confined`: every run.
-/

namespace LoofOS

open LinkedRing Run X86

variable {img : Image} {m m' : Machine} {k k' : Kernel} {s s' : Scheduler} {bs : List Block}
  {tables free : List ℕ} {usable : BitVec 16 → BitVec 16 → Bool} {P P' : Processor}
  {c c' d p : Cpu} {tss : ℕ}

/-! ### Programs -/

/-- A program in ring 3 on the user segments, which cannot keep interrupts out. -/
structure Confined (c : Cpu) : Prop where
  cs : c.cs = 0x1b
  ss : c.ss = 0x23
  seg : ∀ s, (c.seg s).toNat < 4 ∨ (c.seg s).toNat / 4 = 6 ∨ (c.seg s).toNat / 4 = 8
  interruptFlag : c.interruptFlag = true
  iopl : c.iopl = 0
  virtual8086 : c.virtual8086 = false

namespace Confined

/-- A confined program runs at level 3. -/
theorem cpl (h : Confined c) : c.cpl = 3 := by
  rw [Cpu.cpl, h.cs]
  rfl

/-- A confined program runs at privilege 3. -/
theorem privilege (h : Confined c) : c.privilege = 3 := by
  rw [Cpu.privilege, h.cs]
  rfl

/-- **A program stays where it is**, whatever it loads. -/
theorem stays (h : Confined c) (hstep : c.StaysInRing (kernelSegments tss) c') : Confined c' := by
  have hlevel := h.cpl
  have hcs := hstep.cs
  have hss := hstep.ss
  rw [hlevel] at hcs hss
  refine ⟨?_, ?_, fun s => ?_, ?_, ?_, hstep.virtual8086.trans h.virtual8086⟩
  · exact hcs.elim (fun he => he.trans h.cs) holdsCode_user.mp
  · exact hss.elim (fun he => he.trans h.ss) loadsStack_user.mp
  · have hseg := hstep.seg s
    rw [hlevel] at hseg
    rcases hseg with he | hload
    · rw [he]
      exact h.seg s
    · exact loadsData_user.mp hload
  · exact (hstep.interruptFlag (by rw [h.iopl, hlevel]; simp)).trans h.interruptFlag
  · exact (hstep.iopl (by rw [hlevel]; simp)).trans h.iopl

/-- The same registers. -/
theorem congr (h : Confined c) (hsame : SameRegisters c c') : Confined c' := by
  have hring : c.privilege ≠ 0 := by
    rw [h.privilege]
    decide
  refine ⟨hsame.cs.trans h.cs, (hsame.ss hring).trans h.ss, fun s => ?_, ?_, ?_, ?_⟩
  · rw [hsame.seg]
    exact h.seg s
  · rw [Cpu.interruptFlag, hsame.eflags]
    exact h.interruptFlag
  · rw [Cpu.iopl, hsame.eflags]
    exact h.iopl
  · rw [Cpu.virtual8086, hsame.eflags]
    exact h.virtual8086

/-- What `create_process` sets up. -/
theorem program (eip : Word) : Confined (initialContext eip).program := by
  refine ⟨rfl, rfl, fun s => Or.inr (Or.inr ?_), ?_, ?_, ?_⟩
  · cases s <;> simp [Context.program, initialContext]
  · simp [Cpu.interruptFlag, Context.program, initialContext]
  · simp [Cpu.iopl, Context.program, initialContext]
  · simp [Cpu.virtual8086, Context.program, initialContext]

/-- What the program has loaded, the kernel can load. -/
theorem loadsData (h : Confined c) (s : Seg) :
    (kernelSegments tss).loadsData 0 (c.seg s) = true :=
  SegmentTable.loadsData_mono (loadsData_user.mpr (h.seg s)) (Nat.zero_le 3)

end Confined

/-! ### The code of the kernel -/

/-- **The gate and the wrapper** go through. -/
theorem passes_wrapper (h : Confined c) (handlerEip returnAddress : Word) :
    c.enters (kernelSegments tss) 0x08 0x10 = true ∧
      (c.interrupt 0x08 handlerEip).passesRun usable (kernelSegments tss) 19
        (timerHandlerWrapper returnAddress) = true := by
  have hdata : (kernelSegments tss).loadsData 0 0x10 = true := rfl
  have hax : ∀ w : BitVec 16, (w ++ (0x10 : BitVec 16)).setWidth 16 = (0x10 : BitVec 16) :=
    fun w => by
      ext i hi
      rw [BitVec.getElem_setWidth, BitVec.getLsbD_append]
      simp [hi]
  have hring : (c.interrupt 0x08 handlerEip).cpl = 0 := by
    rw [Cpu.interrupt]
    simp [Cpu.cpl, Cpu.enterGate]
  refine ⟨?_, ?_⟩
  · rw [Cpu.enters, h.cpl]
    rfl
  · generalize c.interrupt 0x08 handlerEip = e at hring
    have hload := (congrArg ((kernelSegments tss).loadsData 0)
      (hax ((e.reg .eax).extractLsb' 16 16))).trans hdata
    simpa [timerHandlerWrapper, Cpu.passesRun, Cpu.passes, Cpu.exec, hring] using hload

/-- **`switch_context`** goes through, whatever the program that goes on has loaded. -/
theorem passes_switchContext {directory : Word} (h : Confined p) (hd : d.cpl = 0)
    (hpassed : PassedTo d ⟨interruptedContext p, directory⟩) :
    d.passesRun usable (kernelSegments tss) 24 switchContextCode = true := by
  have hseg : ∀ s, (kernelSegments tss).loadsData 0 (p.seg s) = true := h.loadsData
  have hprivilege := h.privilege
  obtain ⟨hreturns, hlevel⟩ : (kernelSegments tss).returnsTo 0 p.cs = true ∧ rpl p.cs = 3 := by
    rw [h.cs]
    exact ⟨rfl, rfl⟩
  have hstack : (kernelSegments tss).loadsStack 3 p.ss = true := loadsStack_user.mpr h.ss
  obtain ⟨ret, hwords⟩ := hpassed
  simp [Cpu.OnStack, Context.words, WordsAt, BitVec.add_assoc, interruptedContext, hprivilege]
    at hwords
  simp [switchContextCode, switchContextBody, Cpu.passesRun, Cpu.passes, Cpu.exec, Cpu.drop,
    Cpu.top, Cpu.frameCs, Cpu.frameSs, BitVec.add_assoc, hd, hwords, hseg, hreturns, hlevel, hstack]

/-- **The way back** through the wrapper goes through. -/
theorem passes_timerHandlerReturn (h : Confined p) (hd : d.cpl = 0)
    (hesp : d.reg .esp = frameAddress p - 48)
    (hstack : d.OnStack ([(p.seg .ds).setWidth 32, (p.seg .es).setWidth 32, (p.seg .fs).setWidth 32,
      (p.seg .gs).setWidth 32, p.reg .edi, p.reg .esi, p.reg .ebp, p.reg .ebx, p.reg .edx,
      p.reg .ecx, p.reg .eax, frameAddress p] ++
        [p.eip, p.cs.setWidth 32, p.eflags, p.reg .esp, p.ss.setWidth 32])) :
    d.passesRun usable (kernelSegments tss) 24 timerHandlerReturn = true := by
  have hseg : ∀ s, (kernelSegments tss).loadsData 0 (p.seg s) = true := h.loadsData
  obtain ⟨hreturns, hlevel⟩ : (kernelSegments tss).returnsTo 0 p.cs = true ∧ rpl p.cs = 3 := by
    rw [h.cs]
    exact ⟨rfl, rfl⟩
  have hss : (kernelSegments tss).loadsStack 3 p.ss = true := loadsStack_user.mpr h.ss
  have hframe : frameAddress p = d.reg .esp + 48 := by
    rw [hesp]
    bv_omega
  rw [hframe] at hstack
  simp [Cpu.OnStack, WordsAt, BitVec.add_assoc] at hstack
  simp [timerHandlerReturn, timerHandlerReturnBody, Cpu.passesRun, Cpu.passes, Cpu.exec, Cpu.drop,
    Cpu.top, Cpu.frameCs, Cpu.frameSs, BitVec.add_assoc, hd, hstack, hseg, hreturns, hlevel, hss]

/-! ### Steps of the processor and of the machine -/

/-- What the machine does in a step of the processor. -/
def Processor.machineOps (usable : BitVec 16 → BitVec 16 → Bool) (P : Processor) :
    ProcessorOp → List MachineOp
  | .compute _ => []
  | .store addr b => [.userStore addr b]
  | .update state => [.updateProcess state]
  | .interrupt handlerEip returnAddress pushed _ => pushes pushed ++
      [.timer (handlerContext (timerEntry usable P.cpu handlerEip returnAddress))]

/-- **A step of the processor** is a run of the machine. -/
theorem exec_machineOps {op : ProcessorOp} (hstep : img.process usable P op = some P') :
    exec img.step P.machine (P.machineOps usable op) = some P'.machine := by
  cases op with
  | compute c =>
      obtain rfl := Option.some.inj hstep
      rfl
  | store addr b =>
      obtain ⟨m, hm, rfl⟩ := Option.map_eq_some_iff.mp hstep
      exact exec_concat (exec_nil P.machine) hm
  | update state =>
      obtain rfl := Option.some.inj hstep
      rfl
  | interrupt handlerEip returnAddress pushed d =>
      obtain ⟨m, hm, hrest⟩ := Option.bind_eq_some_iff.mp hstep
      obtain ⟨r, -, hlast⟩ := Option.bind_eq_some_iff.mp hrest
      obtain ⟨m', hm', rfl⟩ := Option.map_eq_some_iff.mp hlast
      exact exec_concat hm hm'

/-- What is permitted to the processor is allowed to the machine. -/
theorem Image.Runs.meets_machineOps {op : ProcessorOp} (h : img.Runs usable P s bs tables free)
    (hop : img.Permits usable P op) :
    Meets img.step img.Allows P.machine (P.machineOps usable op) := by
  cases op with
  | compute c => exact trivial
  | store addr b => exact ⟨trivial, fun _ _ => trivial⟩
  | update state =>
      refine ⟨⟨fun hz => h.current_ne ?_, hop⟩, fun _ _ => trivial⟩
      exact BitVec.eq_of_toNat_eq (h.sound.records.current.trans hz)
  | interrupt handlerEip returnAddress pushed d =>
      exact meets_append.mpr ⟨hop.1, fun _ _ => ⟨trivial, fun _ _ => trivial⟩⟩

/-- A processor step creates no process. -/
theorem machineOps_creates {op : ProcessorOp} {mop : MachineOp}
    (hmop : mop ∈ P.machineOps usable op) (eip : ℕ) : mop ≠ .createProcess eip := by
  rintro rfl
  cases op with
  | compute c => cases hmop
  | store addr b => cases List.mem_singleton.mp hmop
  | update state => cases List.mem_singleton.mp hmop
  | interrupt handlerEip returnAddress pushed d =>
      rcases List.mem_append.mp hmop with hpush | hlast
      · obtain ⟨x, -, hx⟩ := List.mem_map.mp hpush
        cases hx
      · cases List.mem_singleton.mp hlast

/-- Nothing is created and nothing deleted while processes run. -/
theorem Image.Runs.processes {op : ProcessorOp} (h : img.Runs usable P s bs tables free)
    (hop : img.Permits usable P op) (hstep : img.process usable P op = some P') :
    P'.machine.kernel.processes = P.machine.kernel.processes := by
  have hnone : Meets img.step (fun _ mop => ∀ eip, mop ≠ .createProcess eip) P.machine
      (P.machineOps usable op) :=
    Meets.of_forall_mem (fun _ hmop _ => machineOps_creates hmop) P.machine
  have hmeets := (h.meets_machineOps hop).and hnone
  set I : Machine → Prop := fun m =>
    (∃ s, img.Sound m s bs tables free) ∧ m.kernel.processes = P.machine.kernel.processes
  have hI : I P.machine := ⟨⟨s, h.sound⟩, rfl⟩
  refine (exec_invariant_of_meets (I := I) ?_ hI hmeets (exec_machineOps hstep)).2
  rintro m mop m' ⟨⟨s, hm⟩, hsame⟩ ⟨hallows, hnot⟩ hmop
  obtain ⟨-, s', -, -, hstays⟩ := hm.quiet_step hallows hmop hnot
  exact ⟨⟨s', hstays.sound⟩, hstays.quiet.processes.trans hsame⟩

/-! ### Every run -/

/-- The segments that the processor finds in memory. -/
def GdtState.segmentsIn (t : GdtState) (m : Machine) : SegmentTable :=
  segmentsAt m.kernel.ram.byte t.gdt 2047

/-- A program stays in its ring, and loads only what the processor lets it load. -/
def GdtState.Checks (t : GdtState) (P : Processor) : ProcessorOp → Prop
  | .compute c => P.cpu.StaysInRing (t.segmentsIn P.machine) c
  | _ => True

/-- An interrupt goes through: the gate, the wrapper, and the way back to a program. -/
def GdtState.Passes (t : GdtState) (img : Image) (usable : BitVec 16 → BitVec 16 → Bool)
    (P : Processor) : ProcessorOp → Prop
  | .interrupt handlerEip returnAddress pushed d =>
      P.cpu.enters (t.segmentsIn P.machine) 0x08 (P.machine.kernel.ram.byte.read16 (img.tss + 8))
        = true ∧
      (P.cpu.interrupt 0x08 handlerEip).passesRun usable (t.segmentsIn P.machine) 19
        (timerHandlerWrapper returnAddress) = true ∧
      ∀ m m' r, exec img.step P.machine (pushes pushed) = some m →
        m.kernel.timerHandler img.tss m.switching
          (handlerContext (timerEntry usable P.cpu handlerEip returnAddress)) = some r →
        img.step m (.timer (handlerContext (timerEntry usable P.cpu handlerEip returnAddress)))
          = some m' →
        d.passesRun usable (t.segmentsIn m') 24 (exitCode r.2) = true
  | _ => True

/-- The processes of a machine that has been reached are confined. -/
structure Image.Contains (img : Image) (usable : BitVec 16 → BitVec 16 → Bool) (k : Kernel)
    (P : Processor) : Prop where
  runs : ∃ s bs tables free, img.Runs usable P s bs tables free
  reached : ∃ ops, img.Reaches k ops P.machine
  confined : ∀ q ∈ P.machine.kernel.descriptors, Confined (P.programs (BitVec.ofNat 32 q))

/-- What is on the processor is confined. -/
theorem Image.Contains.cpu (h : img.Contains usable k P) : Confined P.cpu := by
  obtain ⟨s, bs, tables, free, hruns⟩ := h.runs
  have hprogram := h.confined _ (hruns.sound.records.mem hruns.current_mem)
  rw [BitVec.ofNat_toNat, BitVec.setWidth_eq] at hprogram
  exact hprogram.congr hruns.same

/-- **One step.** -/
theorem Image.Contains.step {t : GdtState} {op : ProcessorOp} (h : img.Contains usable k P)
    (htables : t.segmentsIn P.machine = kernelSegments tss) (hop : img.Permits usable P op)
    (hchecks : t.Checks P op) (hstep : img.process usable P op = some P') :
    img.Contains usable k P' := by
  have hcpu := h.cpu
  obtain ⟨s, bs, tables, free, hruns⟩ := h.runs
  obtain ⟨ops, hreaches⟩ := h.reached
  obtain ⟨s', hruns'⟩ := hruns.step hop hstep
  have hdescriptors : P'.machine.kernel.descriptors = P.machine.kernel.descriptors :=
    congrArg (List.map Prod.fst) (hruns.processes hop hstep)
  refine ⟨⟨s', bs, tables, free, hruns'⟩,
    ⟨_, hreaches.append (hruns.meets_machineOps hop) (exec_machineOps hstep)⟩, fun q hq => ?_⟩
  have hbefore := h.confined q (hdescriptors ▸ hq)
  cases op with
  | compute c =>
      obtain rfl := Option.some.inj hstep
      have hchecks' : P.cpu.StaysInRing (t.segmentsIn P.machine) c := hchecks
      rw [htables] at hchecks'
      by_cases he : BitVec.ofNat 32 q = P.current
      · simpa only [he, Function.update_self] using hcpu.stays hchecks'
      · simpa only [Function.update_of_ne he] using hbefore
  | store addr b =>
      obtain ⟨m, -, rfl⟩ := Option.map_eq_some_iff.mp hstep
      exact hbefore
  | update state =>
      obtain rfl := Option.some.inj hstep
      exact hbefore
  | interrupt handlerEip returnAddress pushed d =>
      obtain ⟨m, -, hrest⟩ := Option.bind_eq_some_iff.mp hstep
      obtain ⟨r, -, hlast⟩ := Option.bind_eq_some_iff.mp hrest
      obtain ⟨m', -, rfl⟩ := Option.map_eq_some_iff.mp hlast
      exact hbefore

/-- **The code of the kernel goes through** when a confined process is interrupted. -/
theorem Image.Contains.passes {t : GdtState} {op : ProcessorOp} (hboot : Booted k)
    (hplace : img.Places t) (hwritten : t.Written k) (h : img.Contains usable k P)
    (hop : img.Permits usable P op) : t.Passes img usable P op := by
  have hcpu := h.cpu
  obtain ⟨s, bs, tables, free, hruns⟩ := h.runs
  obtain ⟨ops, hreaches⟩ := h.reached
  have htables := tablesAt_reached hboot hplace hwritten hreaches
  cases op with
  | compute c => trivial
  | store addr b => trivial
  | update state => trivial
  | interrupt handlerEip returnAddress pushed d =>
      have hhere : t.segmentsIn P.machine = kernelSegments img.tss := htables.segments
      obtain ⟨henters, hwrapper⟩ :=
        @passes_wrapper usable P.cpu img.tss hcpu handlerEip returnAddress
      obtain ⟨hpushes, hring, hends⟩ := hop
      rw [GdtState.Passes, hhere, htables.ss0]
      refine ⟨henters, hwrapper, fun m m' r hm hr hm' => ?_⟩
      have hlevel : d.cpl = 0 := by rw [Cpu.cpl_eq, hring]; rfl
      have hpushed := hruns.push hpushes hm
      have hallows : img.Allows m
          (.timer (handlerContext (timerEntry usable P.cpu handlerEip returnAddress))) := trivial
      have hthere : t.segmentsIn m' = kernelSegments img.tss :=
        (tablesAt_reached hboot hplace hwritten
          ((hreaches.append hpushes hm).concat hallows hm')).segments
      have hend := hends m r hm hr
      rw [hthere]
      obtain ⟨k', out⟩ := r
      cases out with
      | none =>
          have huser := hruns.same.userMode (hruns.user _ hruns.current_mem)
          obtain ⟨hesp, hstack⟩ := Image.Runs.onStack_returns huser hend
          exact passes_timerHandlerReturn hcpu hlevel hesp hstack
      | some a =>
          obtain ⟨hmem, hcontext⟩ := hpushed.dispatches hr
          have hprogram := h.confined _ (hruns.sound.records.mem hmem)
          rw [BitVec.ofNat_toNat, BitVec.setWidth_eq] at hprogram
          have hpassed : PassedTo d ⟨interruptedContext (P.programs (BitVec.ofNat 32
            k'.currentProcess)), a.pageDirectory⟩ := hcontext ▸ hend
          exact passes_switchContext hprogram hlevel hpassed

/-- The first process. -/
theorem Image.Contains.enter {ops : List MachineOp} (hboot : Booted k)
    (husable : usable 3 0x23 = true) (h : img.Reaches k ops m)
    (henter : img.Allows m .forceEnterUserland)
    (hcreated : ∀ q ∈ m.kernel.descriptors, ∃ eip,
      m.captured (BitVec.ofNat 32 q) = .created (initialContext eip))
    (hd : d.privilege = 0) (hpassed : PassedTo d m.kernel.switchArguments) :
    img.Contains usable k (img.enter usable m d) := by
  obtain ⟨-, s, -, -, bs, tables, free, hs⟩ := machine_carriesOut hboot h
  refine ⟨⟨s, bs, tables, free, hs.enter husable henter hcreated hd hpassed⟩,
    ⟨_, h.concat henter rfl⟩, fun q hq => ?_⟩
  obtain ⟨eip, he⟩ := hcreated q hq
  have hprogram := Confined.program eip
  rw [show (img.enter usable m d).programs (BitVec.ofNat 32 q) = (initialContext eip).program from
    congrArg (fun x => x.dispatched.program) he]
  exact hprogram

/-- **Processes are confined, in every run**, whatever they load: a process on the CPU is in ring 3
with interrupts on; it has no right to any port, and there is no gate and no task for it to call;
and every interrupt goes through, to the kernel and back to a process. -/
theorem programs_confined {t : GdtState} {ops : List MachineOp} {pops : List ProcessorOp}
    (hboot : Booted k) (hplace : img.Places t) (hwritten : t.Written k)
    (husable : usable = (kernelSegments img.tss).usable) (h : img.Reaches k ops m)
    (henter : img.Allows m .forceEnterUserland)
    (hcreated : ∀ q ∈ m.kernel.descriptors, ∃ eip,
      m.captured (BitVec.ofNat 32 q) = .created (initialContext eip))
    (hd : d.privilege = 0) (hpassed : PassedTo d m.kernel.switchArguments)
    (hops : Meets (img.process usable) (fun P op => img.Permits usable P op ∧ t.Checks P op)
      (img.enter usable m d) pops)
    (hrun : exec (img.process usable) (img.enter usable m d) pops = some P) :
    Confined P.cpu ∧
      (∀ port width, portsAllowed P.machine.kernel.ram.byte img.tss (sizeofTss - 1) P.cpu.cpl
        P.cpu.iopl port width = false) ∧
      (∀ sel, (t.segmentsIn P.machine).leads P.cpu.cpl sel = false) ∧
      ∀ op, img.Permits usable P op → t.Passes img usable P op := by
  have huser : usable 3 0x23 = true := by
    rw [husable]
    exact usable_user (Or.inr rfl)
  have htables : ∀ P, img.Contains usable k P →
      TablesAt P.machine.kernel.ram.byte t.gdt img.tss := by
    intro P hP
    obtain ⟨ops, hreaches⟩ := hP.reached
    exact tablesAt_reached hboot hplace hwritten hreaches
  have hstep : ∀ P op P', img.Contains usable k P → img.Permits usable P op ∧ t.Checks P op →
      img.process usable P op = some P' → img.Contains usable k P' :=
    fun P op P' hP hop hstep => hP.step (htables P hP).segments hop.1 hop.2 hstep
  have hcontains := exec_invariant_of_meets hstep
    (Image.Contains.enter hboot huser h henter hcreated hd hpassed) hops hrun
  have hcpu := hcontains.cpu
  obtain ⟨hsegments, -, hiopb⟩ := htables P hcontains
  refine ⟨hcpu, fun port width => ?_, fun sel => ?_,
    fun op hop => hcontains.passes hboot hplace hwritten hop⟩
  · have hlevel : ¬ P.cpu.cpl ≤ P.cpu.iopl := by
      rw [hcpu.cpl, hcpu.iopl]
      omega
    have hbitmap : (P.machine.kernel.ram.byte (img.tss + 102)).toNat
        + 2 ^ 8 * (P.machine.kernel.ram.byte (img.tss + 103)).toNat = sizeofTss := hiopb
    have hlimit : ¬ sizeofTss + port / 8 + 1 ≤ sizeofTss - 1 := by omega
    simp only [portsAllowed, hbitmap, hlevel, hlimit, decide_false, Bool.false_and, Bool.false_or]
  · rw [GdtState.segmentsIn, hsegments, hcpu.cpl]
    exact leads_user

/-- A process of two that computes and is interrupted, with the tables at 3 MiB. -/
theorem programs_confined_two : ∃ r m d c d' P, sampleGdt.Written (bootKernel r) ∧
    sampleImage.Reaches (bootKernel r) startOps m ∧
    exec (sampleImage.process (kernelSegments sampleImage.tss).usable)
      (sampleImage.enter (kernelSegments sampleImage.tss).usable m d)
      [.compute c, .interrupt 0xc0100000 0xc0100040 [] d'] = some P ∧
    Confined P.cpu ∧
      (∀ port width, portsAllowed P.machine.kernel.ram.byte sampleImage.tss (sizeofTss - 1)
        P.cpu.cpl P.cpu.iopl port width = false) ∧
      (∀ sel, (sampleGdt.segmentsIn P.machine).leads P.cpu.cpl sel = false) ∧
      ∀ op, sampleImage.Permits (kernelSegments sampleImage.tss).usable P op →
        sampleGdt.Passes sampleImage (kernelSegments sampleImage.tss).usable P op := by
  obtain ⟨r, hboot, hheap, hclean, hwritten⟩ := sampleGdt_boots
  obtain ⟨m, s, bs, tables, free, hreaches, h, hop, -, hrunning, hcreated⟩ :=
    start_runs hboot hheap hclean
  have husable : (kernelSegments sampleImage.tss).usable 3 0x23 = true := usable_user (Or.inr rfl)
  generalize hu : (kernelSegments sampleImage.tss).usable = u at husable
  have hpassed : PassedTo (kernelWith (fun _ => 0) (0 :: (m.kernel.switchArguments.context.words ++
      [m.kernel.switchArguments.pageDirectory]))) m.kernel.switchArguments :=
    ⟨0, onStack_kernelWith (by simp [Context.words])⟩
  generalize hd : kernelWith _ _ = d at hpassed
  have hring : d.privilege = 0 := hd ▸ privilege_kernelWith _ _
  have hruns := h.enter husable hop hcreated hring hpassed
  set P := sampleImage.enter u m d
  -- the process changes a register
  set c : Cpu := P.cpu.setReg .ecx 1
  have hmode := hruns.same.userMode (hruns.user _ hruns.current_mem)
  have huser : UserMode u c := ⟨hmode.ring, hmode.segments⟩
  have hchecks : sampleGdt.Checks P (.compute c) :=
    ⟨Or.inl rfl, Or.inl rfl, fun _ => Or.inl rfl, fun _ => rfl, fun _ => rfl, rfl⟩
  have hone := hruns.compute huser rfl
  set P₁ : Processor := { P with cpu := c, programs := Function.update P.programs P.current c }
  have hstep : sampleImage.process u P (.compute c) = some P₁ := rfl
  obtain ⟨d', hpermits, hsome⟩ := hone.exists_interrupt (hrunning _ hone.current_mem) 0xc0100000
    0xc0100040
  obtain ⟨P₂, hlast⟩ := Option.isSome_iff_exists.mp hsome
  have hexec : exec (sampleImage.process u) P
      [.compute c, .interrupt 0xc0100000 0xc0100040 [] d'] = some P₂ :=
    (exec_cons hstep _).trans (exec_concat (exec_nil P₁) hlast)
  have hmeets : Meets (sampleImage.process u)
      (fun P op => sampleImage.Permits u P op ∧ sampleGdt.Checks P op) P
      [.compute c, .interrupt 0xc0100000 0xc0100040 [] d'] := by
    refine ⟨⟨⟨huser, rfl⟩, hchecks⟩, fun v hv => ?_⟩
    obtain rfl := Option.some.inj (hstep.symm.trans hv)
    exact ⟨⟨hpermits, trivial⟩, fun _ _ => trivial⟩
  exact ⟨r, m, d, c, d', P₂, hwritten, hreaches, hexec, programs_confined hboot places_sampleGdt
    hwritten hu.symm hreaches hop hcreated hring hpassed hmeets hexec⟩

end LoofOS
