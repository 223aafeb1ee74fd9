import LoofOS.PathComponents
import LoofOS.ExfatCalls
import LoofOS.VideoModes

/-!
# Processor Modes During Boot

`stage2.c`, `_bios_int` of `bios.s` and `enable_paging` of `paging.s`. A BIOS call clears bit 0
(PE) of CR0 to get to real mode and sets it again behind the interrupt; `enable_paging` sets bit 31
(PG). PG without PE is not a mode of the processor. Printing goes through the ports of the display,
makes no BIOS call and is left out, and so are the segment registers.

`cr0History` is the list of the values that are moved to CR0 in a run.

## Main results

* `legal_of_biosOnly`: BIOS calls are legal as long as paging is off.
* `stage2_legal_iff`: the boot is legal if and only if `stage2` does not come to `init_vbe`, which
  makes BIOS calls with paging on.
* `stage2_legal_of_missing`: so it is on a drive without a kernel.
-/

namespace LoofOS

open Dialogue

/-! ### CR0 -/

/-- `and al, 0xfe` on a value of CR0. -/
def toRealMode (cr0 : BitVec 32) : BitVec 32 := cr0 &&& 0xfffffffe

/-- `or al, 1`. -/
def toProtectedMode (cr0 : BitVec 32) : BitVec 32 := cr0 ||| 1

/-- `or eax, 0x80000001`. -/
def withPaging (cr0 : BitVec 32) : BitVec 32 := cr0 ||| 0x80000001

/-- The values that are moved to CR0, in order. -/
def LoaderOp.cr0Moves (cr0 : BitVec 32) : LoaderOp → List (BitVec 32)
  | biosInt _ => [toRealMode cr0, toProtectedMode (toRealMode cr0)]
  | enablePaging _ => [withPaging cr0]

/-- CR0 afterwards. -/
def LoaderOp.cr0After (cr0 : BitVec 32) : LoaderOp → BitVec 32
  | biosInt _ => toProtectedMode (toRealMode cr0)
  | enablePaging _ => withPaging cr0

/-- The values that are moved to CR0 in a run that starts with `cr0`. -/
def cr0History : BitVec 32 → List (LoaderOp × BiosReply) → List (BitVec 32)
  | _, [] => []
  | cr0, e :: said => e.1.cr0Moves cr0 ++ cr0History (e.1.cr0After cr0) said

/-- CR0 at the end of the run. -/
def cr0Last : BitVec 32 → List (LoaderOp × BiosReply) → BitVec 32
  | cr0, [] => cr0
  | cr0, e :: said => cr0Last (e.1.cr0After cr0) said

/-- The bits PE and PG of a value. -/
def protection (cr0 : BitVec 32) : Bool := cr0.getLsbD 0

def paging (cr0 : BitVec 32) : Bool := cr0.getLsbD 31

/-- Not PG without PE. -/
def LegalMode (cr0 : BitVec 32) : Prop := paging cr0 = true → protection cr0 = true

/-- Every value that is moved to CR0 in the run is one of a mode of the processor. -/
def LegalRun (cr0 : BitVec 32) (said : List (LoaderOp × BiosReply)) : Prop :=
  ∀ c ∈ cr0History cr0 said, LegalMode c

/-! ### `stage2.c` -/

/-- What `stage2` finds when it is entered: the drive, the addresses of its arrays, and what the
buffers on the stack hold. `vbeMem` is memory behind the first call of `init_vbe`. -/
structure Stage2 where
  drive : Loader.Drive
  memBlocks : ℕ
  vbe : VbeBuffers
  mem : Mem
  vbeMem : Mem
  loadBuffer : Mem
  behind : ℕ → ℕ
  stack : ℕ → Mem

/-- The characters of a string. -/
def charsOf (s : List Char) : List Int8 := s.map fun c => Int8.ofNat c.toNat

/-- `/system/kernel`. -/
def kernelPath : List Int8 :=
  charsOf ['/', 's', 'y', 's', 't', 'e', 'm', '/', 'k', 'e', 'r', 'n', 'e', 'l']

/-- `/system/vga`. -/
def vgaPath : List Int8 := charsOf ['/', 's', 'y', 's', 't', 'e', 'm', '/', 'v', 'g', 'a']

/-- `kernel_memory`: pages of 4 MiB, the low 3 GiB in place and the first GiB once more above. -/
def kernelMemory (i : ℕ) : ℕ := 0x83 + 2 ^ 22 * (if i < 768 then i else i - 768)

namespace Loader

/-- `enable_paging`. -/
def enablePaging (directory : ℕ → ℕ) : Loader Unit :=
  .ask (.enablePaging directory) fun _ => .ret ()

/-- `init_exfat` and the reading of the kernel; the second component is `kernel_size`. -/
def loadKernel (b : Stage2) (fuel : ℕ) : Loader (Mounted × ℕ × WalkState) := do
  let x ← initExfat b.drive b.loadBuffer b.behind
  let r ← readFileExfat b.drive x.volume x.rootFirstCluster b.stack x.upcaseTable fuel b.mem
    kernelPath 0x100000
  pure (x, r)

/-- The reading of the system process behind the kernel. -/
def loadVga (b : Stage2) (k : Mounted × ℕ × WalkState) (fuel : ℕ) : Loader (ℕ × WalkState) :=
  readFileExfat b.drive k.1.volume k.1.rootFirstCluster b.stack k.1.upcaseTable fuel k.2.2.mem
    vgaPath (wrap32 (0x100000 + k.2.1))

/-- `stage2`, up to `kernel_jump`; loops that may go on forever run at most `fuel` rounds. -/
def stage2 (b : Stage2) (fuel : ℕ) : Loader Unit := do
  let k ← loadKernel b fuel
  if k.2.1 = 0 then .stop
  else do
    let r ← loadVga b k fuel
    let _ ← biosMemScan r.2.mem b.memBlocks 64
    enablePaging kernelMemory
    initVbe b.vbe b.vbeMem fuel

end Loader

/-! ### BIOS calls with paging off and on -/

section Modes

variable {cr0 : BitVec 32} {said said' : List (LoaderOp × BiosReply)}

@[simp] theorem paging_toRealMode (cr0 : BitVec 32) : paging (toRealMode cr0) = paging cr0 := by
  simp [paging, toRealMode]

@[simp] theorem protection_toRealMode (cr0 : BitVec 32) : protection (toRealMode cr0) = false := by
  simp [protection, toRealMode]

@[simp] theorem paging_toProtectedMode (cr0 : BitVec 32) :
    paging (toProtectedMode cr0) = paging cr0 := by
  simp [paging, toProtectedMode]

@[simp] theorem protection_toProtectedMode (cr0 : BitVec 32) :
    protection (toProtectedMode cr0) = true := by
  simp [protection, toProtectedMode]

@[simp] theorem paging_withPaging (cr0 : BitVec 32) : paging (withPaging cr0) = true := by
  simp [paging, withPaging]

@[simp] theorem protection_withPaging (cr0 : BitVec 32) : protection (withPaging cr0) = true := by
  simp [protection, withPaging]

/-- The control register's history over two dialogues, one after the other. -/
theorem cr0History_append (cr0 : BitVec 32) (said said' : List (LoaderOp × BiosReply)) :
    cr0History cr0 (said ++ said')
      = cr0History cr0 said ++ cr0History (cr0Last cr0 said) said' := by
  induction said generalizing cr0 with
  | nil => rfl
  | cons e said ih => rw [List.cons_append, cr0History, ih, cr0History, cr0Last, List.append_assoc]

/-- **BIOS calls with paging off** are legal and leave it off. -/
theorem legal_of_biosOnly (hpaging : paging cr0 = false) (h : ∀ e ∈ said, e.1.IsBiosInt) :
    LegalRun cr0 said ∧ paging (cr0Last cr0 said) = false := by
  induction said generalizing cr0 with
  | nil => exact ⟨fun c hc => absurd hc List.not_mem_nil, hpaging⟩
  | cons e said ih =>
      obtain ⟨op, reply⟩ := e
      have hbios := h _ List.mem_cons_self
      cases op with
      | biosInt call =>
          have hoff : paging (toProtectedMode (toRealMode cr0)) = false := by simp [hpaging]
          obtain ⟨hlegal, hlast⟩ := ih hoff fun e he => h e (List.mem_cons_of_mem _ he)
          refine ⟨fun c hc => ?_, hlast⟩
          simp only [cr0History, LoaderOp.cr0Moves, List.cons_append, List.nil_append,
            List.mem_cons] at hc
          rcases hc with rfl | rfl | hc
          · simp [LegalMode, hpaging]
          · simp [LegalMode]
          · exact hlegal c hc
      | enablePaging directory => exact absurd hbios id

/-- **A BIOS call with paging on** is illegal. -/
theorem not_legal_of_paging {call : BiosCall} {reply : BiosReply} (hpaging : paging cr0 = true) :
    ¬ LegalRun cr0 ((.biosInt call, reply) :: said) := by
  intro h
  have hreal : LegalMode (toRealMode cr0) := h _ (by simp [cr0History, LoaderOp.cr0Moves])
  simp [LegalMode, hpaging] at hreal

end Modes

/-! ### The order of the calls of `stage2` -/

section Stage2

open Loader

variable {σ : Type} {env : σ → LoaderOp → BiosReply × σ} {b : Stage2} {s : σ} {fuel : ℕ}
  {cr0 : BitVec 32}

/-- With loops of at most `fuel` rounds, `/system/kernel` is read, with a size that is not 0, and
the call for `/system/vga` returns. -/
def LoadsSystem (env : σ → LoaderOp → BiosReply × σ) (b : Stage2) (s : σ) (fuel : ℕ) : Prop :=
  ∃ k, ((loadKernel b fuel).run env s).result = some k ∧ k.2.1 ≠ 0 ∧
    ((loadVga b k fuel).run env ((loadKernel b fuel).run env s).state).result ≠ none

/-- Loading the kernel asks nothing but BIOS calls. -/
theorem asks_loadKernel (b : Stage2) (fuel : ℕ) : (loadKernel b fuel).Asks LoaderOp.IsBiosInt :=
  (asks_initExfat _ _ _).bind fun _ => (asks_readFileExfat _ _ _ _ _ _ _ _ _).bind fun _ => trivial

/-- Loading the font asks nothing but BIOS calls. -/
theorem asks_loadVga (b : Stage2) (k : Mounted × ℕ × WalkState) (fuel : ℕ) :
    (loadVga b k fuel).Asks LoaderOp.IsBiosInt := asks_readFileExfat _ _ _ _ _ _ _ _ _

/-- `bios_mem_scan` returns, whatever the BIOS answers. -/
theorem biosMemScan_returns (env : σ → LoaderOp → BiosReply × σ) (s : σ) (m : Mem)
    (buffer length : ℕ) : ((biosMemScan m buffer length).run env s).result ≠ none := by
  have hround : ∀ (t : MemScanState) (s : σ), True →
      (∃ t', ((memScanBody length t).run env s).result = some (Sum.inl t') ∧
        length - t'.i < length - t.i ∧ True) ∨
      ∃ r, ((memScanBody length t).run env s).result = some (Sum.inr r) ∧ True := by
    intro t s _
    by_cases hi : t.i < length
    · simp only [memScanBody, if_pos hi, biosInt, bind_eq, ask_bind, ret_bind, run_ask]
      split
      · exact Or.inr ⟨_, rfl, trivial⟩
      · exact Or.inl ⟨_, rfl, by simp only; omega, trivial⟩
    · rw [memScanBody, if_neg hi]
      exact Or.inr ⟨_, rfl, trivial⟩
  obtain ⟨r, hr, -⟩ := loop_total (I := fun _ _ _ => True) (R := fun _ _ _ => True)
    (fun t => length - t.i) (fun t s _ => hround t s) (h := []) (s := s)
    (t := ⟨0, ⟨0xe820, 0, sizeofAddressRange, 0x534d4150, 0, buffer⟩, m⟩) trivial
    (Nat.lt_succ_self _)
  have hresult : ((biosMemScan m buffer length).run env s).result = some r := hr
  rw [hresult]
  exact Option.some_ne_none r

/-- **Before paging** there are BIOS calls only, and there is nothing else where the files are not
loaded. -/
theorem biosOnly_of_not_loads (h : ¬ LoadsSystem env b s fuel) :
    ∀ e ∈ ((stage2 b fuel).run env s).said, e.1.IsBiosInt := by
  have hkernel := @Asks.said _ _ _ _ env _ s _ (asks_loadKernel b fuel)
  rw [stage2, bind_eq]
  cases hk : ((loadKernel b fuel).run env s).result with
  | none =>
      rw [run_bind_of_none hk]
      exact hkernel
  | some k =>
      rw [run_bind_of_some hk]
      intro e he
      rcases List.mem_append.mp he with he | he
      · exact hkernel e he
      by_cases hsize : k.2.1 = 0
      · rw [if_pos hsize] at he
        cases he
      · have hnone : ((loadVga b k fuel).run env ((loadKernel b fuel).run env s).state).result
            = none := by
          by_contra hsome
          exact h ⟨k, hk, hsize, hsome⟩
        rw [if_neg hsize, bind_eq, run_bind_of_none hnone] at he
        exact (asks_loadVga b k fuel).said e he

/-- **Where the files are loaded**, `init_vbe` makes a BIOS call right behind `enable_paging`. -/
theorem said_stage2 (h : LoadsSystem env b s fuel) : ∃ before directory answer call reply rest,
    (∀ e ∈ before, LoaderOp.IsBiosInt (Prod.fst e)) ∧ ((stage2 b fuel).run env s).said
      = before ++ (.enablePaging directory, answer) :: (.biosInt call, reply) :: rest := by
  obtain ⟨k, hk, hsize, hvga⟩ := h
  obtain ⟨r, hr⟩ := Option.ne_none_iff_exists'.mp hvga
  obtain ⟨t, ht⟩ := Option.ne_none_iff_exists'.mp (biosMemScan_returns env
    ((loadVga b k fuel).run env ((loadKernel b fuel).run env s).state).state r.2.mem b.memBlocks 64)
  rw [stage2, bind_eq, run_bind_of_some hk, if_neg hsize, bind_eq, run_bind_of_some hr, bind_eq,
    run_bind_of_some ht]
  simp only [enablePaging, initVbe, biosInt, bind_eq, ask_bind, ret_bind, run_ask]
  simp only [← List.append_assoc]
  refine ⟨_, _, _, _, _, _, fun e he => ?_, rfl⟩
  rcases List.mem_append.mp he with he | he
  · rcases List.mem_append.mp he with he | he
    · exact (asks_loadKernel b fuel).said e he
    · exact (asks_loadVga b k fuel).said e he
  · exact (asks_biosMemScan _ _ _).said e he

/-- A boot that loads the system runs `init_vbe` with paging on. -/
theorem not_legalRun_of_loads (cr0 : BitVec 32) (h : LoadsSystem env b s fuel) :
    ¬ LegalRun cr0 ((stage2 b fuel).run env s).said := by
  obtain ⟨before, directory, answer, call, reply, rest, hbefore, hsaid⟩ := said_stage2 h
  rw [hsaid]
  intro hlegal
  have hon : paging (withPaging (cr0Last cr0 before)) = true := paging_withPaging _
  refine @not_legal_of_paging _ rest call reply hon fun c hc => hlegal c ?_
  rw [cr0History_append, cr0History]
  exact List.mem_append_right _ (List.mem_append_right _ hc)

/-- What `init_exfat` leaves behind when the BIOS reads the sectors of a drive. -/
def Stage2.mounted (b : Stage2) (disk : Mem) : Mounted :=
  LoofOS.initExfat b.drive.bytesPerSector disk b.loadBuffer b.behind

theorem computes_loadKernel {disk : Mem} (hread : ReadsSectors env b.drive disk) (fuel : ℕ) :
    Computes env (loadKernel b fuel)
      ((LoofOS.readFileExfat (b.mounted disk).volume (b.mounted disk).rootFirstCluster disk b.stack
        (b.mounted disk).upcaseTable fuel b.mem kernelPath 0x100000).map fun r =>
          (b.mounted disk, r)) := by
  have hsector : (b.mounted disk).volume.driveBytesPerSector = b.drive.bytesPerSector := by
    simp only [Stage2.mounted, LoofOS.initExfat]
    split <;> rfl
  exact (computes_initExfat hread _ _).bind (computes_readFileExfat hread hsector _ _ _ _ _ _ _).map

/-- There is no kernel on the drive: the result of reading it is zero, if there is one. -/
def Stage2.KernelMissing (b : Stage2) (disk : Mem) : Prop :=
  ∀ fuel r, LoofOS.readFileExfat (b.mounted disk).volume (b.mounted disk).rootFirstCluster disk
    b.stack (b.mounted disk).upcaseTable fuel b.mem kernelPath 0x100000 = some r → r.1 = 0

/-- Then `stage2` does not get past reading it. -/
theorem not_loads_of_missing {disk : Mem} {fuel : ℕ} (hread : ReadsSectors env b.drive disk)
    (hmissing : b.KernelMissing disk) : ¬ LoadsSystem env b s fuel := by
  rintro ⟨k, hk, hsize, -⟩
  rw [computes_loadKernel hread fuel s] at hk
  obtain ⟨r, hr, rfl⟩ := Option.map_eq_some_iff.mp hk
  exact hsize (hmissing fuel r hr)

/-- **Legality of the boot.** Every value that is moved to CR0 in a run of `stage2` is legal if and
only if the kernel is missing, or reading it or the system process does not end. -/
theorem stage2_legal_iff (hpaging : paging cr0 = false) :
    (∀ fuel, LegalRun cr0 ((stage2 b fuel).run env s).said) ↔
      ∀ fuel, ¬ LoadsSystem env b s fuel := by
  refine forall_congr' fun fuel => ⟨fun hlegal hloads => ?_, fun hnot => ?_⟩
  · exact not_legalRun_of_loads cr0 hloads hlegal
  · exact (legal_of_biosOnly hpaging (biosOnly_of_not_loads hnot)).1

/-- A file entry with its stream extension, of one cluster, and one name entry. -/
def fileSet (name : List Char) : Mem := fun a =>
  if a = 0 then 0x85
  else if a = 1 then 2
  else if a = 32 then 0xc0
  else if a = 35 then UInt8.ofNat name.length
  else if a = 52 then 100
  else if a = 57 then 2
  else if a = 64 then 0xc1
  else if 66 ≤ a ∧ a % 2 = 0 then UInt8.ofNat ((name.map Char.toNat).getD ((a - 66) / 2) 0)
  else 0

/-- A sector that is a boot record and a directory with the files `system` and `kernel`. -/
def kernelSector : Mem := fun a =>
  if a < 96 then fileSet ['s', 'y', 's', 't', 'e', 'm'] a
  else fileSet ['k', 'e', 'r', 'n', 'e', 'l'] (a - 96)

/-- A BIOS that reads this sector, whatever it is asked for. -/
def kernelBios (_ : Unit) (_ : LoaderOp) : BiosReply × Unit :=
  (⟨⟨0, 0, 0, 0, 0, 0⟩, kernelSector⟩, ())

/-- A drive with sectors of 512 bytes, and memory that is cleared. -/
def kernelBoot : Stage2 where
  drive := ⟨512, 0x80, 0x7000, 0x7200⟩
  memBlocks := 0x9000
  vbe := ⟨0x8000, 0x7a00, 0x7900⟩
  mem _ := 0
  vbeMem _ := 0
  loadBuffer _ := 0
  behind _ := 0
  stack _ _ := 0

theorem loadsSystem_kernelBoot : LoadsSystem kernelBios kernelBoot () 1 := by
  have hrun : (((loadKernel kernelBoot 1).run kernelBios ()).result.map fun k =>
      (decide (k.2.1 ≠ 0), ((loadVga kernelBoot k 1).run kernelBios
        ((loadKernel kernelBoot 1).run kernelBios ()).state).result.isSome))
      = some (true, true) := by decide +kernel
  obtain ⟨k, hk, hchecks⟩ := Option.map_eq_some_iff.mp hrun
  obtain ⟨hsize, hvga⟩ := Prod.mk.inj hchecks
  exact ⟨k, hk, of_decide_eq_true hsize, Option.isSome_iff_ne_none.mp hvga⟩

/-- A BIOS that reads zeros. -/
def emptyBios (_ : Unit) (_ : LoaderOp) : BiosReply × Unit :=
  (⟨⟨0, 0, 0, 0, 0, 0⟩, fun _ => 0⟩, ())

theorem kernelMissing_empty : kernelBoot.KernelMissing fun _ => 0 := by
  intro fuel r hr
  have hzero : (LoofOS.readFileExfat (kernelBoot.mounted fun _ => 0).volume
      (kernelBoot.mounted fun _ => 0).rootFirstCluster (fun _ => 0) kernelBoot.stack
      (kernelBoot.mounted fun _ => 0).upcaseTable 0 kernelBoot.mem kernelPath 0x100000).map Prod.fst
      = some 0 := by decide +kernel
  obtain ⟨r', hr', he⟩ := Option.map_eq_some_iff.mp hzero
  rw [readFileExfat_eq_walk] at hr hr'
  have hsame := walkComponents_mono (Nat.zero_le fuel) hr'
  rw [hr] at hsame
  rw [Option.some.inj hsame]
  exact he

/-- A boot that finds its kernel, and one from a drive without one. -/
theorem stage2_legal_iff_boots :
    (¬ ∀ fuel, LegalRun 0x11 ((stage2 kernelBoot fuel).run kernelBios ()).said) ∧
      ∀ fuel, LegalRun 0x11 ((stage2 kernelBoot fuel).run emptyBios ()).said := by
  have hpaging : paging 0x11 = false := by simp [paging]
  have hread : ReadsSectors emptyBios kernelBoot.drive fun _ => 0 := fun _ _ _ _ _ _ _ _ => rfl
  exact ⟨fun hlegal => (stage2_legal_iff hpaging).mp hlegal 1 loadsSystem_kernelBoot,
    (stage2_legal_iff hpaging).mpr fun _ => not_loads_of_missing hread kernelMissing_empty⟩

/-- **A boot that finds its kernel** clears PE with PG set. -/
theorem stage2_not_legal :
    ¬ ∀ (σ : Type) (env : σ → LoaderOp → BiosReply × σ) (b : Stage2) (s : σ) (cr0 : BitVec 32),
      protection cr0 = true → paging cr0 = false →
        ∀ fuel, LegalRun cr0 ((stage2 b fuel).run env s).said := fun hall =>
  not_legalRun_of_loads 0x11 loadsSystem_kernelBoot
    (hall Unit kernelBios kernelBoot () 0x11 (by simp [protection]) (by simp [paging]) 1)

/-- **A drive without a kernel** boots legally, up to the loop that `stage2` ends in. -/
theorem stage2_legal_of_missing {disk : Mem} (hread : ReadsSectors env b.drive disk)
    (hmissing : b.KernelMissing disk) (hpaging : paging cr0 = false) (fuel : ℕ) :
    LegalRun cr0 ((stage2 b fuel).run env s).said :=
  (legal_of_biosOnly hpaging (biosOnly_of_not_loads (not_loads_of_missing hread hmissing))).1

end Stage2

end LoofOS
