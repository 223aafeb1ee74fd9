import LoofOS.KernelHalf
import LoofOS.Schedule

/-!
# Alignment of Tables and Directories

The paging code drops the low twelve bits of the address of every page table, and `cr3` those of the
page directory. It never checks that they are clear. They are, since `kernel_allocate` returns
addresses of pages for requests of a page.

## Main results

* `HeapReached.dvd`: results of `kernel_allocate` for half a page or more are addresses of pages.
* `allocatePage_newTable`: the entry for a new table leads to this table.
* `createProcess_cr3`: what `create_process` loads into `cr3`.
* `DirectoriesAligned.step`: what `switch_process` loads into `cr3`.
* `tables_aligned`: all of these.
-/

namespace LoofOS

open Run

variable {kernelMemory : ℕ} {s s' : Kernel} {bs : List Block}

/-! ### Tables -/

/-- **Results for half a page or more** are addresses of pages. -/
theorem HeapReached.dvd {h : HeapState} {n p : ℕ} {r : Ram} (hreached : HeapReached h)
    (hle : 2048 ≤ n) (hn : n + 1 < 2 ^ 31) (hcall : kernelAllocate h.ram n = some (p, r)) :
    4096 ∣ p := by
  obtain ⟨bs, hinv⟩ := hreached.inv
  obtain ⟨p', r₁, _, hcall', -, hgrant⟩ := hinv.allocate_same hinv hn
  obtain ⟨rfl, rfl⟩ := Prod.mk.inj (Option.some.inj (hcall.symm.trans hcall'))
  obtain ⟨rfl, -⟩ | ⟨-, bs', hgrant, -⟩ := hgrant
  · exact Nat.dvd_zero 4096
  · exact hgrant.heap.page_aligned List.mem_cons_self hle

/-- **The entry for a new table** leads to the table that the code writes to. -/
theorem allocatePage_newTable {live : List (ℕ × ℕ)} {pageDir addr t : ℕ} {r : Ram}
    (hreached : HeapReached ⟨s.ram, live⟩) (hlist : s.pageFreelist < kernelBase)
    (haddr : addr < kernelBase)
    (hnot : entryPresent (s.read32 (pageDir + 4 * (addr / 2 ^ 22))) = false)
    (hcall : kernelAllocate s.ram 4096 = some (t, r)) :
    ∃ u : Kernel, u.ram = r ∧
      allocatePage s pageDir addr = some (setPage
        (u.write32 (pageDir + 4 * (addr / 2 ^ 22)) (pde4kib (sub32 t kernelBase / 2 ^ 12))) t
        (addr / 2 ^ 12 % 2 ^ 10)) ∧
      wrap32 (entryAddr (pde4kib (sub32 t kernelBase / 2 ^ 12)) * 2 ^ 12 + kernelBase) = t := by
  obtain ⟨bs, hinv⟩ := hreached.inv
  have hdvd : 4096 ∣ t := hreached.dvd (by simp) (by simp) hcall
  have hlt : t < 2 ^ 32 := by
    obtain ⟨t', r₁, _, hcall', -, hgrant⟩ := hinv.allocate_same hinv (n := 4096) (by simp)
    obtain ⟨rfl, rfl⟩ := Prod.mk.inj (Option.some.inj (hcall.symm.trans hcall'))
    obtain ⟨rfl, -⟩ | ⟨-, bs', hgrant, -⟩ := hgrant
    · exact Nat.two_pow_pos 32
    · have hbounds := hgrant.heap.live_bounds List.mem_cons_self
      have hlast := kernelHeap_last
      omega
  have hhead : ¬ (kernelBase ≤ s.pageFreelist ∨ kernelBase ≤ addr) :=
    not_or.mpr ⟨Nat.not_le.mpr hlist, Nat.not_le.mpr haddr⟩
  refine ⟨{ s with ram := r, live := if t = 0 then s.live else (t, 4096) :: s.live }, rfl, ?_,
    pointed_pageEntry ⟨hdvd, hlt⟩⟩
  refine allocatePage_of_not_present hhead hnot ?_
  rw [Kernel.allocate, hcall, Option.map_some]

/-! ### What `create_process` loads -/

theorem setPage_cr3 (s : Kernel) (t j : ℕ) : (setPage s t j).cr3 = s.cr3 := by
  rw [setPage]
  split <;> rfl

theorem allocate_cr3 {n p : ℕ} (h : s.allocate n = some (p, s')) : s'.cr3 = s.cr3 := by
  obtain ⟨x, -, he⟩ := Option.map_eq_some_iff.mp h
  rw [← (Prod.mk.inj he).2]

theorem allocatePage_cr3 {pageDir addr : ℕ} (h : allocatePage s pageDir addr = some s') :
    s'.cr3 = s.cr3 := by
  rw [allocatePage] at h
  split at h
  · rw [Option.some.inj h]
  · dsimp only at h
    split at h
    · split at h
      · rw [Option.some.inj h]
      · rw [← Option.some.inj h, setPage_cr3]
    · obtain ⟨x, hx, rfl⟩ := Option.map_eq_some_iff.mp h
      have hcr3 : x.2.cr3 = s.cr3 := allocate_cr3 (p := x.1) hx
      rw [setPage_cr3]
      exact hcr3

theorem writeLinear_cr3 {addr : ℕ} {b : UInt8} (h : writeLinear s addr b = some s') :
    s'.cr3 = s.cr3 := by
  obtain ⟨t, -, rfl⟩ := Option.map_eq_some_iff.mp h
  rfl

theorem writeProgram_cr3 (h : writeProgram s = some s') : s'.cr3 = s.cr3 := by
  simp only [writeProgram, Option.bind_eq_bind, Option.bind_eq_some_iff] at h
  obtain ⟨s₁, h₁, s₂, h₂, s₃, h₃, s₄, h₄, h₅⟩ := h
  rw [writeLinear_cr3 h₅, writeLinear_cr3 h₄, writeLinear_cr3 h₃, writeLinear_cr3 h₂,
    writeLinear_cr3 h₁]

theorem queueProcess_cr3 (s : Kernel) (p : ℕ) : (queueProcess s p).cr3 = s.cr3 := by
  rw [queueProcess]
  split <;> rfl

/-- A call of the allocator, null or not. -/
theorem HeapInv.allocate_kernel {n p : ℕ} (h : HeapInv ⟨s.ram, s.live⟩ bs) (hn : n + 1 < 2 ^ 31)
    (hcall : s.allocate n = some (p, s')) :
    (∃ bs', HeapInv ⟨s'.ram, s'.live⟩ bs') ∧ (p = 0 ∨ (p, n) ∈ s'.live) := by
  obtain ⟨x, hx, he⟩ := Option.map_eq_some_iff.mp hcall
  obtain ⟨rfl, rfl⟩ := Prod.mk.inj he
  obtain ⟨p, r₁, _, hcall', -, hgrant⟩ := h.allocate_same h hn
  obtain rfl := Option.some.inj (hx.symm.trans hcall')
  obtain ⟨rfl, rfl, -⟩ | ⟨hne, bs', hgrant, -⟩ := hgrant
  · exact ⟨⟨bs, h⟩, Or.inl rfl⟩
  · simp only [if_neg hne]
    exact ⟨⟨bs', hgrant.heap⟩, Or.inr List.mem_cons_self⟩

/-- A block may be written to, also when it is null. -/
theorem HeapInv.alters {n p : ℕ} (h : HeapInv ⟨s.ram, s.live⟩ bs)
    (hp : p = 0 ∨ (p, n) ∈ s.live) (hn : n ≤ kernelHeap.start) (halters : Alters p (p + n) s s') :
    HeapInv ⟨s'.ram, s'.live⟩ bs := by
  have hlive : s'.live = s.live := by rw [halters.only]
  rw [hlive]
  refine (h.spared (a := p) (b := p + n) ?_ halters.outside).1
  rcases hp with rfl | hp
  · exact Or.inr (Or.inl (by rwa [Nat.zero_add]))
  · exact Or.inl ⟨p, n, hp, le_refl p, le_refl _⟩

/-- **What `create_process` loads into `cr3`**: the address of a page, and of `kernel_memory`. -/
theorem createProcess_cr3 {live : List (ℕ × ℕ)} {eip : ℕ} (hreached : HeapReached ⟨s.ram, live⟩)
    (hlive : s.live = live) (hcreate : s.createProcess kernelMemory eip = some s') :
    ∃ d, s'.cr3 = sub32 kernelMemory kernelBase :: sub32 d kernelBase :: s.cr3 ∧ 4096 ∣ d := by
  have hdesc : processDescSize = 85 := rfl
  have hesp : esp0Offset = 68 := rfl
  obtain ⟨bs, hinv⟩ := hreached.inv
  rw [← hlive] at hinv
  rw [createProcess_eq] at hcreate
  obtain ⟨⟨p, d, s₁⟩, hbegin, hcreate⟩ := Option.bind_eq_some_iff.mp hcreate
  obtain ⟨s₂, h₂, hcreate⟩ := Option.bind_eq_some_iff.mp hcreate
  obtain ⟨s₃, h₃, hfinish⟩ := Option.bind_eq_some_iff.mp hcreate
  simp only [beginProcess, Option.bind_eq_bind, Option.bind_eq_some_iff, Option.pure_def,
    Option.some.injEq, Prod.mk.injEq] at hbegin
  obtain ⟨⟨p, a₁⟩, hp, ⟨stack, a₂⟩, hstack, ⟨d, a₃⟩, hd, rfl, rfl, rfl⟩ := hbegin
  -- the writes of the first part are harmless even when an allocation fails
  obtain ⟨⟨bs₁, hinv₁⟩, hp'⟩ := hinv.allocate_kernel (by rw [hdesc]; decide) hp
  have halters₁ : Alters p (p + 68) a₁ (writeFields a₁ p (initialFields eip)) :=
    Alters.writeFields (initialFields_offset eip)
  have hinv₁' := hinv₁.alters hp' (by decide) (halters₁.mono (le_refl p) (by omega))
  obtain ⟨⟨bs₂, hinv₂⟩, -⟩ := hinv₁'.allocate_kernel (by simp) hstack
  have hp₂ : p = 0 ∨ (p, processDescSize) ∈ a₂.live := by
    refine hp'.imp_right fun hmem => ?_
    obtain ⟨x, -, he⟩ := Option.map_eq_some_iff.mp hstack
    rw [← (Prod.mk.inj he).2, halters₁.only]
    dsimp only
    split
    · exact hmem
    · exact List.mem_cons_of_mem _ hmem
  have halters₂ : Alters (p + 68) (p + 72) a₂
      (a₂.write32 (p + esp0Offset) (wrap32 (stack + 4092))) :=
    Alters.write32 (by rw [esp0Offset]) (by rw [esp0Offset])
  have hinv₂' := hinv₂.alters hp₂ (by decide) (halters₂.mono (by omega) (by omega))
  obtain ⟨⟨bs₃, hinv₃⟩, hd'⟩ := hinv₂'.allocate_kernel (by simp) hd
  have hdvd : 4096 ∣ d := by
    rcases hd' with rfl | hmem
    · exact Nat.dvd_zero 4096
    · exact hinv₃.page_aligned hmem (by simp)
  refine ⟨d, ?_, hdvd⟩
  have hcopy : ∀ (u : Kernel) n, (copyKernelHalf u kernelMemory d n).cr3 = u.cr3 := by
    intro u n
    induction n with
    | zero => rfl
    | succ n ih => exact ih
  have hcr3 : s₃.cr3 = s.cr3 := by
    have hcr3₁ : a₁.cr3 = s.cr3 := allocate_cr3 hp
    rw [allocatePage_cr3 h₃, allocatePage_cr3 h₂, hcopy]
    refine (allocate_cr3 hd).trans ((allocate_cr3 hstack).trans ?_)
    rw [halters₁.only]
    exact hcr3₁
  simp only [finishProcess, Option.bind_eq_bind, Option.bind_eq_some_iff, Option.pure_def,
    Option.some.injEq] at hfinish
  obtain ⟨s₄, hprogram, rfl⟩ := hfinish
  change (queueProcess _ p).cr3 = _
  rw [queueProcess_cr3, ← hcr3]
  exact congrArg _ (writeProgram_cr3 hprogram)

/-! ### What `switch_process` loads -/

/-- The page directories that are handed to `create_process` are results of `kernel_allocate`. -/
def GrantsDirectory : SchedOp → Prop
  | .create _ _ directory _ =>
      ∃ h r, HeapReached h ∧ kernelAllocate h.ram 4096 = some (directory.toNat, r)
  | _ => True

/-- The page directories of the processes are at addresses of pages. -/
structure DirectoriesAligned (s : Scheduler) : Prop where
  ring : RingInv s
  aligned : ∀ p ∈ s.live, 4096 ∣ (s.desc p).pageDirectory.toNat

theorem pageDirectory_setContext (s : Scheduler) (p x : Word) (f : ProcessDesc → Context) :
    ((s.modify p fun d => d.setContext (f d)).desc x).pageDirectory = (s.desc x).pageDirectory := by
  by_cases hx : x = p
  · subst hx
    rw [Scheduler.desc_modify_self]
    rfl
  · rw [Scheduler.desc_modify_of_ne _ _ _ hx]

theorem pageDirectory_leaveCurrent (s : Scheduler) (c : Context) (x : Word) :
    ((leaveCurrent s c).desc x).pageDirectory = (s.desc x).pageDirectory := by
  rw [leaveCurrent]
  split
  · exact pageDirectory_setContext s _ x fun _ => c
  · split
    · exact keeps_deleteCurrent (fun _ _ => rfl) (fun _ _ => rfl) s x
    · rfl

theorem pageDirectory_patchCurrent (s : Scheduler) (w x : Word) :
    ((patchCurrent s w).desc x).pageDirectory = (s.desc x).pageDirectory :=
  pageDirectory_setContext s _ x fun d => patchContext w d.context

namespace DirectoriesAligned

variable {t t' : Scheduler}

/-- A switch keeps the page directories, and enters a process. -/
theorem switch {c : Context} {out : Option SwitchArguments} (h : DirectoriesAligned t)
    (hswitch : switchProcess t c = some (t', out)) :
    DirectoriesAligned t' ∧ ∀ args, out = some args → 4096 ∣ args.pageDirectory.toNat := by
  have hring := h.ring.tick hswitch
  rcases switchProcess_cases hswitch with ⟨-, rfl, rfl⟩ | ⟨hc, hmore, p, -, rfl, rfl⟩
  · exact ⟨h, nofun⟩
  obtain ⟨hlive, -, hmem, -⟩ := h.ring.switched hswitch hc hmore
  have hsame : ∀ q, ((patchCurrent (leaveCurrent t c) (c.frame.cs &&& 3)).desc q).pageDirectory
      = (t.desc q).pageDirectory := fun q => by
    rw [pageDirectory_patchCurrent, pageDirectory_leaveCurrent]
  have haligned :
      ∀ q, q ∈ (enterProcess (patchCurrent (leaveCurrent t c) (c.frame.cs &&& 3)) p).live → 4096 ∣
        (((patchCurrent (leaveCurrent t c) (c.frame.cs &&& 3)).desc q).pageDirectory).toNat := by
    intro q hq
    rw [hsame q]
    exact h.aligned q ((hlive q).mp hq).1
  refine ⟨⟨hring, haligned⟩, ?_⟩
  rintro args he
  obtain rfl := Option.some.inj he
  have hdvd := haligned _ hmem
  set d := ((patchCurrent (leaveCurrent t c) (c.frame.cs &&& 3)).desc p).pageDirectory with hd
  change 4096 ∣ (d - BitVec.ofNat 32 kernelBase).toNat
  have hdvd : 4096 ∣ d.toNat := hdvd
  rw [BitVec.toNat_sub, show (BitVec.ofNat 32 kernelBase).toNat = 0xc0000000 from rfl]
  omega

/-- **Every step keeps the page directories**, and what a switch loads into `cr3` is the address of
a page. -/
theorem step {op : SchedOp} (h : DirectoriesAligned t) (hfresh : AllocatesFresh t op)
    (hgrant : GrantsDirectory op) (hstep : schedStep t op = some t') : DirectoriesAligned t' := by
  cases op with
  | create p stack directory eip =>
      obtain rfl := Option.some.inj hstep
      obtain ⟨heap, r, hreached, hcall⟩ := hgrant
      have hdvd := hreached.dvd (by simp) (by simp) hcall
      refine ⟨h.ring.create hfresh.1 hfresh.2, fun q hq => ?_⟩
      rw [live_createProcess] at hq
      rw [createProcess, keeps_insertProcess (g := ProcessDesc.pageDirectory) (fun _ _ => rfl)
        (fun _ _ => rfl)]
      by_cases he : q = p
      · subst he
        rw [Scheduler.desc_modify_self]
        exact hdvd
      · rw [Scheduler.desc_modify_of_ne _ _ _ he]
        exact h.aligned q ((List.mem_cons.mp hq).resolve_left he)
  | update state =>
      obtain rfl := Option.some.inj hstep
      refine ⟨h.ring.update state, fun q hq => ?_⟩
      have hsame : ((updateProcess t state).desc q).pageDirectory = (t.desc q).pageDirectory := by
        by_cases he : q = t.currentProcess
        · subst he
          rw [updateProcess, Scheduler.desc_modify_self]
        · rw [updateProcess, Scheduler.desc_modify_of_ne _ _ _ he]
      rw [hsame]
      exact h.aligned q hq
  | tick c =>
      obtain ⟨⟨u, out⟩, hswitch, rfl⟩ := Option.map_eq_some_iff.mp hstep
      exact (h.switch hswitch).1

end DirectoriesAligned

/-! ### All of it -/

/-- **The allocator and the paging code agree on alignment**: in every run of the heap, results of
`kernel_allocate` for half a page or more are addresses of pages, the entry that `allocate_page`
writes for a new table leads to this table, and what `create_process` and `switch_process` load into
`cr3` has its low twelve bits clear. -/
theorem tables_aligned :
    (∀ h, HeapReached h → ∀ n p r, 2048 ≤ n → n < 2 ^ 31 - 1 →
        kernelAllocate h.ram n = some (p, r) → 4096 ∣ p) ∧
      (∀ (s : Kernel) (live : List (ℕ × ℕ)), HeapReached ⟨s.ram, live⟩ → ∀ pageDir addr t r,
        s.pageFreelist < kernelBase → addr < kernelBase →
        entryPresent (s.read32 (pageDir + 4 * (addr / 2 ^ 22))) = false →
        kernelAllocate s.ram 4096 = some (t, r) →
        ∃ u : Kernel, u.ram = r ∧
          allocatePage s pageDir addr = some (setPage
            (u.write32 (pageDir + 4 * (addr / 2 ^ 22)) (pde4kib (sub32 t kernelBase / 2 ^ 12))) t
            (addr / 2 ^ 12 % 2 ^ 10)) ∧
          wrap32 (entryAddr (pde4kib (sub32 t kernelBase / 2 ^ 12)) * 2 ^ 12 + kernelBase) = t) ∧
      (∀ (s s' : Kernel) (kernelMemory eip : ℕ), HeapReached ⟨s.ram, s.live⟩ → 4096 ∣ kernelMemory →
        s.createProcess kernelMemory eip = some s' →
        ∃ a b, s'.cr3 = a :: b :: s.cr3 ∧ 4096 ∣ a ∧ 4096 ∣ b) ∧
      ∀ (s₀ s s' : Scheduler) (ops : List SchedOp) (c : Context) (args : SwitchArguments),
        s₀.live = [] →
        Meets schedStep (fun s op => AllocatesFresh s op ∧ GrantsDirectory op) (initProcesses s₀)
          ops →
        exec schedStep (initProcesses s₀) ops = some s →
        switchProcess s c = some (s', some args) → 4096 ∣ args.pageDirectory.toNat := by
  have hsub : ∀ a, 4096 ∣ a → 4096 ∣ sub32 a kernelBase := by
    intro a ha
    rw [sub32, kernelBase_eq]
    omega
  refine ⟨fun h hreached n p r hle hlt hcall => hreached.dvd hle (by omega) hcall,
    fun s live hreached pageDir addr t r hlist haddr hnot hcall =>
      allocatePage_newTable hreached hlist haddr hnot hcall,
    fun s s' kernelMemory eip hreached hdvd hcreate => ?_,
    fun s₀ s s' ops c args hlive hops hexec hswitch => ?_⟩
  · obtain ⟨d, hcr3, hd⟩ := createProcess_cr3 hreached rfl hcreate
    exact ⟨_, _, hcr3, hsub _ hdvd, hsub _ hd⟩
  · have hstart : DirectoriesAligned (initProcesses s₀) :=
      ⟨RingInv.init hlive, fun p hp => absurd (hlive ▸ hp) List.not_mem_nil⟩
    have haligned := exec_invariant_of_meets (I := DirectoriesAligned)
      (fun s op s' h hop hstep => h.step hop.1 hop.2 hstep) hstart hops hexec
    exact (haligned.switch hswitch).2 args rfl

/-- The heap after `init_kernel_heap` and after one call of `kernel_allocate`. -/
theorem kernelAllocate_boot : ∃ r r', kernelAllocate bootRam 4096 = some (0xd0000000, r) ∧
    kernelAllocate r 4096 = some (0xd0002000, r') ∧
    HeapReached ⟨bootRam, []⟩ ∧ HeapReached ⟨r, [(0xd0000000, 4096)]⟩ := by
  have hblocks : allocateAll bootRam [4096, 4096] = some [0xd0000000, 0xd0002000] := by
    decide +kernel
  simp only [allocateAll, Option.bind_eq_some_iff, Option.map_eq_some_iff, Option.some.injEq,
    List.cons.injEq] at hblocks
  obtain ⟨⟨d, r⟩, hd, -, ⟨⟨t, r'⟩, ht, -, rfl, rfl⟩, rfl, htail⟩ := hblocks
  obtain rfl : t = 0xd0002000 := (List.cons.inj htail).1
  have hexec : exec heapStep ⟨bootRam, []⟩ [.allocate 4096] = some ⟨r, [(0xd0000000, 4096)]⟩ := by
    rw [exec, heapStep, hd]
    rfl
  exact ⟨r, r', hd, ht, booted_zeroRam.heap,
    ⟨zeroRam, bootRam, [.allocate 4096], rfl, initKernelHeap_zeroRam,
      ⟨show 4096 + 1 < 2 ^ 32 by simp, fun _ _ => trivial⟩, hexec⟩⟩

/-- All four on memory of zeros: a result, a new table, the first process, and a switch between two
processes. -/
theorem tables_aligned_boot :
    (∃ p r, kernelAllocate bootRam 4096 = some (p, r) ∧ p ≠ 0 ∧ 4096 ∣ p) ∧
      (∃ t r u, kernelAllocate bootRam 4096 = some (t, r) ∧
        allocatePage (bootKernel bootRam) 0xd0004000 0 = some (setPage
          (Kernel.write32 u 0xd0004000 (pde4kib (sub32 t kernelBase / 2 ^ 12))) t 0) ∧
        wrap32 (entryAddr (pde4kib (sub32 t kernelBase / 2 ^ 12)) * 2 ^ 12 + kernelBase) = t) ∧
      (∃ s a b, (bootKernel bootRam).createProcess 0xc0100000 0 = some s ∧ s.cr3 = [a, b] ∧
        4096 ∣ a ∧ 4096 ∣ b) ∧
      ∃ s s' args, exec schedStep (initProcesses idleScheduler)
          [.create 0xd0008000 0xd0004000 0xd0000000 0, .create 0xd0009000 0xd0006000 0xd0002000 0]
            = some s ∧
        switchProcess s default = some (s', some args) ∧ 4096 ∣ args.pageDirectory.toNat := by
  obtain ⟨hresults, htables, hloaded, hswitches⟩ := tables_aligned
  obtain ⟨r, r', hfirst, hsecond, hreached, hreached'⟩ := kernelAllocate_boot
  refine ⟨⟨_, r, hfirst, by simp, hresults _ hreached 4096 _ r (by simp) (by simp) hfirst⟩, ?_, ?_,
    ?_⟩
  · obtain ⟨u, -, hpage, hback⟩ := htables (bootKernel bootRam) [] hreached 0xd0004000 0 _ r
      (by decide) (by decide) (by decide +kernel) hfirst
    exact ⟨_, r, u, hfirst, hpage, hback⟩
  · obtain ⟨s, hcreate⟩ := Option.isSome_iff_exists.mp
      (show ((bootKernel bootRam).createProcess 0xc0100000 0).isSome = true by decide +kernel)
    obtain ⟨a, b, hcr3, ha, hb⟩ := hloaded (bootKernel bootRam) s 0xc0100000 0 hreached
      (by decide) hcreate
    exact ⟨s, a, b, hcreate, hcr3, ha, hb⟩
  · have hops : Meets schedStep (fun s op => AllocatesFresh s op ∧ GrantsDirectory op)
        (initProcesses idleScheduler)
        [.create 0xd0008000 0xd0004000 0xd0000000 0,
          .create 0xd0009000 0xd0006000 0xd0002000 0] := by
      refine ⟨⟨by decide, _, r, hreached, hfirst⟩, fun s hs => ⟨⟨?_, _, r', hreached', hsecond⟩,
        fun _ _ => trivial⟩⟩
      obtain rfl := Option.some.inj hs
      decide
    set s := createProcess (createProcess (initProcesses idleScheduler) 0xd0008000 0xd0004000
      0xd0000000 0) 0xd0009000 0xd0006000 0xd0002000 0 with hs
    have hsome : ((switchProcess s default).bind Prod.snd).isSome = true := by decide +kernel
    obtain ⟨args, hargs⟩ := Option.isSome_iff_exists.mp hsome
    obtain ⟨⟨s', out⟩, hswitch, he⟩ := Option.bind_eq_some_iff.mp hargs
    obtain rfl : out = some args := he
    exact ⟨s, s', args, rfl, hswitch, hswitches idleScheduler s s' _ default args rfl hops rfl
      hswitch⟩

end LoofOS
