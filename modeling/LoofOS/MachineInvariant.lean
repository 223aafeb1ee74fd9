import LoofOS.KernelMachine

/-!
# The Invariant of the Machine

The memory of the machine is that of a scheduler whose processes have two pages, a kernel stack of
their own and the contexts that were captured last, and the page directory that is loaded is that of
`kernel_memory` or of the current process. Every step keeps this (`Image.Sound`), whatever processes
store and whatever registers interrupts find.

## Main results

* `SpacesInv.userStore`: where a store in user mode goes.
* `machine_simulates`: every step of the machine is a step of the scheduler, or none.
* `machine_carriesOut`: every run.
-/

namespace LoofOS

open LinkedRing Run

/-! ### Fields that the scheduler leaves alone -/

section Keeps

variable {β : Type} {g : ProcessDesc → β} {s s' : Scheduler} {c : Context}
  {out : Option SwitchArguments} (hcontext : ∀ d c, g (d.setContext c) = g d)
  (hnext : ∀ d w, g { d with next := w } = g d) (hprev : ∀ d w, g { d with prev := w } = g d)

include hcontext in
/-- A context that is written to a descriptor leaves its other fields alone. -/
theorem keeps_setContext (s : Scheduler) (p x : Word) (f : ProcessDesc → Context) :
    g ((s.modify p fun d => d.setContext (f d)).desc x) = g (s.desc x) := by
  by_cases hx : x = p
  · rw [hx, Scheduler.desc_modify_self, hcontext]
  · rw [Scheduler.desc_modify_of_ne _ _ _ hx]

include hcontext hnext hprev in
/-- **What a timer interrupt keeps** of a descriptor: all but the register sets and the links. -/
theorem keeps_switchProcess (hstep : switchProcess s c = some (s', out)) (x : Word) :
    g (s'.desc x) = g (s.desc x) := by
  rcases switchProcess_cases hstep with ⟨-, rfl, -⟩ | ⟨-, -, p, -, rfl, -⟩
  · rfl
  · have hleave : g ((leaveCurrent s c).desc x) = g (s.desc x) := by
      rw [leaveCurrent]
      split
      · exact keeps_setContext hcontext s _ x fun _ => c
      · split
        · exact keeps_deleteCurrent hnext hprev s x
        · rfl
    exact (keeps_setContext hcontext _ _ x fun d => patchContext (c.frame.cs &&& 3) d.context).trans
      hleave

end Keeps

/-! ### Stores in user mode -/

/-- The entry of a page of 4 MiB that is not for users. -/
theorem translate_pde4mib {m : Mem} {cr3 addr g i : ℕ} {acc : Access}
    (hentry : readPhysical m (cr3 / 2 ^ 12 * 2 ^ 12 + 4 * (addr / 2 ^ 22)) = pde4mib g i)
    (h : translate m cr3 addr = some acc) : acc.us = false := by
  have hps : entryPs (pde4mib g i) = true := by
    rw [entryPs, pde4mib, decide_eq_true_eq]
    omega
  have hus : entryUs (pde4mib g i) = false := by
    rw [entryUs, pde4mib, decide_eq_false_iff_not]
    omega
  rw [translate] at h
  simp only [hentry, hps, hus, if_true] at h
  split at h
  · obtain rfl := Option.some.inj h
    rfl
  · cases h

variable {img : Image} {m m' : Machine} {k k' : Kernel} {s s' : Scheduler} {bs bs' : List Block}
  {tables tables' free free' : List ℕ} {kernelMemory : ℕ}

/-- **Users reach nothing** while `kernel_memory` is loaded. -/
theorem KernelMapped.us {mem : Mem} {addr : ℕ} {acc : Access}
    (h : KernelMapped kernelMemory mem) (hplace : KernelPlace kernelMemory) (haddr : addr < 2 ^ 32)
    (hacc : translate mem (sub32 kernelMemory kernelBase) addr = some acc) : acc.us = false := by
  have hlt : addr / 2 ^ 22 < 1024 := by omega
  have hread : readPhysical mem
      (sub32 kernelMemory kernelBase / 2 ^ 12 * 2 ^ 12 + 4 * (addr / 2 ^ 22))
        = Mem.entry mem kernelMemory (addr / 2 ^ 22) := by
    rw [hplace.isPage.physical, readPhysical_entry hplace.isPage hlt]
  by_cases hlow : addr / 2 ^ 22 < 768
  · exact translate_pde4mib (hread.trans (h.user _ hlow)) hacc
  · have hentry := h.kernel (addr / 2 ^ 22 - 768) (by omega)
    rw [Nat.sub_add_cancel (by omega)] at hentry
    exact translate_pde4mib (hread.trans hentry) hacc

/-- The frame of a page that is mapped, as an address of the kernel. -/
theorem wrap32_physical {a : ℕ} (hlow : pageOffset ≤ a) (hlt : a < 2 ^ 32) :
    wrap32 (a + kernelBase) = a - pageOffset := by
  rw [wrap32, kernelBase_eq, pageOffset] at *
  omega

/-- What a user reaches lies below `KERNEL_BASE`, in a page that belongs to the process alone. -/
theorem SpacesInv.userAccess_bounds {d addr : ℕ} {acc : Access}
    (h : SpacesInv userIndex kernelMemory k bs tables free) (hd : d ∈ k.directories)
    (hacc : UserAccess k.ram.byte d addr acc) :
    wrap32 (acc.physical + kernelBase) = acc.physical - pageOffset ∧
      acc.physical - pageOffset < kernelBase ∧
      ∀ a ∈ free, acc.physical - pageOffset < a ∨ a + 4096 ≤ acc.physical - pageOffset := by
  obtain ⟨f, hmaps, hdiv, hle, hdvd, hoffset⟩ := h.userAccess hd hacc
  obtain ⟨-, -, hlt⟩ := h.space.mapped.pageOf_bounds hmaps.1 hmaps.2.1 hmaps.2.2
  have hphysical : acc.physical < 2 ^ 32 := by omega
  have hlow : pageOffset ≤ acc.physical := hoffset.trans hle
  refine ⟨wrap32_physical hlow hphysical, ?_, fun a ha => ?_⟩
  · rw [kernelBase_eq, pageOffset] at *
    omega
  · have hne : f ≠ a + pageOffset := fun he =>
      h.space.apart.free _ _ hmaps (List.mem_map.mpr ⟨a, ha, he.symm⟩)
    have hadvd := (h.space.frame a ha).1.dvd
    have hpage : 4096 ∣ pageOffset := by decide
    omega

/-- **A store in user mode** takes place in the address space of a process, and the page allocator
does not notice it. -/
theorem SpacesInv.userStore {addr : ℕ} {b : UInt8}
    (h : SpacesInv userIndex kernelMemory k bs tables free) (hplace : KernelPlace kernelMemory)
    (hcr3 : k.cr3.headD 0 = sub32 kernelMemory kernelBase ∨
      ∃ d ∈ k.directories, k.cr3.headD 0 = sub32 d kernelBase)
    (haddr : addr < 2 ^ 32) (hstore : k.userStore addr b = some k') :
    ∃ d ∈ k.directories, k.cr3.headD 0 = sub32 d kernelBase ∧ ∃ acc,
      UserAccess k.ram.byte d addr acc ∧
      k' = { k with ram := k.ram.store (acc.physical - pageOffset) b } ∧
      Quiet userIndex kernelMemory bs tables free k k' := by
  obtain ⟨acc, hacc, hif⟩ := Option.bind_eq_some_iff.mp hstore
  split at hif
  swap
  · cases hif
  rename_i hboth
  have hus := (Bool.and_eq_true_iff.mp hboth).2
  obtain rfl := Option.some.inj hif
  rcases hcr3 with hkernel | ⟨d, hd, hdir⟩
  · rw [hkernel] at hacc
    rw [h.kernel.us hplace haddr hacc] at hus
    cases hus
  · rw [hdir] at hacc
    have huser : UserAccess k.ram.byte d addr acc := ⟨haddr, hacc, hus⟩
    obtain ⟨hwrap, hlt, hfree⟩ := h.userAccess_bounds hd huser
    rw [hwrap]
    refine ⟨d, hd, hdir, acc, huser, rfl, ?_⟩
    generalize acc.physical - pageOffset = y at hlt hfree
    refine h.quiet_writes hplace (fun x hx => Mem.store_of_ne b ?_)
      fun q hq x hx _ => Mem.store_of_ne b ?_
    · rintro rfl
      refine hx (Or.inr ⟨hlt, fun a ha => ?_⟩)
      have := hfree a ha
      omega
    · have hbounds := (h.space.desc_bounds (h.descriptor_not_page hq).1).1
      omega

/-! ### The invariant -/

/-- A kernel stack: a block of the heap that is neither a page directory nor a page table, with the
top that the TSS gets. -/
structure KernelStack (k : Kernel) (tables : List ℕ) (esp0 : Word) (stack : ℕ) : Prop where
  live : (stack, 4096) ∈ k.live
  page : stack ∉ k.directories ++ tables
  top : esp0.toNat = stack + 4092

/-- After a process `p` is created: it has the kernel stack `a`, and the others have other ones. -/
structure NewStack (k : Kernel) (tables : List ℕ) (s s' : Scheduler) (p : Word) (a : ℕ) : Prop where
  new : KernelStack k tables (s'.desc p).esp0 a
  old : ∀ q ∈ s.live, ∃ e, e ≠ a ∧ KernelStack k tables (s'.desc q).esp0 e

/-- So no other process has its stack pointer. -/
theorem NewStack.apart {p : Word} {a : ℕ} (h : NewStack k tables s s' p a) :
    ∀ q ∈ s.live, (s'.desc q).esp0 ≠ (s'.desc p).esp0 := by
  intro q hq he
  obtain ⟨e, hne, hstack⟩ := h.old q hq
  have htops := congrArg BitVec.toNat he
  rw [hstack.top, h.new.top] at htops
  omega

/-- The page directory and the kernel stack of the current process are loaded. -/
structure Image.Loaded (img : Image) (k : Kernel) (s : Scheduler) : Prop where
  current : s.currentProcess ≠ 0
  directory : k.cr3.headD 0 = (switchArguments s).pageDirectory.toNat
  stack : k.read32 (img.tss + 4) = s.current.esp0.toNat

/-- A block of the heap that belongs to the kernel and to no process. -/
structure KernelBlock (k : Kernel) (tables : List ℕ) (a n : ℕ) : Prop where
  live : (a, n) ∈ k.live
  page : a ∉ k.directories ++ tables
  descriptor : a ∉ k.descriptors
  stack : ∀ q ∈ k.descriptors, k.read32 (q + esp0Offset) ≠ a + 4092

/-- A process that is added takes no block of the kernel. -/
theorem Added.kernelBlock {p b a n stack : ℕ} (h : Added k k' bs bs' tables tables' p stack b)
    (hdesc : k'.descriptors = p :: k.descriptors) (hp : k'.read32 (p + esp0Offset) = stack + 4092)
    (hold : ∀ q ∈ k.descriptors, k'.read32 (q + esp0Offset) = k.read32 (q + esp0Offset))
    (hblock : KernelBlock k tables a n) : KernelBlock k' tables' a n ∧
      ∀ x, a ≤ x → x < a + n → k'.ram.byte x = k.ram.byte x := by
  obtain ⟨hlive, hpage⟩ := h.other a n hblock.live hblock.page
  obtain ⟨hne, hstack, hbytes⟩ := h.kept a n hblock.live hblock.page hblock.descriptor
  refine ⟨⟨hlive, hpage, ?_, fun q hq => ?_⟩, hbytes⟩
  · rw [hdesc, List.mem_cons, not_or]
    exact ⟨hne, hblock.descriptor⟩
  · rw [hdesc] at hq
    rcases List.mem_cons.mp hq with rfl | hq
    · rw [hp]
      omega
    · rw [hold q hq]
      exact hblock.stack q hq

/-- What `create_process` takes from the heap and from the free list, and what it leaves alone. -/
structure Takes (k k' : Kernel) (bs bs' : List Block) (tables tables' free free' : List ℕ) :
    Prop where
  kept : ∀ a n, KernelBlock k tables a n → KernelBlock k' tables' a n ∧
    ∀ x, a ≤ x → x < a + n → k'.ram.byte x = k.ram.byte x
  unused : ∀ x, FreeByte bs' x → FreeByte bs x ∧ k'.ram.byte x = k.ram.byte x
  frames : free.length = free'.length + 2
  processes : ∃ x, k'.processes = x :: k.processes

/-- What is loaded depends on these fields of the current process only. -/
theorem Image.Loaded.congr (h : img.Loaded k s) (hcurrent : s'.currentProcess = s.currentProcess)
    (hdirectory : s'.current.pageDirectory = s.current.pageDirectory)
    (hesp0 : s'.current.esp0 = s.current.esp0) (hcr3 : k'.cr3 = k.cr3)
    (hread : k'.read32 (img.tss + 4) = k.read32 (img.tss + 4)) : img.Loaded k' s' := by
  refine ⟨hcurrent ▸ h.current, ?_, by rw [hread, hesp0, h.stack]⟩
  rw [hcr3, h.directory, switchArguments, switchArguments, hdirectory]

/-- **`switch_process`**, when it enters a process. -/
structure Switches (img : Image) (k k' : Kernel) (s' : Scheduler) : Prop where
  entered : s'.currentProcess ≠ 0 ∧ s'.currentProcess ∈ s'.live
  stack : k'.read32 (img.tss + 4) = s'.current.esp0.toNat
  cr3 : k'.cr3 = k.cr3
  outside : ∀ x, x < k.currentProcess ∨ k.currentProcess + esp0Offset ≤ x →
    x < img.tss + 4 ∨ img.tss + 8 ≤ x → k'.ram.byte x = k.ram.byte x

/-- The top of a kernel stack in memory is the one in the record. -/
theorem Represents.esp0 (h : Represents k s) {p : Word} (hp : p ∈ s.live) :
    (s.desc p).esp0.toNat = k.read32 (p.toNat + esp0Offset) := by
  rw [h.desc p hp]
  exact toNat_wordAt _ _

/-- The state of the machine: the memory of the kernel is that of the scheduler `s`. -/
structure Image.Sound (img : Image) (m : Machine) (s : Scheduler) (bs : List Block)
    (tables free : List ℕ) : Prop where
  spaces : SpacesInv userIndex img.kernelMemory m.kernel bs tables free
  pages : TwoPages m.kernel
  records : Represents m.kernel s
  faithful : Faithful s m.captured
  state : ∀ p ∈ s.live, (s.desc p).state = 0 ∨ (s.desc p).state = 1
  stack : ∀ p ∈ s.live, ∃ a, KernelStack m.kernel tables (s.desc p).esp0 a
  own : ∀ p ∈ s.live, ∀ q ∈ s.live, (s.desc p).esp0 = (s.desc q).esp0 → p = q
  cpu : m.kernel.cr3.headD 0 = sub32 img.kernelMemory kernelBase ∨ img.Loaded m.kernel s
  boot : m.switching = false → m.kernel.cr3.headD 0 = sub32 img.kernelMemory kernelBase

/-- A quiet step maps no page. -/
theorem Quiet.twoPages (h : Quiet userIndex kernelMemory bs tables free k k')
    (hk : SpacesInv userIndex kernelMemory k bs tables free) (hpages : TwoPages k) :
    TwoPages k' := by
  intro d hd n hn
  rw [h.directories] at hd
  rw [h.pageOf hk hd hn]
  exact hpages d hd n hn

/-- A quiet step frees no kernel stack. -/
theorem KernelStack.quiet {esp0 : Word} {a : ℕ} (h : KernelStack k tables esp0 a)
    (hq : Quiet userIndex kernelMemory bs tables free k k') : KernelStack k' tables esp0 a :=
  ⟨hq.live ▸ h.live, hq.directories ▸ h.page, h.top⟩

/-- The physical address of a page directory. -/
theorem toNat_sub_kernelBase (w : Word) :
    (w - BitVec.ofNat 32 kernelBase).toNat = sub32 w.toNat kernelBase := by
  have hlt := w.isLt
  rw [BitVec.toNat_sub, BitVec.toNat_ofNat, sub32, kernelBase_eq]
  omega

namespace Image.Sound

/-- The descriptors do not overlap. -/
theorem separate (h : img.Sound m s bs tables free) : Separate m.kernel.descriptors :=
  ⟨h.spaces.queue.apart, h.spaces.queue.lt⟩

/-- The TSS lies below the descriptors. -/
theorem tss_below (h : img.Sound m s bs tables free) :
    ∀ q ∈ m.kernel.descriptors, img.tss + 8 ≤ q := fun _ hq =>
  img.tss_below.trans (h.spaces.space.heap.live_bounds (h.spaces.descriptor_not_page hq).1).1.le

/-- While there is a current process, it is in the ring. -/
theorem current_mem (h : img.Sound m s bs tables free) (hc : m.kernel.currentProcess ≠ 0) :
    s.currentProcess ≠ 0 ∧ s.currentProcess ∈ s.live :=
  h.records.current_mem h.faithful.ring hc

/-- No process has ended. -/
theorem state_ne (h : img.Sound m s bs tables free) (p : Word) (hp : p ∈ s.live) :
    (s.desc p).state ≠ 2 := by
  rcases h.state p hp with he | he <;> rw [he] <;> decide

/-- The current process has not ended, in memory. -/
theorem not_ended (h : img.Sound m s bs tables free) (hc : m.kernel.currentProcess ≠ 0) :
    m.kernel.stateOf m.kernel.currentProcess ≠ 2 := by
  obtain ⟨-, hmem⟩ := h.current_mem hc
  intro he
  rw [← h.records.current] at he
  exact h.state_ne _ hmem ((h.records.state_iff hmem 2).mpr he)

/-- The page directory of a process. -/
theorem directory (h : img.Sound m s bs tables free) {p : Word} (hp : p ∈ s.live) :
    (p.toNat, (s.desc p).pageDirectory.toNat) ∈ m.kernel.processes := by
  obtain ⟨⟨q, d⟩, hx, rfl⟩ := List.mem_map.mp (h.records.mem hp)
  have hd := h.spaces.directory _ hx
  rw [h.records.desc p hp]
  have hword : (descAt m.kernel.ram.byte p.toNat).pageDirectory.toNat
      = m.kernel.read32 (p.toNat + pageDirectoryOffset) := toNat_wordAt _ _
  exact (hword.trans hd).symm ▸ hx

/-- Every process has a descriptor of its own. -/
theorem descriptors_nodup (h : img.Sound m s bs tables free) : m.kernel.descriptors.Nodup := by
  rw [← h.records.live]
  refine List.Nodup.map (fun _ _ => BitVec.eq_of_toNat_eq) ?_
  rcases h.faithful.ring.ring with ⟨-, hl⟩ | ⟨l, hring, hperm⟩
  · exact hl ▸ List.nodup_nil
  · exact hperm.nodup_iff.mp hring.nodup

/-- The page directory that is loaded, when it is that of a process. -/
theorem loaded (h : img.Sound m s bs tables free) :
    m.kernel.cr3.headD 0 = sub32 img.kernelMemory kernelBase ∨
      ∃ d, (m.kernel.currentProcess, d) ∈ m.kernel.processes ∧
        m.kernel.cr3.headD 0 = sub32 d kernelBase := by
  refine h.cpu.imp_right fun hload => ?_
  have hmem := h.faithful.ring.current_mem hload.current
  refine ⟨_, h.records.current ▸ h.directory hmem, ?_⟩
  rw [hload.directory, ← toNat_sub_kernelBase]
  rfl

/-- One of the page directories that exist is loaded. -/
theorem loaded_directory (h : img.Sound m s bs tables free) :
    m.kernel.cr3.headD 0 = sub32 img.kernelMemory kernelBase ∨
      ∃ d ∈ m.kernel.directories, m.kernel.cr3.headD 0 = sub32 d kernelBase := by
  refine h.loaded.imp_right fun hload => ?_
  obtain ⟨d, hmem, he⟩ := hload
  exact ⟨d, Kernel.mem_directories hmem, he⟩

/-- Page directories in the kernel half are told apart by their physical addresses. -/
theorem sub32_kernelBase_inj {a b : ℕ} (ha : kernelBase ≤ a ∧ a < 2 ^ 32)
    (hb : kernelBase ≤ b ∧ b < 2 ^ 32) (h : sub32 a kernelBase = sub32 b kernelBase) : a = b := by
  rw [sub32, sub32, kernelBase_eq] at *
  omega

/-- Page directories are in the heap. -/
theorem directory_bounds (h : img.Sound m s bs tables free) {d : ℕ}
    (hd : d ∈ m.kernel.directories) : kernelHeap.start < d ∧ kernelBase ≤ d ∧ d < 2 ^ 32 := by
  have hstart := (h.spaces.space.heap.live_bounds
    (h.spaces.space.live d (List.mem_append_left _ hd))).1
  exact ⟨hstart, kernelBase_le_heap.trans hstart.le, (h.spaces.space.mapped.dir_page hd).lt⟩

/-- A page directory of a process is not `kernel_memory`. -/
theorem directory_ne (h : img.Sound m s bs tables free) {d : ℕ} (hd : d ∈ m.kernel.directories) :
    sub32 d kernelBase ≠ sub32 img.kernelMemory kernelBase := by
  obtain ⟨hstart, hbounds⟩ := h.directory_bounds hd
  have hbelow := img.place.below
  intro he
  have hsame := sub32_kernelBase_inj hbounds ⟨img.place.above, img.place.isPage.lt⟩ he
  omega

/-- **A step that creates no process**, with the scheduler's step. -/
theorem quiet {on : Bool} {hist : History} (h : img.Sound m s bs tables free)
    (hq : Quiet userIndex img.kernelMemory bs tables free m.kernel k') (hrec : Represents k' s')
    (hfaithful : Faithful s' hist) (hlive : s'.live = s.live)
    (hesp0 : ∀ p ∈ s.live, (s'.desc p).esp0 = (s.desc p).esp0)
    (hstate : ∀ p ∈ s.live, (s'.desc p).state = 0 ∨ (s'.desc p).state = 1)
    (hcpu : k'.cr3.headD 0 = sub32 img.kernelMemory kernelBase ∨ img.Loaded k' s')
    (hboot : on = false → k'.cr3.headD 0 = sub32 img.kernelMemory kernelBase) :
    img.Sound ⟨k', on, hist⟩ s' bs tables free where
  spaces := hq.spaces
  pages := hq.twoPages h.spaces h.pages
  records := hrec
  faithful := hfaithful
  state p hp := hstate p (hlive ▸ hp)
  stack p hp := by
    have hp : p ∈ s.live := hlive ▸ hp
    obtain ⟨a, ha⟩ := h.stack p hp
    exact ⟨a, (hesp0 p hp).symm ▸ ha.quiet hq⟩
  own p hp q hq he := by
    have hp : p ∈ s.live := hlive ▸ hp
    have hq : q ∈ s.live := hlive ▸ hq
    exact h.own p hp q hq (by rw [← hesp0 p hp, ← hesp0 q hq, he])
  cpu := hcpu
  boot := hboot

/-- Of the scheduler nothing changes, and the page directory and the TSS stay as they are. -/
theorem stutter (h : img.Sound m s bs tables free) {r : Ram}
    (hq : Quiet userIndex img.kernelMemory bs tables free m.kernel { m.kernel with ram := r })
    (hsame : ∀ q ∈ m.kernel.descriptors, ∀ x, q ≤ x → x < q + processDescSize →
      r.byte x = m.kernel.ram.byte x)
    (htss : ∀ x, img.tss + 4 ≤ x → x < img.tss + 8 → r.byte x = m.kernel.ram.byte x) :
    img.Sound { m with kernel := { m.kernel with ram := r } } s bs tables free := by
  refine h.quiet hq (h.records.congr rfl rfl hsame) h.faithful rfl (fun _ _ => rfl) h.state
    (h.cpu.imp_right fun hload => ⟨hload.current, hload.directory, ?_⟩) h.boot
  exact (Mem.read32_congr fun x hx hx' => htss x hx hx').trans hload.stack

/-! ### The steps -/

/-- **`enable_switching`.** -/
theorem enableSwitching (h : img.Sound m s bs tables free) :
    img.Sound { m with switching := true } s bs tables free :=
  ⟨h.spaces, h.pages, h.records, h.faithful, h.state, h.stack, h.own, h.cpu, nofun⟩

/-- **A store in user mode.** -/
theorem userStore {addr : ℕ} {b : UInt8} (h : img.Sound m s bs tables free) (haddr : addr < 2 ^ 32)
    (hstore : m.kernel.userStore addr b = some k') :
    img.Sound { m with kernel := k' } s bs tables free := by
  obtain ⟨d, hd, -, acc, hacc, rfl, hq⟩ := h.spaces.userStore img.place
    h.loaded_directory haddr hstore
  obtain ⟨-, hlt, -⟩ := h.spaces.userAccess_bounds hd hacc
  generalize acc.physical - pageOffset = y at hlt hq
  have habove := img.above
  refine h.stutter hq (fun q hq x hx _ => Mem.store_of_ne b ?_) fun x hx _ => Mem.store_of_ne b ?_
  · have hbounds := (h.spaces.space.desc_bounds (h.spaces.descriptor_not_page hq).1).1
    omega
  · omega

/-- What is pushed goes to a block of the current process. -/
theorem push_bounds {addr : ℕ} {b : UInt8} (h : img.Sound m s bs tables free)
    (hop : img.Allows m (.kernelPush addr b)) :
    kernelHeap.start < addr ∧
      SpaceInv.Harmless m.kernel.live m.kernel.directories tables free addr ∧
      ∀ q ∈ m.kernel.descriptors, ∀ x, q ≤ x → x < q + processDescSize → x ≠ addr := by
  obtain ⟨hprocess, hlow, hhigh⟩ := hop
  have hload := h.cpu.resolve_left hprocess
  have hmem := h.faithful.ring.current_mem hload.current
  obtain ⟨a, ha⟩ := h.stack _ hmem
  have htop : m.kernel.read32 (img.tss + 4) = a + 4092 := hload.stack.trans ha.top
  rw [htop] at hlow hhigh
  have hin : a ≤ addr ∧ addr < a + 4096 := ⟨by omega, by omega⟩
  have hstart := (h.spaces.space.heap.live_bounds ha.live).1
  refine ⟨by omega, Or.inl ⟨a, 4096, ha.live, ha.page, hin⟩, fun q hq x hx hx' => ?_⟩
  have hlive := (h.spaces.descriptor_not_page hq).1
  have hne : q ≠ a := by
    rintro rfl
    exact absurd (h.spaces.space.heap.live_unique hlive ha.live) (by decide)
  have happart := h.spaces.space.heap.live_apart hlive ha.live hne
  omega

/-- A push maps no page and changes no link. -/
theorem quiet_push {addr : ℕ} {b : UInt8} (h : img.Sound m s bs tables free)
    (hop : img.Allows m (.kernelPush addr b)) :
    Quiet userIndex img.kernelMemory bs tables free m.kernel (m.kernel.push addr b) := by
  obtain ⟨-, hharmless, hdesc⟩ := h.push_bounds hop
  have hoffset : stateOffset ≤ processDescSize := by decide
  refine h.spaces.quiet_writes img.place (fun x hx => Mem.store_of_ne b ?_)
    fun q hq x hx hx' => Mem.store_of_ne b (hdesc q hq x (by omega) (by omega))
  rintro rfl
  exact hx hharmless

/-- **A push** onto the kernel stack of the current process. -/
theorem kernelPush {addr : ℕ} {b : UInt8} (h : img.Sound m s bs tables free)
    (hop : img.Allows m (.kernelPush addr b)) :
    img.Sound { m with kernel := m.kernel.push addr b } s bs tables free := by
  obtain ⟨hstart, -, hdesc⟩ := h.push_bounds hop
  have hbelow := img.tss_below
  exact h.stutter (h.quiet_push hop) (fun q hq x hx hx' => Mem.store_of_ne b (hdesc q hq x hx hx'))
    fun x _ hx => Mem.store_of_ne b (by omega)

/-- **A store to the stack of `kernel_main`.** -/
theorem bootPush {addr : ℕ} {b : UInt8} (h : img.Sound m s bs tables free)
    (hop : img.Allows m (.bootPush addr b)) :
    img.Sound { m with kernel := m.kernel.push addr b } s bs tables free := by
  have hbelow := img.below
  have htop := bootStackTop_below
  obtain ⟨hlow, hhigh⟩ := hop
  refine h.stutter (h.spaces.quiet_bootPush hlow hhigh b) (fun q hq x hx _ => ?_)
    fun x _ hx => Mem.store_of_ne b (by omega)
  have hstart := (h.spaces.space.heap.live_bounds (h.spaces.descriptor_not_page hq).1).1
  exact Mem.store_of_ne b (by omega)

/-- `update_process` maps no page and changes no link. -/
theorem quiet_updateProcess (h : img.Sound m s bs tables free) (hc : m.kernel.currentProcess ≠ 0)
    (state : UInt8) :
    Quiet userIndex img.kernelMemory bs tables free m.kernel (m.kernel.updateProcess state) := by
  have hoffset : processDescSize = stateOffset + 1 := rfl
  exact h.spaces.quiet_descriptor img.place
    (h.records.current ▸ h.records.mem (h.current_mem hc).2)
    (Alters.store (Nat.le_refl _) (Nat.lt_succ_self _)) (Nat.le_add_right _ stateOffset) (by omega)
    (Or.inr (Nat.le_refl _))

/-- **`update_process`.** -/
theorem updateProcess {state : UInt8} (h : img.Sound m s bs tables free)
    (hop : img.Allows m (.updateProcess state)) :
    img.Sound { m with kernel := m.kernel.updateProcess state }
      (LoofOS.updateProcess s (BitVec.ofNat 8 state.toNat)) bs tables free := by
  obtain ⟨hc, hstate⟩ := hop
  obtain ⟨-, hmem⟩ := h.current_mem hc
  set w := BitVec.ofNat 8 state.toNat with hw
  have hword : w = 0 ∨ w = 1 := by
    rcases hstate with rfl | rfl
    · exact Or.inl rfl
    · exact Or.inr rfl
  have hdesc : ∀ p, ∃ v, (LoofOS.updateProcess s w).desc p = { s.desc p with state := v } ∧
      (v = (s.desc p).state ∨ v = w) := by
    intro p
    rw [LoofOS.updateProcess]
    by_cases hp : p = s.currentProcess
    · subst hp
      exact ⟨w, Scheduler.desc_modify_self _ _ _, Or.inr rfl⟩
    · exact ⟨_, Scheduler.desc_modify_of_ne _ _ _ hp, Or.inl rfl⟩
  obtain ⟨v, hv, -⟩ := hdesc s.currentProcess
  have hcurrent : (LoofOS.updateProcess s w).current = { s.current with state := v } := hv
  refine h.quiet (h.quiet_updateProcess hc state)
    (h.records.updateProcess h.faithful.ring h.separate hc state)
    (h.faithful.update (hword.imp_right Or.inl)) rfl (fun p _ => ?_) (fun p hp => ?_)
    (h.cpu.imp_right fun hload => hload.congr rfl ?_ ?_ rfl ?_) h.boot
  · obtain ⟨v, hv, -⟩ := hdesc p
    rw [hv]
  · obtain ⟨v, hv, hor⟩ := hdesc p
    rw [hv]
    rcases hor with rfl | rfl
    · exact h.state p hp
    · exact hword
  · rw [hcurrent]
  · rw [hcurrent]
  · have htss := h.tss_below _ (h.records.current ▸ h.records.mem hmem)
    exact Mem.read32_store_of_outside (Or.inr (by omega))

/-- The TSS is set to the kernel stack of the current process. -/
theorem read32_setTssStack (k : Kernel) (tss esp0 : ℕ) :
    (k.setTssStack tss esp0).read32 (tss + 4) = esp0 % 2 ^ 32 := Mem.read32_write32_self _ _ _

/-- What `set_tss_stack` gets. -/
theorem current_esp0 (h : img.Sound m s bs tables free) (hc : m.kernel.currentProcess ≠ 0) :
    m.kernel.read32 (m.kernel.currentProcess + esp0Offset) = s.current.esp0.toNat := by
  rw [← h.records.current]
  exact (h.records.esp0 (h.current_mem hc).2).symm

/-- The TSS is not part of a descriptor. -/
theorem represents_setTssStack (h : img.Sound m s bs tables free) (esp0 : ℕ) :
    Represents (m.kernel.setTssStack img.tss esp0) s := by
  refine h.records.congr rfl rfl fun q hq x hx _ => Mem.write32_of_outside ?_
  have := h.tss_below q hq
  omega

/-- `force_enter_userland` loads the current process. -/
theorem loaded_forceEnterUserland (h : img.Sound m s bs tables free)
    (hc : m.kernel.currentProcess ≠ 0) :
    img.Loaded (m.kernel.forceEnterUserland img.tss) s := by
  obtain ⟨hne, hmem⟩ := h.current_mem hc
  refine ⟨hne, ?_, ?_⟩
  · rw [← (h.represents_setTssStack (m.kernel.read32 _)).switchArguments hmem]
    rfl
  · refine (read32_setTssStack m.kernel img.tss _).trans ?_
    rw [h.current_esp0 hc, Nat.mod_eq_of_lt (BitVec.isLt _)]

/-- **`force_enter_userland`.** -/
theorem forceEnterUserland (h : img.Sound m s bs tables free)
    (hop : img.Allows m .forceEnterUserland) :
    img.Sound { m with kernel := m.kernel.forceEnterUserland img.tss } s bs tables free := by
  obtain ⟨hswitching, hc⟩ := hop
  have hq := h.spaces.quiet_setTssStack (m.kernel.read32 (m.kernel.currentProcess + esp0Offset))
  have hrec := h.represents_setTssStack (m.kernel.read32 (m.kernel.currentProcess + esp0Offset))
  refine h.quiet (hq.trans (hq.spaces.quiet_enablePaging _)) ⟨hrec.current, hrec.live, hrec.desc⟩
    h.faithful rfl (fun _ _ => rfl) h.state (Or.inr (h.loaded_forceEnterUserland hc))
    fun hoff => ?_
  rw [hswitching] at hoff
  cases hoff

/-- **`switch_process`** in memory. -/
theorem switchProcess {c : Context} {out : Option SwitchArguments}
    (h : img.Sound m s bs tables free)
    (hswitch : m.kernel.switchProcess img.tss c = some (k', out)) :
    ∃ s', LoofOS.switchProcess s c = some (s', out) ∧ Represents k' s' ∧
      Quiet userIndex img.kernelMemory bs tables free m.kernel k' ∧
      (m.kernel.currentProcess = 0 ∨
          m.kernel.nextOf m.kernel.currentProcess = m.kernel.currentProcess →
        out = none ∧ k' = m.kernel ∧ s' = s) ∧
      (m.kernel.currentProcess ≠ 0 →
          m.kernel.nextOf m.kernel.currentProcess ≠ m.kernel.currentProcess →
        out = some (switchArguments s') ∧ Switches img m.kernel k' s') := by
  have hring := h.faithful.ring
  rcases h.records.switchProcess hring h.separate h.not_ended h.tss_below c with
    ⟨hnone, -⟩ | ⟨k₁, s', out₁, hk, hs, hrec⟩
  · exact absurd (hnone.symm.trans hswitch) nofun
  obtain ⟨rfl, rfl⟩ := Prod.mk.inj (Option.some.inj (hk.symm.trans hswitch))
  have hstays := h.records.stays_iff hring
  rcases switchProcess_cases hs with ⟨hstay, rfl, rfl⟩ | ⟨hne, hmore, p, -, -, hout⟩
  · have hearly : m.kernel.switchProcess img.tss c = some (m.kernel, none) :=
      if_pos (hstays.mp hstay)
    obtain ⟨rfl, -⟩ := Prod.mk.inj (Option.some.inj (hearly.symm.trans hswitch))
    exact ⟨s', hs, hrec, Quiet.refl h.spaces, fun _ => ⟨rfl, rfl, rfl⟩,
      fun hc hm => absurd (hstays.mp hstay) (not_or.mpr ⟨hc, hm⟩)⟩
  · have hstay := mt hstays.mpr (not_or.mpr ⟨hne, hmore⟩)
    obtain ⟨hc, hmore'⟩ := not_or.mp hstay
    obtain ⟨-, -, hentered, -⟩ := hring.switched hs hne hmore
    have hzero := (hring.tick hs).null
    rw [Kernel.switchProcess_eq img.tss hc hmore' (h.not_ended hc)] at hswitch
    obtain ⟨q, hq, he⟩ := Option.map_eq_some_iff.mp hswitch
    obtain ⟨rfl, -⟩ := Prod.mk.inj he
    have hoffset : esp0Offset = 68 ∧ pageDirectoryOffset = 72 ∧ processDescSize = 85 :=
      ⟨rfl, rfl, rfl⟩
    have halters := Kernel.alters_left m.kernel c
    have hleft := h.spaces.quiet_descriptor img.place
      (h.records.current ▸ h.records.mem (h.current_mem hc).2) halters (Nat.le_refl _) (by omega)
      (Or.inl (by omega))
    set u := m.kernel.left c with hu
    have hcurrent : s'.currentProcess.toNat = q := hrec.current
    have hqmem : q ∈ u.descriptors := by
      rw [← hcurrent]
      exact hrec.mem hentered
    have henter := hleft.spaces.quiet_current hqmem
    have hbelow : img.tss + 8 ≤ q := h.tss_below q (hleft.descriptors ▸ hqmem)
    set w := u.read32 (q + esp0Offset) with hw
    have hesp0 := hrec.esp0 hentered
    have hsame : (u.enterProcess img.tss q).read32 (q + esp0Offset) = w :=
      Mem.read32_congr fun x hx _ => Mem.write32_of_outside (by omega)
    refine ⟨s', hs, hrec, hleft.trans (henter.trans (henter.spaces.quiet_setTssStack w)),
      fun he => absurd he hstay, fun _ _ => ⟨hout, ⟨⟨?_, hentered⟩, ?_, ?_, fun x hx hx' => ?_⟩⟩⟩
    · exact fun hz => hzero (hz ▸ hentered)
    · rw [Scheduler.current, hesp0, hcurrent, hsame]
      exact (read32_setTssStack _ img.tss w).trans (Nat.mod_eq_of_lt (Mem.read32_lt _ _))
    · change u.cr3 = m.kernel.cr3
      rw [halters.only]
    · exact (Mem.write32_of_outside (by omega)).trans (halters.outside x hx)

/-- **Where a process can store**: in its two pages. -/
theorem userStore_isSome_iff {addr : ℕ} {b : UInt8} (h : img.Sound m s bs tables free)
    (hload : m.kernel.cr3.headD 0 ≠ sub32 img.kernelMemory kernelBase) (haddr : addr < 2 ^ 32) :
    (∃ k', m.kernel.userStore addr b = some k') ↔
      addr / 4096 = 0 ∨ addr / 4096 = kernelBase / 4096 - 1 := by
  obtain ⟨d, hd, hdir⟩ := h.loaded_directory.resolve_left hload
  have htwo : kernelBase / 4096 - 1 = 786431 := rfl
  by_cases hlow : addr < kernelBase
  · have hindex := userIndex_of_lt hlow
    have hdiv : addr / 4096 / 1024 = addr / 2 ^ 22 := by omega
    rw [← h.pages d hd (addr / 4096) (hdiv.symm ▸ hindex), Kernel.userStore, hdir,
      h.spaces.space.mapped.translate_eq hd hindex]
    have hpage : addr / 2 ^ 12 = addr / 4096 := rfl
    rw [hpage]
    cases pageOf m.kernel.ram.byte d (addr / 4096) with
    | none => exact iff_of_false (fun ⟨k', hk⟩ => absurd hk nofun) fun he => he rfl
    | some f => exact iff_of_true ⟨_, rfl⟩ (Option.some_ne_none _)
  · refine iff_of_false (fun ⟨k', hk⟩ => ?_) ?_
    · obtain ⟨d', hd', -, acc, ⟨-, hacc, hus⟩, -⟩ :=
        h.spaces.userStore img.place (Or.inr ⟨d, hd, hdir⟩) haddr hk
      rw [translate_kernel (h.spaces.space.mapped.dir_page hd') (h.spaces.half d' hd')
        (Nat.le_of_not_lt hlow) haddr] at hacc
      obtain rfl := Option.some.inj hacc
      cases hus
    · rw [kernelBase_eq] at hlow
      omega

/-- **When a timer interrupt returns**: when it need not switch, or some process is not halted. -/
theorem timer_isSome_iff (h : img.Sound m s bs tables free) (c : Context) :
    (∃ r, m.kernel.timerHandler img.tss m.switching c = some r) ↔
      m.switching = false ∨ m.kernel.currentProcess = 0 ∨
        m.kernel.nextOf m.kernel.currentProcess = m.kernel.currentProcess ∨
        ∃ q ∈ m.kernel.descriptors, m.kernel.stateOf q ≠ 1 := by
  rw [Kernel.timerHandler]
  by_cases hon : m.switching = true
  swap
  · rw [if_neg hon]
    exact iff_of_true ⟨_, rfl⟩ (Or.inl (Bool.not_eq_true _ ▸ hon))
  rw [if_pos hon]
  have hring := h.faithful.ring
  have hreturns : (∃ r, m.kernel.switchProcess img.tss c = some r) ↔
      ∃ r, LoofOS.switchProcess s c = some r := by
    rcases h.records.switchProcess hring h.separate h.not_ended h.tss_below c with
      ⟨hk, hs⟩ | ⟨k', s', out, hk, hs, -⟩
    · rw [hk, hs]
      exact iff_of_false nofun nofun
    · exact iff_of_true ⟨_, hk⟩ ⟨_, hs⟩
  have hrunnable : (∃ p ∈ s.live, (s.desc p).state ≠ processHalted ∧
      ¬ (p = s.currentProcess ∧ s.current.state = 2)) ↔
        ∃ q ∈ m.kernel.descriptors, m.kernel.stateOf q ≠ 1 := by
    rw [← h.records.live]
    constructor
    · rintro ⟨p, hp, hnot, -⟩
      exact ⟨p.toNat, List.mem_map.mpr ⟨p, hp, rfl⟩, fun he =>
        hnot ((h.records.state_iff hp 1).mpr he)⟩
    · rintro ⟨q, hq, hnot⟩
      obtain ⟨p, hp, rfl⟩ := List.mem_map.mp hq
      refine ⟨p, hp, fun he => hnot ((h.records.state_iff hp 1).mp he), ?_⟩
      rintro ⟨rfl, hended⟩
      exact h.state_ne _ hp hended
  have hstays := h.records.stays_iff hring
  have hoff : m.switching ≠ false := fun hoff => by
    rw [hoff] at hon
    cases hon
  rw [hreturns, hring.switchProcess_isSome_iff c, LeavesRunnable, ← or_assoc, hstays, hrunnable,
    or_assoc]
  exact (or_iff_right hoff).symm

/-- What the machine captures is what the scheduler remembers. -/
theorem record_eq (h : img.Sound m s bs tables free) (hon : m.switching = true) (c : Context) :
    m.record c = m.captured.record s (.tick c) := by
  have hstays := h.records.stays_iff h.faithful.ring
  rw [Machine.record, History.record]
  by_cases hstay : m.kernel.currentProcess = 0 ∨
      m.kernel.nextOf m.kernel.currentProcess = m.kernel.currentProcess
  · rw [if_pos (hstays.mpr hstay), if_neg]
    rintro ⟨-, hc, hmore, -⟩
    exact hstay.elim hc hmore
  · obtain ⟨hc, hmore⟩ := not_or.mp hstay
    have hrunning : s.current.state = processRunning ↔
        m.kernel.stateOf m.kernel.currentProcess = 0 :=
      h.records.current ▸ h.records.state_iff (h.current_mem hc).2 0
    rw [if_neg (mt hstays.mp hstay), ← h.records.current, BitVec.ofNat_toNat, BitVec.setWidth_eq,
      h.records.current]
    by_cases hrun : m.kernel.stateOf m.kernel.currentProcess = 0
    · rw [if_pos ⟨hon, hc, hmore, hrun⟩, if_pos (hrunning.mpr hrun)]
    · rw [if_neg fun he => hrun he.2.2.2, if_neg fun he => hrun (hrunning.mp he)]

/-- **A timer interrupt** that may switch. -/
theorem timer {c : Context} {out : Option SwitchArguments} (h : img.Sound m s bs tables free)
    (hon : m.switching = true) (hswitch : m.kernel.switchProcess img.tss c = some (k', out)) :
    ∃ s', LoofOS.switchProcess s c = some (s', out) ∧
      img.Sound ⟨out.elim k' k'.switchContext, m.switching, m.record c⟩ s' bs tables free := by
  obtain ⟨s', hs, hrec, hq, hstay, hgo⟩ := h.switchProcess hswitch
  have hlive : s'.live = s.live := by
    rcases switchProcess_cases hs with ⟨-, rfl, -⟩ | ⟨hne, -, p, -, rfl, -⟩
    · rfl
    · exact (links_leaveCurrent c (h.state_ne _ (h.faithful.ring.current_mem hne))).2.2
  have hcontext : ∀ (d : ProcessDesc) (c : Context), (d.setContext c).esp0 = d.esp0 ∧
      (d.setContext c).state = d.state := fun _ _ => ⟨rfl, rfl⟩
  have hesp0 := keeps_switchProcess (g := ProcessDesc.esp0) (fun d c => (hcontext d c).1)
    (fun _ _ => rfl) (fun _ _ => rfl) hs
  have hstate := keeps_switchProcess (g := ProcessDesc.state) (fun d c => (hcontext d c).2)
    (fun _ _ => rfl) (fun _ _ => rfl) hs
  have hfaithful := (h.faithful.tick hs).1
  rw [← h.record_eq hon c] at hfaithful
  refine ⟨s', hs, ?_⟩
  have hnot : ∀ p ∈ s.live, (s'.desc p).state = 0 ∨ (s'.desc p).state = 1 := fun p hp =>
    (hstate p).symm ▸ h.state p hp
  have hboot : ∀ a, m.switching = false → a := fun _ hoff => by
    rw [hon] at hoff
    cases hoff
  by_cases hearly : m.kernel.currentProcess = 0 ∨
      m.kernel.nextOf m.kernel.currentProcess = m.kernel.currentProcess
  · obtain ⟨rfl, rfl, rfl⟩ := hstay hearly
    exact h.quiet hq hrec hfaithful hlive (fun p _ => hesp0 p) hnot h.cpu (hboot _)
  · obtain ⟨hc, hmore⟩ := not_or.mp hearly
    obtain ⟨rfl, hsw⟩ := hgo hc hmore
    exact h.quiet (hq.trans (hq.spaces.quiet_enablePaging _)) ⟨hrec.current, hrec.live, hrec.desc⟩
      hfaithful hlive (fun p _ => hesp0 p) hnot (Or.inr ⟨hsw.entered.1, rfl, hsw.stack⟩) (hboot _)

/-- The top of a kernel stack. -/
theorem toNat_stackTop {stack : ℕ} (h : stack + 4096 < 2 ^ 32) :
    (BitVec.ofNat 32 stack + 4092 : Word).toNat = stack + 4092 := by
  have htop : (4092 : Word).toNat = 4092 := by decide
  rw [BitVec.toNat_add, BitVec.toNat_ofNat, htop]
  omega

/-- The stack pointers and the states after `create_process`: those of the other processes are
kept. -/
theorem fields_createProcess {p : Word} (stack directory eip : Word) (hp : p ∉ s.live) :
    (((LoofOS.createProcess s p stack directory eip).desc p).esp0 = stack + 4092 ∧
      ((LoofOS.createProcess s p stack directory eip).desc p).state = 0) ∧
    ∀ q ∈ s.live, ((LoofOS.createProcess s p stack directory eip).desc q).esp0 = (s.desc q).esp0 ∧
      ((LoofOS.createProcess s p stack directory eip).desc q).state = (s.desc q).state := by
  refine ⟨⟨desc_createProcess_self (g := ProcessDesc.esp0) (fun _ _ => rfl) (fun _ _ => rfl) s p _ _
      _, desc_createProcess_self (g := ProcessDesc.state) (fun _ _ => rfl) (fun _ _ => rfl) s p _ _
      _⟩, fun q hq => ?_⟩
  have hqp : q ≠ p := fun he => hp (he ▸ hq)
  exact ⟨desc_createProcess_of_ne (g := ProcessDesc.esp0) (fun _ _ => rfl) (fun _ _ => rfl) s _ _ _
      hqp,
    desc_createProcess_of_ne (g := ProcessDesc.state) (fun _ _ => rfl) (fun _ _ => rfl) s _ _ _ hqp⟩

/-- **The kernel stacks after `create_process`**: the new process has the block that was allocated
for it, and the others keep theirs. -/
theorem stacks_createProcess {p stack b : ℕ} (h : img.Sound m s bs tables free)
    (hadded : Added m.kernel k' bs bs' tables tables' p stack b)
    (hheap : HeapInv ⟨k'.ram, k'.live⟩ bs') (hfresh : (BitVec.ofNat 32 p : Word) ∉ s.live)
    (directory eip : Word) :
    NewStack k' tables' s (LoofOS.createProcess s (BitVec.ofNat 32 p) (BitVec.ofNat 32 stack)
      directory eip) (BitVec.ofNat 32 p) stack := by
  obtain ⟨hself, hother⟩ := fields_createProcess (BitVec.ofNat 32 stack) directory eip hfresh
  have hbounds := (hheap.live_bounds hadded.block.1).2
  have hlast := kernelHeap_last
  refine ⟨⟨hadded.block.1, hadded.block.2, ?_⟩, fun q hq => ?_⟩
  · rw [hself.1]
    exact toNat_stackTop (by omega)
  · obtain ⟨e, he⟩ := h.stack q hq
    obtain ⟨hmem, hnot⟩ := hadded.other e 4096 he.live he.page
    exact ⟨e, fun hes => hadded.stackFresh 4096 (hes ▸ he.live),
      ⟨hmem, hnot, (hother q hq).1.symm ▸ he.top⟩⟩

/-- **The invariant after `create_process`**, from what it says about memory and about the kernel
stacks. -/
theorem created {p stack : ℕ} {directory eip : Word} {history : History}
    (h : img.Sound m s bs tables free) (hfresh : (BitVec.ofNat 32 p : Word) ∉ s.live)
    (hspaces : SpacesInv userIndex img.kernelMemory k' bs' tables' free') (hpages : TwoPages k')
    (hrecords : Represents k' (LoofOS.createProcess s (BitVec.ofNat 32 p) (BitVec.ofNat 32 stack)
      directory eip))
    (hfaithful : Faithful (LoofOS.createProcess s (BitVec.ofNat 32 p) (BitVec.ofNat 32 stack)
      directory eip) history)
    (hstacks : NewStack k' tables' s (LoofOS.createProcess s (BitVec.ofNat 32 p)
      (BitVec.ofNat 32 stack) directory eip) (BitVec.ofNat 32 p) stack)
    (hcr3 : k'.cr3.headD 0 = sub32 img.kernelMemory kernelBase) :
    img.Sound ⟨k', m.switching, history⟩ (LoofOS.createProcess s (BitVec.ofNat 32 p)
      (BitVec.ofNat 32 stack) directory eip) bs' tables' free' := by
  obtain ⟨hself, hother⟩ := fields_createProcess (BitVec.ofNat 32 stack) directory eip hfresh
  have hlive := live_createProcess s (BitVec.ofNat 32 p) (BitVec.ofNat 32 stack) directory eip
  refine ⟨hspaces, hpages, hrecords, hfaithful, fun q hq => ?_, fun q hq => ?_,
    fun q hq q' hq' he => ?_, Or.inl hcr3, fun _ => hcr3⟩
  · rw [hlive] at hq
    rcases List.mem_cons.mp hq with rfl | hq
    · exact Or.inl hself.2
    · rw [(hother q hq).2]
      exact h.state q hq
  · rw [hlive] at hq
    rcases List.mem_cons.mp hq with rfl | hq
    · exact ⟨stack, hstacks.new⟩
    · obtain ⟨e, -, he⟩ := hstacks.old q hq
      exact ⟨e, he⟩
  · rw [hlive] at hq hq'
    rcases List.mem_cons.mp hq with rfl | hq <;> rcases List.mem_cons.mp hq' with rfl | hq'
    · rfl
    · exact absurd he.symm (hstacks.apart q' hq')
    · exact absurd he (hstacks.apart q hq)
    · rw [(hother q hq).1, (hother q' hq').1] at he
      exact h.own q hq q' hq' he

/-- **`create_process`** takes two frames and the blocks of its calls of the allocator. -/
theorem createProcess {eip : ℕ} (h : img.Sound m s bs tables free)
    (hop : FreshBlocks m.kernel (.createProcess eip))
    (hcreate : m.kernel.createProcess img.kernelMemory eip = some k') :
    ∃ p stack directory bs' tables' free', p ≠ 0 ∧ p ∉ s.live ∧
      img.Sound ⟨k', m.switching,
          Function.update m.captured (BitVec.ofNat 32 (k'.descriptors.headD 0))
            (.created (initialContext (BitVec.ofNat 32 eip)))⟩
        (LoofOS.createProcess s p stack directory (BitVec.ofNat 32 eip)) bs' tables' free' ∧
      Takes m.kernel k' bs bs' tables tables' free free' := by
  obtain ⟨blocks, hblocks⟩ := h.spaces.space.heap.allocateAll processSizes_small
  obtain ⟨a, b, free', p, d, stack, bs', tables', rfl, hspaces, hcreated, hadded, hrec⟩ :=
    h.spaces.createProcess_represents img.place (fun _ hi => hi) userIndex_zero userIndex_top
      hblocks (hop blocks hblocks) h.records h.faithful.ring hcreate
  have hdesc : k'.descriptors = p :: m.kernel.descriptors :=
    congrArg (List.map Prod.fst) hcreated.processes
  obtain ⟨-, hlt, hne⟩ := hspaces.space.desc_bounds
    (hspaces.descriptor_not_page (hdesc ▸ List.mem_cons_self)).1
  have hp : (BitVec.ofNat 32 p : Word).toNat = p := by
    rw [BitVec.toNat_ofNat]
    exact Nat.mod_eq_of_lt hlt
  have hne : (BitVec.ofNat 32 p : Word) ≠ 0 := fun hz => hne (hp ▸ congrArg BitVec.toNat hz)
  have hfresh : (BitVec.ofNat 32 p : Word) ∉ s.live := fun hmem =>
    hadded.fresh (hp ▸ h.records.mem hmem)
  have hlive := live_createProcess s (BitVec.ofNat 32 p) (BitVec.ofNat 32 stack)
    (BitVec.ofNat 32 d) (BitVec.ofNat 32 eip)
  have hstacks := h.stacks_createProcess hadded hspaces.space.heap hfresh (BitVec.ofNat 32 d)
    (BitVec.ofNat 32 eip)
  obtain ⟨-, hother⟩ := fields_createProcess (BitVec.ofNat 32 stack) (BitVec.ofNat 32 d)
    (BitVec.ofNat 32 eip) hfresh
  -- the stack pointers in memory
  have htop : k'.read32 (p + esp0Offset) = stack + 4092 := by
    rw [← hp, ← hrec.esp0 (hlive ▸ List.mem_cons_self), hstacks.new.top]
  have hesp0 : ∀ q ∈ m.kernel.descriptors,
      k'.read32 (q + esp0Offset) = m.kernel.read32 (q + esp0Offset) := by
    intro q hq
    obtain ⟨q, hmem, rfl⟩ := List.mem_map.mp (h.records.live.symm ▸ hq)
    rw [← hrec.esp0 (hlive ▸ List.mem_cons_of_mem _ hmem), ← h.records.esp0 hmem, (hother q hmem).1]
  refine ⟨_, _, _, bs', tables', free', hne, hfresh,
    h.created hfresh hspaces (hcreated.twoPages h.pages) hrec ?_ hstacks ?_,
    fun a n => hadded.kernelBlock hdesc htop hesp0, hadded.unused, rfl, ⟨_, hcreated.processes⟩⟩
  · rw [hdesc]
    exact Faithful.create h.faithful hne hfresh
  · rw [hcreated.cr3, List.headD_cons]

end Image.Sound

/-! ### Runs -/

/-- The operations of the scheduler that the machine performs. -/
def Regular (s : Scheduler) (op : SchedOp) : Prop := AllocatesFresh s op ∧ UpdatesCurrent s op

/-- The invariant holds with the same blocks, tables and frames as before a quiet step. -/
structure Image.StaysSound (img : Image) (k : Kernel) (bs : List Block) (tables free : List ℕ)
    (m : Machine) (s : Scheduler) : Prop where
  sound : img.Sound m s bs tables free
  quiet : Quiet userIndex img.kernelMemory bs tables free k m.kernel

/-- **Every step but `create_process`** is quiet, and is a step of the scheduler or none. -/
theorem Image.Sound.quiet_step {op : MachineOp} (h : img.Sound m s bs tables free)
    (hop : img.Allows m op) (hstep : img.step m op = some m')
    (hnot : ∀ eip, op ≠ .createProcess eip) :
    ∃ ops s', Meets schedStep Regular s ops ∧ exec schedStep s ops = some s' ∧
      img.StaysSound m.kernel bs tables free m' s' := by
  cases op with
  | createProcess eip => exact absurd rfl (hnot eip)
  | enableSwitching =>
      obtain rfl := Option.some.inj hstep
      exact Simulates.stutter ⟨h.enableSwitching, Quiet.refl h.spaces⟩
  | forceEnterUserland =>
      obtain rfl := Option.some.inj hstep
      have hq := h.spaces.quiet_setTssStack
        (m.kernel.read32 (m.kernel.currentProcess + esp0Offset))
      exact Simulates.stutter
        ⟨h.forceEnterUserland hop, hq.trans (hq.spaces.quiet_enablePaging _)⟩
  | timer c =>
      obtain ⟨⟨k', out⟩, hk, rfl⟩ := Option.map_eq_some_iff.mp hstep
      rw [Kernel.timerHandler] at hk
      by_cases hon : m.switching = true
      · rw [if_pos hon] at hk
        obtain ⟨s', hs, h'⟩ := h.timer hon hk
        have hregular : Regular s (.tick c) := ⟨trivial, trivial⟩
        have htick : schedStep s (.tick c) = some s' := by rw [schedStep, hs, Option.map_some]
        obtain ⟨-, -, -, hq, -⟩ := h.switchProcess hk
        refine Simulates.single hregular htick ⟨h', ?_⟩
        cases out with
        | none => exact hq
        | some a => exact hq.trans (hq.spaces.quiet_enablePaging _)
      · rw [if_neg hon] at hk
        obtain ⟨rfl, rfl⟩ := Prod.mk.inj (Option.some.inj hk)
        have hrecord : m.record c = m.captured := if_neg fun he => hon he.1
        refine Simulates.stutter ⟨?_, Quiet.refl h.spaces⟩
        rw [hrecord]
        exact h
  | updateProcess state =>
      obtain rfl := Option.some.inj hstep
      have hregular : Regular s (.update (BitVec.ofNat 8 state.toNat)) := by
        refine ⟨trivial, (h.current_mem hop.1).1, ?_⟩
        rcases hop.2 with rfl | rfl
        · exact Or.inl rfl
        · exact Or.inr (Or.inl rfl)
      exact Simulates.single hregular rfl
        ⟨h.updateProcess hop, h.quiet_updateProcess hop.1 state⟩
  | userStore addr b =>
      obtain ⟨k', hk, rfl⟩ := Option.map_eq_some_iff.mp hstep
      obtain ⟨-, -, -, -, -, -, hq⟩ :=
        h.spaces.userStore img.place h.loaded_directory addr.isLt hk
      exact Simulates.stutter ⟨h.userStore addr.isLt hk, hq⟩
  | kernelPush addr b =>
      obtain rfl := Option.some.inj hstep
      exact Simulates.stutter ⟨h.kernelPush hop, h.quiet_push hop⟩
  | bootPush addr b =>
      obtain rfl := Option.some.inj hstep
      exact Simulates.stutter ⟨h.bootPush hop, h.spaces.quiet_bootPush hop.1 hop.2 b⟩

/-- The memory of the machine is that of the scheduler. -/
def Image.CarriesOut (img : Image) (m : Machine) (s : Scheduler) : Prop :=
  ∃ bs tables free, img.Sound m s bs tables free

/-- **The machine carries out the scheduler.** -/
theorem machine_simulates (img : Image) :
    Simulates img.step img.Allows schedStep Regular img.CarriesOut := by
  rintro m s op m' ⟨bs, tables, free, h⟩ hop hstep
  by_cases hcreate : ∃ eip, op = .createProcess eip
  · obtain ⟨eip, rfl⟩ := hcreate
    obtain ⟨k', hk, rfl⟩ := Option.map_eq_some_iff.mp hstep
    obtain ⟨p, stack, directory, bs', tables', free', hp, hfresh, h', -⟩ :=
      h.createProcess hop.2 hk
    have hregular : Regular s (.create p stack directory (BitVec.ofNat 32 eip)) :=
      ⟨⟨hp, hfresh⟩, trivial⟩
    exact Simulates.single hregular rfl ⟨bs', tables', free', h'⟩
  · obtain ⟨ops, s', hmeets, hexec, hstay⟩ :=
      h.quiet_step hop hstep fun eip he => hcreate ⟨eip, he⟩
    exact ⟨ops, s', hmeets, hexec, bs, tables, free, hstay.sound⟩

/-- **The machine after booting.** -/
theorem boot_sound (img : Image) (hboot : Booted k) (hheap : HeapInv ⟨k.ram, k.live⟩ bs) :
    img.Sound (img.boot k) idleScheduler bs [] (frames 0 (kernelBase / 4096)) := by
  have hspaces := @SpacesInv.start userIndex k bs img.kernelMemory img.place hheap
    (fun i hi => Nat.lt_trans hi (by simp)) hboot.processes hboot.currentProcess
  have hdirs : (initPaging img.kernelMemory k).directories = [] :=
    congrArg (List.map Prod.snd) hboot.processes
  have hdesc : (initPaging img.kernelMemory k).descriptors = [] :=
    congrArg (List.map Prod.fst) hboot.processes
  have hcr3 : (img.boot k).kernel.cr3.headD 0 = sub32 img.kernelMemory kernelBase :=
    List.headD_cons
  refine ⟨hspaces, fun d hd => ?_, ⟨hboot.currentProcess.symm, hdesc.symm, nofun⟩,
    ⟨⟨nofun, Or.inl ⟨rfl, rfl⟩⟩, nofun, nofun⟩, nofun, nofun, nofun, Or.inl hcr3, fun _ => hcr3⟩
  rw [show (img.boot k).kernel.directories = [] from hdirs] at hd
  cases hd

/-- **Runs after booting** are runs of the scheduler. -/
theorem machine_carriesOut {ops : List MachineOp} (hboot : Booted k) (h : img.Reaches k ops m) :
    ∃ sops s, Meets schedStep Regular idleScheduler sops ∧
      exec schedStep idleScheduler sops = some s ∧ img.CarriesOut m s := by
  obtain ⟨bs, hheap⟩ := hboot.heap.inv
  exact exec_simulates (machine_simulates img) ⟨bs, [], _, boot_sound img hboot hheap⟩ h.allowed
    h.run

end LoofOS
