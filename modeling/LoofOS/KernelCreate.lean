import LoofOS.CreationFailure
import LoofOS.KernelSwitch

/-!
# Creating Processes in Memory

What `create_process` leaves in the descriptors. The fields of the new descriptor are written before
its address space is set up, and stay what they are until it is put into the queue; of the other
descriptors only links are written. So `create_process` does in memory what it does to the records
(`SpacesInv.createProcess_represents`).

## Main results

* `beginProcess_fields`: the fields of the new descriptor.
* `finishProcess_represents`: the new descriptor is put into the queue.
* `SpacesInv.createProcess_represents`: both, with what is allocated in between.
-/

namespace LoofOS

open LinkedRing

variable {U : ℕ → Prop} {k k' : Kernel} {s t : Scheduler} {bs bs' : List Block}
  {dirs tables tables' free : List ℕ} {r r' : Ram} {kernelMemory eip p d n q stack : ℕ}

/-! ### Records -/

/-- Descriptors that agree off their links and on them are equal. -/
theorem ProcessDesc.eq_of_links {d d' : ProcessDesc}
    (h : { d with prev := 0, next := 0 } = { d' with prev := 0, next := 0 })
    (hprev : d.prev = d'.prev) (hnext : d.next = d'.next) : d = d' := by
  cases d
  cases d'
  simp only [ProcessDesc.mk.injEq] at h ⊢
  exact ⟨h.1, h.2.1, h.2.2.1, h.2.2.2.1, h.2.2.2.2.1, hprev, hnext, h.2.2.2.2.2.2.2⟩

/-- **The links of a descriptor that is put into the queue** do not matter. -/
theorem insertProcess_desc_congr {p : Word} (hcurrent : t.currentProcess = s.currentProcess)
    (hp : p ≠ s.currentProcess) (hother : ∀ x, x ≠ p → t.desc x = s.desc x)
    (hself : { t.desc p with prev := 0, next := 0 } = { s.desc p with prev := 0, next := 0 })
    (x : Word) : (insertProcess t p).desc x = (insertProcess s p).desc x := by
  have hkeeps : ∀ u : Scheduler, { (insertProcess u p).desc x with prev := 0, next := 0 }
      = { u.desc x with prev := 0, next := 0 } := fun u =>
    keeps_insertProcess (g := fun d => { d with prev := 0, next := 0 }) (fun _ _ => rfl)
      (fun _ _ => rfl) u p x
  have hlinks : x ≠ p → t.next x = s.next x ∧ t.prev x = s.prev x := fun hx =>
    ⟨congrArg ProcessDesc.next (hother x hx), congrArg ProcessDesc.prev (hother x hx)⟩
  have hboth : (insertProcess t p).prev x = (insertProcess s p).prev x ∧
      (insertProcess t p).next x = (insertProcess s p).next x := by
    by_cases hc : s.currentProcess = 0
    · rw [insertProcess, insertProcess, if_pos hc, if_pos (hcurrent.trans hc)]
      by_cases hx : x = p
      · simp [hx]
      · simp [hx, hlinks hx]
    · have hprev : t.prev s.currentProcess = s.prev s.currentProcess :=
        congrArg ProcessDesc.prev (hother _ hp.symm)
      have hct : t.currentProcess ≠ 0 := by rwa [hcurrent]
      have hpt : p ≠ t.currentProcess := by rwa [hcurrent]
      rw [insertProcess_prev x hct hpt, insertProcess_prev x hc hp, insertProcess_next x hct hpt,
        insertProcess_next x hc hp, hcurrent, hprev]
      by_cases hx : x = p
      · simp [hx]
      · simp [hx, hlinks hx]
  refine ProcessDesc.eq_of_links ?_ hboth.1 hboth.2
  rw [hkeeps, hkeeps]
  by_cases hx : x = p
  · rw [hx]
    exact hself
  · rw [hother x hx]

/-- Of the old descriptor a new one keeps the links only. -/
theorem newProcess_congr {old old' : ProcessDesc} {stack directory eip : Word}
    (hprev : old.prev = old'.prev) (hnext : old.next = old'.next) :
    newProcess old stack directory eip = newProcess old' stack directory eip := by
  rw [newProcess, newProcess, hprev, hnext]

/-! ### The fields of the new descriptor -/

/-- A granted block joins the live blocks. -/
theorem Kernel.allocate_live (hcall : k.allocate n = some (q, k')) :
    k'.live = if q = 0 then k.live else (q, n) :: k.live := by
  obtain ⟨x, -, he⟩ := Option.map_eq_some_iff.mp hcall
  obtain ⟨rfl, rfl⟩ := Prod.mk.inj he
  rfl

/-- **A call of the allocator** does not write to blocks that are in use. -/
theorem HeapInv.allocate_keeps (h : HeapInv ⟨k.ram, k.live⟩ bs) (hn : n + 1 < 2 ^ 31)
    (hcall : k.allocate n = some (q, k')) :
    (∃ bs', HeapInv ⟨k'.ram, k'.live⟩ bs') ∧
      ∀ a m, (a, m) ∈ k.live → ∀ x, a ≤ x → x < a + m → k'.ram.byte x = k.ram.byte x := by
  obtain ⟨x, hx, he⟩ := Option.map_eq_some_iff.mp hcall
  obtain ⟨rfl, rfl⟩ := Prod.mk.inj he
  obtain ⟨q', r₁, _, hcall', -, hgrant⟩ := h.allocate_same h hn
  obtain rfl := Option.some.inj (hx.symm.trans hcall')
  obtain ⟨rfl, rfl, -⟩ | ⟨hne, bs', hgrant, -⟩ := hgrant
  · exact ⟨⟨bs, h⟩, fun _ _ _ _ _ _ => rfl⟩
  · refine ⟨⟨bs', ?_⟩, fun a m ha x => hgrant.kept a m x ha⟩
    simp only [if_neg hne]
    exact hgrant.heap

/-- A block that is in use may be written to. -/
theorem HeapInv.alters_live (h : HeapInv ⟨k.ram, k.live⟩ bs) (hq : (q, n) ∈ k.live)
    (halters : Alters q (q + n) k k') : HeapInv ⟨k'.ram, k'.live⟩ bs := by
  have hlive : k'.live = k.live := by rw [halters.only]
  rw [hlive]
  exact (h.spared (Or.inl ⟨q, n, hq, le_refl q, le_refl _⟩) halters.outside).1

/-- The initial fields are words at word-aligned offsets, each written once. -/
theorem wordFields_initialFields (eip : ℕ) : WordFields (initialFields eip) where
  dvd := by simp [initialFields]
  nodup := by
    have hkeys : (initialFields eip).map Prod.fst
        = [0, 4, 8, 12, 16, 52, 56, 60, 64, 20, 24, 28, 32, 36, 40, 44, 48] := rfl
    rw [hkeys]
    decide

/-- **The words of a new descriptor**: the fields that are assigned first, then `esp0` and
`page_directory`. The links are left as they are. -/
theorem newProcess_of_words {m : Mem} {w : ℕ → Word} {stack d : ℕ}
    (hword : ∀ o, 4 ∣ o → o + 4 ≤ stateOffset → wordAt m (p + o)
      = if o = pageDirectoryOffset then BitVec.ofNat 32 d
        else if o = esp0Offset then BitVec.ofNat 32 (wrap32 (stack + 4092))
        else (((initialFields eip).lookup o).map (BitVec.ofNat 32)).getD (w o)) :
    { descAt m p with state := 0 } = newProcess (descAt m p) (BitVec.ofNat 32 stack)
      (BitVec.ofNat 32 d) (BitVec.ofNat 32 eip) := by
  have hesp : BitVec.ofNat 32 (wrap32 (stack + 4092)) = BitVec.ofNat 32 stack + 4092 := by
    rw [wrap32, ← BitVec.toNat_inj, BitVec.toNat_add, BitVec.toNat_ofNat, BitVec.toNat_ofNat]
    change _ = (stack % 2 ^ 32 + 4092) % 2 ^ 32
    omega
  have hesp0 : esp0Offset = 68 := rfl
  have hdirectory : pageDirectoryOffset = 72 := rfl
  rw [hesp, hdirectory, hesp0] at hword
  simp (disch := decide) only [descAt, frameAt, genRegsAt, segRegsAt, newProcess, initialContext,
    hesp0, hdirectory, prevOffset, nextOffset, hword]
  rfl

/-- **The first part of `create_process`**, call by call: three blocks are granted. -/
theorem beginProcess_calls (hbegin : beginProcess kernelMemory k eip = some (p, d, k'))
    (hlive : k'.live = (d, 4096) :: (stack, 4096) :: (p, processDescSize) :: k.live) :
    ∃ a₁ a₂ a₃ : Kernel, k.allocate processDescSize = some (p, a₁) ∧
      (writeFields a₁ p (initialFields eip)).allocate 4096 = some (stack, a₂) ∧
      (a₂.write32 (p + esp0Offset) (wrap32 (stack + 4092))).allocate 4096 = some (d, a₃) ∧
      k' = copyKernelHalf (a₃.write32 (p + pageDirectoryOffset) d) kernelMemory d 256 ∧
      a₁.live = (p, processDescSize) :: k.live ∧ a₂.live = (stack, 4096) :: a₁.live ∧
      a₃.live = (d, 4096) :: a₂.live := by
  simp only [beginProcess, Option.bind_eq_bind, Option.bind_eq_some_iff, Option.pure_def,
    Option.some.injEq, Prod.mk.injEq] at hbegin
  obtain ⟨⟨p, a₁⟩, hp, ⟨stack', a₂⟩, hstack, ⟨d, a₃⟩, hd, rfl, rfl, rfl⟩ := hbegin
  have hlive₁ : (writeFields a₁ p (initialFields eip)).live = a₁.live := by
    rw [(Alters.writeFields (initialFields_offset eip)).only]
  have hlive₃ : a₃.live = (d, 4096) :: (stack, 4096) :: (p, processDescSize) :: k.live := by
    rw [← hlive, (@copyKernelHalf_alters (a₃.write32 (p + pageDirectoryOffset) d) kernelMemory d 256
      (le_refl _)).only]
    rfl
  have hl₁ := Kernel.allocate_live hp
  have hl₂ : a₂.live = if stack' = 0 then a₁.live else (stack', 4096) :: a₁.live := by
    rw [← hlive₁]
    exact Kernel.allocate_live hstack
  have hl₃ : a₃.live = if d = 0 then a₂.live else (d, 4096) :: a₂.live :=
    Kernel.allocate_live (k := a₂.write32 (p + esp0Offset) (wrap32 (stack' + 4092))) hd
  -- none of the three results is null, since there are three blocks more
  have hnull : p ≠ 0 ∧ stack' ≠ 0 ∧ d ≠ 0 := by
    have hlength := congrArg List.length (hlive₃.symm.trans hl₃)
    rw [hl₂, hl₁] at hlength
    split_ifs at hlength with h₃ h₂ h₁ h₁ h₂ h₁ h₁ <;>
      simp only [List.length_cons] at hlength <;> omega
  obtain ⟨hp₀, hstack₀, hd₀⟩ := hnull
  rw [if_neg hp₀] at hl₁
  rw [if_neg hstack₀] at hl₂
  rw [if_neg hd₀] at hl₃
  obtain rfl : stack' = stack := by
    rw [hl₂, hl₁] at hl₃
    have hcons := (List.cons.inj (hl₃.symm.trans hlive₃)).2
    exact congrArg Prod.fst (List.cons.inj hcons).1
  exact ⟨a₁, a₂, a₃, hp, hstack, hd, rfl, hl₁, hl₂, hl₃⟩

/-- **The fields of the new descriptor**, all but its links and its state: what is allocated after
it leaves them alone. -/
theorem beginProcess_fields (h : HeapInv ⟨k.ram, k.live⟩ bs)
    (hbegin : beginProcess kernelMemory k eip = some (p, d, k'))
    (hlive : k'.live = (d, 4096) :: (stack, 4096) :: (p, processDescSize) :: k.live) :
    { descAt k'.ram.byte p with state := 0 } = newProcess (descAt k'.ram.byte p)
      (BitVec.ofNat 32 stack) (BitVec.ofNat 32 d) (BitVec.ofNat 32 eip) := by
  obtain ⟨a₁, a₂, a₃, hp, hstack, hd, rfl, hl₁, hl₂, hl₃⟩ := beginProcess_calls hbegin hlive
  have hsize : processDescSize = 85 := rfl
  have hesp0 : esp0Offset = 68 := rfl
  have hdirectory : pageDirectoryOffset = 72 := rfl
  have hstate : stateOffset = 84 := rfl
  set b₁ := writeFields a₁ p (initialFields eip) with hb₁
  set b₂ := a₂.write32 (p + esp0Offset) (wrap32 (stack + 4092)) with hb₂
  set b₃ := a₃.write32 (p + pageDirectoryOffset) d with hb₃
  have halters₁ : Alters p (p + 68) a₁ b₁ := Alters.writeFields (initialFields_offset eip)
  have halters₂ : Alters p (p + processDescSize) a₂ b₂ := Alters.write32 (by omega) (by omega)
  have halters₃ := @copyKernelHalf_alters b₃ kernelMemory d 256 (le_refl _)
  have hlive₁ : b₁.live = a₁.live := by rw [halters₁.only]
  have hmem₁ : (p, processDescSize) ∈ a₁.live := hl₁ ▸ List.mem_cons_self
  have hmem₂ : (p, processDescSize) ∈ a₂.live := hl₂ ▸ List.mem_cons_of_mem _ hmem₁
  have hmem₃ : (p, processDescSize) ∈ a₃.live := hl₃ ▸ List.mem_cons_of_mem _ hmem₂
  obtain ⟨⟨bs₁, hinv₁⟩, -⟩ := h.allocate_keeps (by decide) hp
  have hinv₁' := hinv₁.alters_live hmem₁ (halters₁.mono (le_refl p) (by omega))
  obtain ⟨⟨bs₂, hinv₂⟩, hkeeps₂⟩ := hinv₁'.allocate_keeps (by simp) hstack
  obtain ⟨⟨bs₃, hinv₃⟩, hkeeps₃⟩ := (hinv₂.alters_live hmem₂ halters₂).allocate_keeps (by simp) hd
  have happart : p + processDescSize ≤ d ∨ d + 4096 ≤ p := by
    refine hinv₃.live_apart hmem₃ (hl₃ ▸ List.mem_cons_self) fun he => ?_
    have honce := hinv₃.once
    rw [hl₃, List.map_cons, List.nodup_cons] at honce
    exact honce.1 (List.mem_map.mpr ⟨_, hmem₂, he⟩)
  -- the words of the descriptor, from the last write back to the first
  refine newProcess_of_words (w := fun o => wordAt a₁.ram.byte (p + o)) fun o ho hle => ?_
  rw [wordAt_congr fun x _ _ => halters₃.outside x (by omega),
    (@writeField_fields pageDirectoryOffset a₃ p d (by decide) (by decide)).1 o ho,
    wordAt_congr fun x _ _ => hkeeps₃ p processDescSize hmem₂ x (by omega) (by omega),
    (@writeField_fields esp0Offset a₂ p _ (by decide) (by decide)).1 o ho,
    wordAt_congr fun x _ _ => hkeeps₂ p processDescSize (hlive₁ ▸ hmem₁) x (by omega) (by omega),
    wordAt_writeFields (wordFields_initialFields eip) ho]

/-! ### The address space -/

/-- **A page** of the new process: what the page allocator leaves. -/
theorem Filling.page_extends {a t addr : ℕ} {f : ℕ → Option ℕ}
    (h : Filling U k bs tables k' bs' tables' (a :: free) r p d f) (haddr : addr < kernelBase)
    (hi : U (addr / 2 ^ 22)) (hf : ∀ n, n / 1024 = addr / 2 ^ 22 → f n = none)
    (hcall : kernelAllocate r 4096 = some (t, r')) (ht : t ≠ 0)
    (hclear : ∀ j < 1024, entryPresent (Mem.entry k.ram.byte t j) = false) {k'' : Kernel}
    (hstep : allocatePage k' d addr = some k'') :
    ∃ bs'', Extends U (d :: k.directories) tables' (t :: tables') k' k'' bs' bs'' := by
  obtain ⟨u, bs'', hstep', -, -, hext, -⟩ := h.space.allocatePage_plain h.plain
    (fun x hx => (h.ext.unused x hx).2) Filling.mem_directories haddr hi (h.absent _ hi hf) hcall ht
    hclear
  obtain rfl := Option.some.inj (hstep'.symm.trans hstep)
  exact ⟨bs'', hext⟩

/-- A block that is in use and is neither a directory nor a table stays so. -/
theorem Extends.other (h : Extends U dirs tables tables' k k' bs bs') (hq : (q, n) ∈ k.live)
    (hnot : q ∉ dirs ++ tables) :
    (q, n) ∈ k'.live ∧ q ∉ dirs ++ tables' ∧
      ∀ x, q ≤ x → x < q + n → k'.ram.byte x = k.ram.byte x := by
  rw [List.mem_append, not_or] at hnot
  refine ⟨h.live _ hq, fun hmem => ?_, h.block q n hq hnot.1 hnot.2⟩
  rcases List.mem_append.mp hmem with hd | ht
  · exact hnot.1 hd
  · exact h.fresh q ht hnot.2 n hq

/-- The state before `create_process` writes the program: the descriptor `p` has its fields, but is
not in the queue, and its kernel stack is the block `stack`. -/
structure Prepared (U : ℕ → Prop) (k : Kernel) (bs : List Block) (tables : List ℕ) (eip : ℕ)
    (k' : Kernel) (bs' : List Block) (tables' free : List ℕ) (r : Ram) (p d stack : ℕ)
    (f : ℕ → Option ℕ) : Prop where
  filling : Filling U k bs tables k' bs' tables' free r p d f
  fields : { descAt k'.ram.byte p with state := 0 } = newProcess (descAt k'.ram.byte p)
    (BitVec.ofNat 32 stack) (BitVec.ofNat 32 d) (BitVec.ofNat 32 eip)
  block : (stack, 4096) ∈ k'.live ∧ stack ∉ (d :: k.directories) ++ tables'
  fresh : ∀ m, (stack, m) ∉ k.live
  descriptor : ∀ m, (p, m) ∉ k.live

/-- A page is allocated for a process that is prepared. -/
theorem Prepared.page {a t addr : ℕ} {f : ℕ → Option ℕ}
    (h : Prepared U k bs tables eip k' bs' tables' (a :: free) r p d stack f)
    (hU : ∀ i, U i → i < 768) (haddr : addr < kernelBase) (hi : U (addr / 2 ^ 22))
    (hf : ∀ n, n / 1024 = addr / 2 ^ 22 → f n = none) (hcall : kernelAllocate r 4096 = some (t, r'))
    (ht : t ≠ 0) (hclear : ∀ j < 1024, entryPresent (Mem.entry k.ram.byte t j) = false) :
    ∃ k'' bs'', allocatePage k' d addr = some k'' ∧
      Prepared U k bs tables eip k'' bs'' (t :: tables') free r' p d stack
        (Function.update f (addr / 2 ^ 12) (some (a + pageOffset))) := by
  obtain ⟨k'', bs'', hstep, hfilling⟩ := h.filling.page hU haddr hi hf hcall ht hclear
  obtain ⟨bs₁, hext⟩ := h.filling.page_extends haddr hi hf hcall ht hclear hstep
  have hp : p ∉ (d :: k.directories) ++ tables' :=
    h.filling.space.not_page h.filling.live (by decide)
  have hdesc : descAt k''.ram.byte p = descAt k'.ram.byte p :=
    descAt_congr (hext.other h.filling.live hp).2.2
  have hstack := hext.other h.block.1 h.block.2
  exact ⟨k'', bs'', hstep, hfilling, hdesc ▸ h.fields, ⟨hstack.1, hstack.2.1⟩, h.fresh,
    h.descriptor⟩

/-- **The first part of `create_process`** prepares a process without pages. -/
theorem SpacesInv.prepare {r₁ r₂ r₃ : Ram} (h : SpacesInv U kernelMemory k bs tables free)
    (hplace : KernelPlace kernelMemory) (hU : ∀ i, U i → i < 768)
    (hp : kernelAllocate k.ram processDescSize = some (p, r₁)) (hp₀ : p ≠ 0)
    (hstack : kernelAllocate r₁ 4096 = some (stack, r₂)) (hstack₀ : stack ≠ 0)
    (hd : kernelAllocate r₂ 4096 = some (d, r₃)) (hd₀ : d ≠ 0)
    (hclear : ∀ i, U i → entryPresent (Mem.entry k.ram.byte d i) = false) :
    ∃ k' bs', beginProcess kernelMemory k eip = some (p, d, k') ∧
      Prepared U k bs tables eip k' bs' tables free r₃ p d stack fun _ => none := by
  obtain ⟨k', bs', hbegin, hfilling⟩ := @SpacesInv.begin U k bs tables free kernelMemory eip p d
    stack r₁ r₂ r₃ h hplace hU hp hp₀ hstack hstack₀ hd hd₀ hclear
  obtain ⟨u, _, hbegin', -, hlive, -⟩ := @beginProcess_spec U k bs k.directories tables free
    kernelMemory eip p d stack r₁ r₂ r₃ hplace h.kernel h.space hp hp₀ hstack hstack₀ hd hd₀
  obtain rfl : k' = u := by
    have he := Option.some.inj (hbegin.symm.trans hbegin')
    exact (Prod.mk.inj (Prod.mk.inj he).2).2
  have honce := hfilling.space.heap.once
  simp only [hlive, List.map_cons, List.nodup_cons, List.mem_cons, not_or] at honce
  have hnew : ∀ m, (stack, m) ∉ k.live := fun m hm =>
    honce.2.1.2 (List.mem_map.mpr ⟨_, hm, rfl⟩)
  refine ⟨k', bs', hbegin, hfilling, beginProcess_fields h.space.heap hbegin hlive, ⟨?_, ?_⟩,
    hnew, fun m hm => honce.2.2.1 (List.mem_map.mpr ⟨_, hm, rfl⟩)⟩
  · rw [hlive]
    exact List.mem_cons_of_mem _ List.mem_cons_self
  · rw [List.cons_append, List.mem_cons, not_or]
    exact ⟨fun he => honce.1.1 he.symm, fun hmem => hnew 4096 (h.space.live stack hmem)⟩

/-! ### The queue -/

/-- The list of processes does not matter to the queue. -/
theorem queueProcess_processes (k : Kernel) (p : ℕ) (l : List (ℕ × ℕ)) :
    { queueProcess k p with processes := l } = queueProcess { k with processes := l } p := by
  rw [queueProcess, queueProcess]
  split <;> rfl

/-- Records that are equal are represented by the same memory. -/
theorem Represents.of_desc_eq (h : Represents k t) (hcurrent : t.currentProcess = s.currentProcess)
    (hlive : t.live = s.live) (hdesc : ∀ x, t.desc x = s.desc x) : Represents k s :=
  ⟨hcurrent ▸ h.current, hlive ▸ h.live, fun x hx => (hdesc x).symm.trans (h.desc x (hlive ▸ hx))⟩

/-- Inserting touches the links, and `current_process` when there was none. -/
theorem insertProcess_fields (s : Scheduler) (p : Word) :
    (insertProcess s p).live = s.live ∧ (insertProcess s p).currentProcess
      = if s.currentProcess = 0 then p else s.currentProcess := by
  rw [insertProcess]
  split <;> exact ⟨rfl, rfl⟩

/-- A descriptor with the fields of a new one is put into the queue. -/
theorem Represents.insert {p : Word} {stack directory eip : Word} {d : ℕ} (h : Represents k s)
    (hring : RingInv s) (hsep : Separate (p.toNat :: k.descriptors)) (hp₀ : p ≠ 0)
    (hp : p ∉ s.live) (hnew : descAt k.ram.byte p.toNat
      = newProcess (descAt k.ram.byte p.toNat) stack directory eip) :
    Represents (LoofOS.queueProcess { k with processes := (p.toNat, d) :: k.processes } p.toNat)
      (LoofOS.createProcess s p stack directory eip) := by
  set t : Scheduler := { s with
    live := p :: s.live
    desc := Function.update s.desc p (descAt k.ram.byte p.toNat) } with ht
  have hself : t.desc p = descAt k.ram.byte p.toNat := Function.update_self _ _ _
  have hother : ∀ x, x ≠ p → t.desc x = s.desc x := fun x hx => Function.update_of_ne hx _ _
  have hrep : Represents { k with processes := (p.toNat, d) :: k.processes } t := by
    refine ⟨h.current, congrArg (p.toNat :: ·) h.live, fun x hx => ?_⟩
    by_cases he : x = p
    · rw [he, hself]
    · rw [hother x he]
      exact h.desc x ((List.mem_cons.mp hx).resolve_left he)
  have hcurrent : s.currentProcess ≠ 0 → s.currentProcess ∈ s.live ∧ s.currentProcess ≠ p := by
    intro hc
    have hmem := hring.current_mem hc
    exact ⟨hmem, fun he => hp (he ▸ hmem)⟩
  refine (hrep.queueProcess hsep List.mem_cons_self ?_).of_desc_eq ?_ ?_ fun x => ?_
  · by_cases hc : s.currentProcess = 0
    · exact Or.inl hc
    · obtain ⟨hmem, hne⟩ := hcurrent hc
      have hprev : t.prev s.currentProcess = s.prev s.currentProcess :=
        congrArg ProcessDesc.prev (hother _ hne)
      refine Or.inr ⟨List.mem_cons_of_mem _ hmem, ?_, hne⟩
      exact List.mem_cons_of_mem _ (hprev ▸ (hring.links hmem).2)
  · rw [(insertProcess_fields t p).2, LoofOS.createProcess, (insertProcess_fields _ p).2]
    rfl
  · rw [(insertProcess_fields t p).1, live_createProcess]
  · have hpc : p ≠ s.currentProcess := fun he => (hcurrent (he ▸ hp₀)).2 he.symm
    rw [LoofOS.createProcess]
    set u := ({ s with live := p :: s.live } : Scheduler).modify p
      fun d => newProcess d stack directory eip with hu
    refine insertProcess_desc_congr (show t.currentProcess = u.currentProcess from rfl) hpc
      (fun x hx => ?_) ?_ x
    · rw [hother x hx, hu, Scheduler.desc_modify_of_ne _ _ _ hx]
    · rw [hself, hnew, hu, Scheduler.desc_modify_self]
      rfl

/-- `finishProcess` writes the program, then the last fields, then the links. -/
theorem finishProcess_eq {k₁ : Kernel}
    (hprogram : writeProgram (k.enablePaging (sub32 d kernelBase)) = some k₁) :
    finishProcess kernelMemory p d k = some (queueProcess { beforeQueue kernelMemory p k₁ with
      processes := (p, d) :: (beforeQueue kernelMemory p k₁).processes } p) := by
  have hprocesses : (queueProcess (beforeQueue kernelMemory p k₁) p).processes
      = (beforeQueue kernelMemory p k₁).processes := by
    rw [queueProcess]
    split <;> rfl
  rw [finishProcess, hprogram, ← queueProcess_processes, ← hprocesses]
  rfl

/-- **The last part of `create_process`** does in memory what it does to the records. -/
theorem finishProcess_represents {b : ℕ} (h : SpaceInv U k bs dirs tables free) (hd : d ∈ dirs)
    (hindex : U 0) (hpage : pageOf k.ram.byte d 0 = some (b + pageOffset)) (hb : IsPage b)
    (hlt : b < kernelBase) (hfree : b ∉ free) (hrep : Represents k s) (hring : RingInv s)
    (hlive : ∀ q ∈ p :: k.descriptors, (q, processDescSize) ∈ k.live) (hp : p ∉ k.descriptors)
    (hfields : { descAt k.ram.byte p with state := 0 } = newProcess (descAt k.ram.byte p)
      (BitVec.ofNat 32 stack) (BitVec.ofNat 32 d) (BitVec.ofNat 32 eip))
    (hfinish : finishProcess kernelMemory p d k = some k') :
    Represents k' (LoofOS.createProcess s (BitVec.ofNat 32 p) (BitVec.ofNat 32 stack)
      (BitVec.ofNat 32 d) (BitVec.ofNat 32 eip)) := by
  have hsize : processDescSize = 85 := rfl
  have hstateOffset : stateOffset = 84 := rfl
  have hbounds := h.desc_bounds (hlive p List.mem_cons_self)
  have htoNat : (BitVec.ofNat 32 p : Word).toNat = p := by
    rw [BitVec.toNat_ofNat]
    exact Nat.mod_eq_of_lt hbounds.2.1
  have hbelow : b + 4096 ≤ kernelBase := by
    have hbdvd := hb.dvd
    rw [kernelBase_eq] at hlt ⊢
    omega
  have hsep : Separate (p :: k.descriptors) := by
    refine ⟨fun q hq q' hq' hne => h.heap.live_apart (hlive q hq) (hlive q' hq') hne,
      fun q hq => (h.desc_bounds (hlive q hq)).2.1⟩
  have hfirst : FirstPage U (k.enablePaging (sub32 d kernelBase)) bs dirs tables free d b :=
    ⟨h.enablePaging _, hd, hindex, List.headD_cons, hpage, hb, hlt, hfree⟩
  obtain ⟨k₁, hprogram, halters⟩ := hfirst.writeProgram
  -- the state before the descriptor is put into the queue
  set v := beforeQueue kernelMemory p k₁ with hv
  have hbyte : ∀ x, kernelBase ≤ x → x ≠ p + stateOffset → v.ram.byte x = k.ram.byte x :=
    fun x hx hne => (Mem.store_of_ne _ hne).trans (halters.outside x (Or.inr (hbelow.trans hx)))
  have honly : v.currentProcess = k.currentProcess ∧ v.processes = k.processes := by
    rw [hv, beforeQueue, halters.only]
    exact ⟨rfl, rfl⟩
  have hk' : k' = queueProcess { v with processes := (p, d) :: v.processes } p :=
    Option.some.inj (hfinish.symm.trans (finishProcess_eq hprogram))
  have hrep' : Represents v s := by
    refine hrep.congr honly.1 honly.2 fun q hq x hx hx' => ?_
    have hqb := h.desc_bounds (hlive q (List.mem_cons_of_mem _ hq))
    have happart := h.heap.live_apart (hlive p List.mem_cons_self)
      (hlive q (List.mem_cons_of_mem _ hq)) fun he => hp (he ▸ hq)
    exact hbyte x (hqb.1.trans hx) (by omega)
  have hdesc : descAt v.ram.byte p = { descAt k.ram.byte p with state := 0 } := by
    have hsame : descAt k₁.ram.byte p = descAt k.ram.byte p :=
      descAt_congr fun x hx _ => halters.outside x (Or.inr (hbelow.trans (hbounds.1.trans hx)))
    have hram : v.ram = k₁.ram.store (p + stateOffset) 0 := rfl
    rw [hram, descAt_storeState, hsame]
    rfl
  have hnew : descAt v.ram.byte p = newProcess (descAt v.ram.byte p) (BitVec.ofNat 32 stack)
      (BitVec.ofNat 32 d) (BitVec.ofNat 32 eip) := by
    rw [hdesc]
    exact hfields.trans (newProcess_congr rfl rfl)
  have hsep' : Separate ((BitVec.ofNat 32 p : Word).toNat :: v.descriptors) := by
    rw [htoNat, Kernel.descriptors, honly.2]
    exact hsep
  have hne : (BitVec.ofNat 32 p : Word) ≠ 0 := by
    intro hz
    rw [hz] at htoNat
    exact hbounds.2.2 htoNat.symm
  have hnot : (BitVec.ofNat 32 p : Word) ∉ s.live := fun hmem => hp (htoNat ▸ hrep.mem hmem)
  have hinsert := hrep'.insert (d := d) hring hsep' hne hnot (htoNat.symm ▸ hnew)
  rw [htoNat] at hinsert
  exact hk' ▸ hinsert

/-- Only the first page and the descriptors are written. -/
theorem finishProcess_outside {b x : ℕ} (h : SpaceInv U k bs dirs tables free) (hd : d ∈ dirs)
    (hindex : U 0) (hpage : pageOf k.ram.byte d 0 = some (b + pageOffset)) (hb : IsPage b)
    (hlt : b < kernelBase) (hfree : b ∉ free) (hqueue : Queue k k.descriptors)
    (hlive : ∀ q ∈ p :: k.descriptors, (q, processDescSize) ∈ k.live) (hp : p ∉ k.descriptors)
    (hfinish : finishProcess kernelMemory p d k = some k') (hx : x < b ∨ b + 4096 ≤ x)
    (hout : ∀ q ∈ p :: k.descriptors, x < q + prevOffset ∨ q + processDescSize ≤ x) :
    k'.ram.byte x = k.ram.byte x := by
  have hfirst : FirstPage U (k.enablePaging (sub32 d kernelBase)) bs dirs tables free d b :=
    ⟨h.enablePaging _, hd, hindex, List.headD_cons, hpage, hb, hlt, hfree⟩
  obtain ⟨k₁, hprogram, halters⟩ := hfirst.writeProgram
  obtain ⟨hspace, -⟩ := hfirst.harmless halters
  have honly : k₁.currentProcess = k.currentProcess ∧ k₁.live = k.live := by
    rw [halters.only]
    exact ⟨rfl, rfl⟩
  have hqueue' : Queue (k₁.enablePaging (sub32 kernelMemory kernelBase)) k.descriptors := by
    refine hqueue.congr honly.1 fun q hq => Mem.read32_congr fun y hy _ =>
      halters.outside y (Or.inr ?_)
    have hqb := (h.desc_bounds (hlive q (List.mem_cons_of_mem _ hq))).1
    have hbdvd := hb.dvd
    rw [kernelBase_eq] at hlt hqb
    omega
  obtain ⟨-, -, -, -, hbytes⟩ := (hspace.enablePaging (sub32 kernelMemory kernelBase)).ready hqueue'
    (fun q hq => honly.2.symm ▸ hlive q hq) hp rfl
  rw [← Option.some.inj ((finishProcess_eq hprogram).symm.trans hfinish), ← queueProcess_processes]
  exact (hbytes x hout).trans (halters.outside x hx)

/-! ### `create_process` -/

/-- What `create_process` adds: a process with a kernel stack of its own, and the frame `b` for its
first page. Blocks that are neither directories nor tables stay so, those that are no descriptors
either keep their bytes, and so does memory that is still unused. -/
structure Added (k k' : Kernel) (bs bs' : List Block) (tables tables' : List ℕ) (p stack b : ℕ) :
    Prop where
  fresh : p ∉ k.descriptors
  block : (stack, 4096) ∈ k'.live ∧ stack ∉ k'.directories ++ tables'
  stackFresh : ∀ m, (stack, m) ∉ k.live
  other : ∀ q n, (q, n) ∈ k.live → q ∉ k.directories ++ tables →
    (q, n) ∈ k'.live ∧ q ∉ k'.directories ++ tables'
  kept : ∀ q n, (q, n) ∈ k.live → q ∉ k.directories ++ tables → q ∉ k.descriptors →
    q ≠ p ∧ q ≠ stack ∧ ∀ x, q ≤ x → x < q + n → k'.ram.byte x = k.ram.byte x
  below : ∀ x, x < kernelHeap.start → x < b ∨ b + 4096 ≤ x → k'.ram.byte x = k.ram.byte x
  unused : ∀ x, FreeByte bs' x → FreeByte bs x ∧ k'.ram.byte x = k.ram.byte x

/-- A page of the user half lies below the heap. -/
theorem IsPage.below_heap {b x : ℕ} (hb : IsPage b) (hlt : b < kernelBase)
    (hx : kernelHeap.start ≤ x) : b + 4096 ≤ x := by
  have hbdvd := hb.dvd
  have habove := kernelBase_le_heap
  rw [kernelBase_eq] at hlt habove
  omega

/-- **What the last part adds**, when it writes to the first page and to descriptors only. -/
theorem Prepared.added {b : ℕ} {f : ℕ → Option ℕ} {tables₀ free₀ : List ℕ} {k'' : Kernel}
    (hprep : Prepared U k bs tables₀ eip k' bs' tables free r p d stack f)
    (h : SpacesInv U kernelMemory k bs tables₀ free₀) (hframe : IsPage b ∧ b < kernelBase)
    (hdirs : k''.directories = d :: k.directories) (hlive : k''.live = k'.live)
    (hsame : ∀ x, x < b ∨ b + 4096 ≤ x →
      (∀ q ∈ p :: k'.descriptors, x < q + prevOffset ∨ q + processDescSize ≤ x) →
      k''.ram.byte x = k'.ram.byte x) : Added k k'' bs bs' tables₀ tables p stack b := by
  have hfill := hprep.filling
  have hext := hfill.ext
  have hheap := hfill.space.heap
  have hdesc := hfill.descriptors_eq
  have hused := hdesc.symm ▸ hfill.descriptors_live h
  refine ⟨hfill.desc, ?_, hprep.fresh, fun q n hq hnot => ?_, fun q n hq hnot hdescriptor => ?_,
    fun x hx hout => ?_, fun x hx => ?_⟩
  · rw [hlive, hdirs]
    exact hprep.block
  · obtain ⟨hq', hnot', -⟩ := hext.other hq hnot
    rw [hlive, hdirs, List.cons_append, List.mem_cons, not_or]
    exact ⟨hq', fun he => hfill.fresh.2 n (he ▸ hq), hnot'⟩
  · obtain ⟨hq', -, hbytes⟩ := hext.other hq hnot
    have hqp : q ≠ p := fun he => hprep.descriptor n (he ▸ hq)
    refine ⟨hqp, fun he => hprep.fresh n (he ▸ hq), fun x hx hx' =>
      (hsame x (Or.inr ?_) fun q' hmem => ?_).trans (hbytes x hx hx')⟩
    · exact hframe.1.below_heap hframe.2 ((hheap.live_bounds hq').1.le.trans hx)
    · have hne : q' ≠ q := by
        rintro rfl
        exact (List.mem_cons.mp hmem).elim hqp fun hd => hdescriptor (hdesc ▸ hd)
      have happart := hheap.live_apart (hused q' hmem) hq' hne
      omega
  · refine (hsame x hout fun q hq => Or.inl ?_).trans (hext.image x hx)
    have hstart := (hheap.live_bounds (hused q hq)).1
    omega
  · have hbounds := hheap.freeByte_bounds hx
    refine ⟨(hext.unused x hx).1, (hsame x (Or.inr ?_) fun q hq => ?_).trans (hext.unused x hx).2⟩
    · exact hframe.1.below_heap hframe.2 hbounds.1.le
    · have hsize : prevOffset ≤ processDescSize := by decide
      by_contra hin
      exact hheap.not_freeByte (hused q hq) (by omega) (by omega) hx

/-- **The last part of `create_process`**, for a process that is prepared. -/
theorem Prepared.finish {b : ℕ} {f : ℕ → Option ℕ} {tables₀ free₀ : List ℕ}
    (h : SpacesInv U kernelMemory k bs tables₀ free₀)
    (hprep : Prepared U k bs tables₀ eip k' bs' tables free r p d stack f)
    (hplace : KernelPlace kernelMemory) (hU : ∀ i, U i → i < 768) (hzero : U 0)
    (hf : f 0 = some (b + pageOffset)) (hframe : IsPage b ∧ b < kernelBase) (hfree : b ∉ free)
    (hrep : Represents k s) (hring : RingInv s) :
    ∃ k'', finishProcess kernelMemory p d k' = some k'' ∧
      SpacesInv U kernelMemory k'' bs' tables free ∧ Added k k'' bs bs' tables₀ tables p stack b ∧
      Represents k'' (LoofOS.createProcess s (BitVec.ofNat 32 p) (BitVec.ofNat 32 stack)
        (BitVec.ofNat 32 d) (BitVec.ofNat 32 eip)) := by
  obtain ⟨k'', hfinish, hinv, hprocesses, -, hlive, -⟩ :=
    hprep.filling.finish h hplace hU hzero hf hframe hfree
  have hfill := hprep.filling
  have hext := hfill.ext
  have hdesc := hfill.descriptors_eq
  have hnot : p ∉ k'.descriptors := hdesc ▸ hfill.desc
  have hqueue : Queue k' k'.descriptors := hdesc.symm ▸ hfill.queue h
  have hused := hdesc.symm ▸ hfill.descriptors_live h
  have hpage := (hfill.pages 0 hzero).trans hf
  have hother : ∀ q ∈ k.descriptors, ∀ x, q ≤ x → x < q + processDescSize →
      k'.ram.byte x = k.ram.byte x := fun q hq => by
    obtain ⟨hq, hnot⟩ := h.descriptor_not_page hq
    exact (hext.other hq hnot).2.2
  have hdirs : k''.directories = d :: k.directories := congrArg (List.map Prod.snd) hprocesses
  refine ⟨k'', hfinish, hinv, hprep.added h hframe hdirs hlive fun x hx hout => ?_, ?_⟩
  · exact finishProcess_outside hfill.space Filling.mem_directories hzero hpage hframe.1 hframe.2
      hfree hqueue hused hnot hfinish hx hout
  · exact finishProcess_represents hfill.space Filling.mem_directories hzero hpage hframe.1 hframe.2
      hfree (hrep.congr hext.currentProcess hext.processes hother) hring hused hnot
      hprep.fields hfinish

/-- **`create_process`** does in memory what it does to the records: the new process takes two
frames, and its descriptor is put into the queue. -/
theorem SpacesInv.createProcess_represents {blocks : List ℕ}
    (h : SpacesInv U kernelMemory k bs tables free) (hplace : KernelPlace kernelMemory)
    (hU : ∀ i, U i → i < 768) (hzero : U 0) (htop : U 767)
    (hblocks : allocateAll k.ram processSizes = some blocks)
    (hclear : ProcessClear U k.ram.byte blocks) (hrep : Represents k s) (hring : RingInv s)
    (hcreate : k.createProcess kernelMemory eip = some k') :
    ∃ a b free' p d stack bs' tables', free = a :: b :: free' ∧
      SpacesInv U kernelMemory k' bs' tables' free' ∧ Created U kernelMemory k k' p d a b ∧
      Added k k' bs bs' tables tables' p stack b ∧
      Represents k' (LoofOS.createProcess s (BitVec.ofNat 32 p) (BitVec.ofNat 32 stack)
        (BitVec.ofNat 32 d) (BitVec.ofNat 32 eip)) := by
  rcases h.createProcess hplace hU hzero htop hblocks hclear eip with
    ⟨-, hnone⟩ | ⟨a, b, free, p, d, u, _, _, rfl, hp, hd, hsome, -, hcreated, -⟩
  · exact absurd (hnone.symm.trans hcreate) nofun
  obtain rfl := Option.some.inj (hsome.symm.trans hcreate)
  obtain ⟨p', r₁, stack, r₂, d', r₃, t, r₄, t', r₅, h₁, h₂, h₃, h₄, h₅, rfl⟩ :=
    allocateAll_processSizes hblocks
  obtain rfl := Option.some.inj hp
  obtain rfl := Option.some.inj hd
  have hgranted := hclear.granted
  simp only [List.mem_cons, List.not_mem_nil, or_false, not_or] at hgranted
  obtain ⟨hp₀, hstack₀, hd₀, ht₀, ht'₀⟩ := hgranted
  have htable : ∀ v ∈ [t, t'], ∀ j < 1024, entryPresent (Mem.entry k.ram.byte v j) = false :=
    hclear.table
  have htop' : (kernelBase - 4096) / 2 ^ 22 = 767 := rfl
  have hpage : (kernelBase - 4096) / 2 ^ 12 = kernelBase / 4096 - 1 := rfl
  obtain ⟨k₁, bs₁, hbegin, hprep₁⟩ := @SpacesInv.prepare U k bs tables (a :: b :: free) kernelMemory
    eip p' d' stack r₁ r₂ r₃ h hplace hU h₁ (Ne.symm hp₀) h₂ (Ne.symm hstack₀) h₃ (Ne.symm hd₀)
    (hclear.directory d' rfl)
  obtain ⟨k₂, bs₂, hstep₂, hprep₂⟩ := hprep₁.page hU (by omega) (htop'.symm ▸ htop)
    (fun _ _ => rfl) h₄ (Ne.symm ht₀) (htable t List.mem_cons_self)
  rw [hpage] at hprep₂
  obtain ⟨k₃, bs₃, hstep₃, hprep₃⟩ := hprep₂.page hU (show 0 < kernelBase by omega) hzero
    (fun _ => Filling.update_top) h₅ (Ne.symm ht'₀)
    (htable t' (List.mem_cons_of_mem _ List.mem_cons_self))
  rw [Nat.zero_div] at hprep₃
  obtain ⟨k₄, hfinish, hinv, hadded, hrep'⟩ := hprep₃.finish h hplace hU hzero
    (Function.update_self _ _ _) (hprep₂.filling.space.frame b List.mem_cons_self) (fun hb =>
      (List.nodup_cons.mp hprep₂.filling.space.apart.nodup).1 (List.mem_map.mpr ⟨b, hb, rfl⟩))
    hrep hring
  have heq : k.createProcess kernelMemory eip = some k₄ := by
    rw [createProcess_eq, hbegin, Option.bind_some, hstep₂, Option.bind_some, hstep₃,
      Option.bind_some, hfinish]
  obtain rfl := Option.some.inj (heq.symm.trans hcreate)
  exact ⟨a, b, free, p', d', stack, bs₃, _, rfl, hinv, hcreated, hadded, hrep'⟩

end LoofOS
