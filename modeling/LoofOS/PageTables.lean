import LoofOS.Paging

/-!
# Page Directories and Page Tables

A page directory and a page table are arrays of 1024 words that fill one page each. The entries that
`allocate_page` writes all have the same form, `pageEntry a` for the page at the address `a` of the
kernel, from which the address is read back (`pointed_pageEntry`).
`Tables` says of a set of directories that the entries with an index in `U` are of this form and
lead to tables that no two of them share, and that the entries of the tables are of this form and
lead to pages below `KERNEL_BASE`. What such a directory maps is then given by `pageOf`.

## Main results

* `pointed_pageEntry`: an entry decodes to the page it was made for.
* `Mem.entry_write32`: assigning an entry changes no other.
* `Tables.addTable`, `Tables.addDirectory`, `Tables.setPage`: what the code does to the tables.
* `Tables.translate_eq`: translation by a page directory.
* `allocatePage_of_table`, `allocatePage_of_not_present`: the branches of `allocate_page`.
-/

namespace LoofOS

/-! ### Pages and entries -/

/-- An address at which a page starts. -/
structure IsPage (a : ℕ) : Prop where
  dvd : 4096 ∣ a
  lt : a < 2 ^ 32

theorem tableIndex_lt (addr : ℕ) : addr / 2 ^ 12 % 2 ^ 10 < 1024 := Nat.mod_lt _ (by simp)

/-- The entry of a directory or a table for the page at an address of the kernel. -/
def pageEntry (a : ℕ) : ℕ := 0x7 + 2 ^ 12 * (sub32 a kernelBase / 2 ^ 12)

/-- The address of the kernel at which the code finds what an entry leads to. -/
def pointed (w : ℕ) : ℕ := wrap32 (entryAddr w * 2 ^ 12 + kernelBase)

theorem kernelBase_eq : kernelBase = 0xc0000000 := rfl

theorem entryPresent_pageEntry (a : ℕ) : entryPresent (pageEntry a) = true := by
  rw [entryPresent, pageEntry, decide_eq_true_eq]
  omega

theorem entryRw_pageEntry (a : ℕ) : entryRw (pageEntry a) = true := by
  rw [entryRw, pageEntry, decide_eq_true_eq]
  omega

theorem entryUs_pageEntry (a : ℕ) : entryUs (pageEntry a) = true := by
  rw [entryUs, pageEntry, decide_eq_true_eq]
  omega

theorem entryPs_pageEntry (a : ℕ) : entryPs (pageEntry a) = false := by
  rw [entryPs, pageEntry, decide_eq_false_iff_not]
  omega

theorem sub32_lt (a b : ℕ) : sub32 a b < 2 ^ 32 := Nat.mod_lt _ (Nat.two_pow_pos 32)

theorem pageEntry_lt (a : ℕ) : pageEntry a < 2 ^ 32 := by
  have := sub32_lt a kernelBase
  rw [pageEntry]
  omega

theorem entryAddr_pageEntry (a : ℕ) : entryAddr (pageEntry a) = sub32 a kernelBase / 2 ^ 12 := by
  rw [entryAddr, pageEntry]
  omega

/-- The physical address of a page is one of a page. -/
theorem IsPage.physical {a : ℕ} (h : IsPage a) :
    sub32 a kernelBase / 2 ^ 12 * 2 ^ 12 = sub32 a kernelBase := by
  have hdvd := h.dvd
  have hlt := h.lt
  rw [sub32, kernelBase_eq]
  omega

/-- **An entry decodes to the page it was made for.** -/
theorem pointed_pageEntry {a : ℕ} (h : IsPage a) : pointed (pageEntry a) = a := by
  have hlt := h.lt
  rw [pointed, entryAddr_pageEntry, h.physical, sub32, kernelBase_eq, wrap32]
  omega

/-- A page is known from the entry that points at it. -/
theorem pageEntry_inj {a b : ℕ} (ha : IsPage a) (hb : IsPage b) (h : pageEntry a = pageEntry b) :
    a = b := by
  rw [← pointed_pageEntry ha, h, pointed_pageEntry hb]

/-! ### Arrays of a page -/

/-- The word number `i` of an array. -/
def Mem.entry (m : Mem) (array i : ℕ) : ℕ := m.read32 (array + 4 * i)

/-- **Assigning an entry** of a page changes no other entry of a page. -/
theorem Mem.entry_write32 {m : Mem} {p q i j w : ℕ} (hp : IsPage p) (hq : IsPage q) (hi : i < 1024)
    (hj : j < 1024) : Mem.entry (m.write32 (p + 4 * i) w) q j =
      if q = p ∧ j = i then w % 2 ^ 32 else Mem.entry m q j := by
  have hpdvd := hp.dvd
  have hqdvd := hq.dvd
  by_cases h : q = p ∧ j = i
  · rw [if_pos h, h.1, h.2]
    exact Mem.read32_write32_self m _ w
  · rw [if_neg h]
    refine Mem.read32_write32_of_disjoint ?_
    omega

/-- The entries of a page are the same when its bytes are. -/
theorem Mem.entry_congr {m m' : Mem} {p i : ℕ} (hi : i < 1024)
    (h : ∀ x, p ≤ x → x < p + 4096 → m' x = m x) : Mem.entry m' p i = Mem.entry m p i :=
  Mem.read32_congr fun x _ _ => h x (by omega) (by omega)

/-- The processor finds the entries of a page at its physical address. -/
theorem readPhysical_entry {m : Mem} {p i : ℕ} (hp : IsPage p) (hi : i < 1024) :
    readPhysical m (sub32 p kernelBase + 4 * i) = Mem.entry m p i := by
  have hdvd := hp.dvd
  have hlt := hp.lt
  have haddr : wrap32 (sub32 p kernelBase + 4 * i + kernelBase) = p + 4 * i := by
    rw [wrap32, sub32, kernelBase_eq]
    omega
  rw [readPhysical, haddr, Mem.entry]

/-! ### What a directory maps -/

/-- The physical address of the page that a directory maps at page `n` of the address space. -/
def pageOf (m : Mem) (directory n : ℕ) : Option ℕ :=
  let pde := Mem.entry m directory (n / 1024)
  if entryPresent pde then
    let pte := Mem.entry m (pointed pde) (n % 1024)
    if entryPresent pte then some (entryAddr pte * 2 ^ 12) else none
  else none

/-- No page is mapped where the directory has no table. -/
theorem pageOf_of_not_present {m : Mem} {directory n : ℕ}
    (h : entryPresent (Mem.entry m directory (n / 1024)) = false) :
    pageOf m directory n = none := by
  rw [pageOf, h]
  rfl

/-- What is found through an entry for a table. -/
theorem pageOf_of_table {m : Mem} {directory n t : ℕ} (ht : IsPage t)
    (h : Mem.entry m directory (n / 1024) = pageEntry t) : pageOf m directory n =
      if entryPresent (Mem.entry m t (n % 1024)) then
        some (entryAddr (Mem.entry m t (n % 1024)) * 2 ^ 12) else none := by
  simp only [pageOf, h, entryPresent_pageEntry, pointed_pageEntry ht, if_true]

/-- The directories and tables, as far as the indices in `U` are concerned. -/
structure Tables (U : ℕ → Prop) (m : Mem) (dirs tables : List ℕ) : Prop where
  index : ∀ i, U i → i < 1024
  page : ∀ p ∈ dirs ++ tables, IsPage p
  nodup : (dirs ++ tables).Nodup
  pde : ∀ d ∈ dirs, ∀ i, U i → entryPresent (Mem.entry m d i) = true →
    ∃ t ∈ tables, Mem.entry m d i = pageEntry t
  once : ∀ d ∈ dirs, ∀ d' ∈ dirs, ∀ i i', U i → U i' → entryPresent (Mem.entry m d i) = true →
    Mem.entry m d i = Mem.entry m d' i' → d = d' ∧ i = i'
  pte : ∀ t ∈ tables, ∀ j < 1024, entryPresent (Mem.entry m t j) = true →
    ∃ a, IsPage a ∧ a < kernelBase ∧ Mem.entry m t j = pageEntry a

namespace Tables

variable {U : ℕ → Prop} {m m' : Mem} {dirs tables : List ℕ} {d t a i j : ℕ}

/-- A directory is a page of the kernel heap. -/
theorem dir_page (h : Tables U m dirs tables) (hd : d ∈ dirs) : IsPage d :=
  h.page d (List.mem_append_left _ hd)

/-- A table is a page of the kernel heap. -/
theorem table_page (h : Tables U m dirs tables) (ht : t ∈ tables) : IsPage t :=
  h.page t (List.mem_append_right _ ht)

/-- No table is a directory. -/
theorem not_dir_of_table (h : Tables U m dirs tables) (ht : t ∈ tables) : t ∉ dirs := fun hd =>
  (List.nodup_append.mp h.nodup).2.2 t hd t ht rfl

/-- The tables depend on the entries of their pages only. -/
theorem congr (h : Tables U m dirs tables)
    (heq : ∀ p ∈ dirs ++ tables, ∀ i < 1024, Mem.entry m' p i = Mem.entry m p i) :
    Tables U m' dirs tables where
  index := h.index
  page := h.page
  nodup := h.nodup
  pde d hd i hi := by
    rw [heq d (List.mem_append_left _ hd) i (h.index i hi)]
    exact h.pde d hd i hi
  once d hd d' hd' i i' hi hi' := by
    rw [heq d (List.mem_append_left _ hd) i (h.index i hi),
      heq d' (List.mem_append_left _ hd') i' (h.index i' hi')]
    exact h.once d hd d' hd' i i' hi hi'
  pte t ht j hj := by
    rw [heq t (List.mem_append_right _ ht) j hj]
    exact h.pte t ht j hj

/-- What is mapped depends on the entries of these pages only. -/
theorem pageOf_congr (h : Tables U m dirs tables)
    (heq : ∀ p ∈ dirs ++ tables, ∀ i < 1024, Mem.entry m' p i = Mem.entry m p i) (hd : d ∈ dirs)
    {n : ℕ} (hn : U (n / 1024)) : pageOf m' d n = pageOf m d n := by
  have hpde := heq d (List.mem_append_left _ hd) _ (h.index _ hn)
  by_cases hpresent : entryPresent (Mem.entry m d (n / 1024)) = true
  · obtain ⟨t, ht, he⟩ := h.pde d hd _ hn hpresent
    have hpte := heq t (List.mem_append_right _ ht) (n % 1024) (Nat.mod_lt _ (by simp))
    rw [pageOf_of_table (h.table_page ht) he, pageOf_of_table (h.table_page ht) (hpde.trans he),
      hpte]
  · rw [Bool.not_eq_true] at hpresent
    rw [pageOf_of_not_present hpresent, pageOf_of_not_present (by rw [hpde, hpresent])]

/-- The physical address of a mapped page lies behind the memory of the kernel. -/
theorem pageOf_bounds (h : Tables U m dirs tables) (hd : d ∈ dirs) {n f : ℕ} (hn : U (n / 1024))
    (hf : pageOf m d n = some f) : 4096 ∣ f ∧ pageOffset ≤ f ∧ f < 2 ^ 32 := by
  by_cases hpresent : entryPresent (Mem.entry m d (n / 1024)) = true
  · obtain ⟨t, ht, he⟩ := h.pde d hd _ hn hpresent
    rw [pageOf_of_table (h.table_page ht) he] at hf
    split at hf
    · obtain ⟨a, ha, hlt, hpte⟩ := h.pte t ht _ (Nat.mod_lt n (by simp)) ‹_›
      obtain rfl := Option.some.inj hf
      have hdvd := ha.dvd
      rw [hpte, entryAddr_pageEntry, ha.physical, sub32, kernelBase_eq, pageOffset]
      rw [kernelBase_eq] at hlt
      omega
    · cases hf
  · rw [Bool.not_eq_true] at hpresent
    rw [pageOf_of_not_present hpresent] at hf
    cases hf

/-! ### Assigning entries -/

/-- The entries when one of a directory has been written: an entry of a directory that is present is
that one or an old one. -/
theorem addTable_entries (h : Tables U m dirs tables) (hd : d ∈ dirs) (hi : U i)
    (hm : m' = m.write32 (d + 4 * i) (pageEntry t)) :
    Mem.entry m' d i = pageEntry t ∧
      (∀ q, IsPage q → ∀ j < 1024, ¬ (q = d ∧ j = i) → Mem.entry m' q j = Mem.entry m q j) ∧
      ∀ d' ∈ dirs, ∀ i', U i' → entryPresent (Mem.entry m' d' i') = true →
        (d' = d ∧ i' = i) ∨ (¬ (d' = d ∧ i' = i) ∧ Mem.entry m' d' i' = Mem.entry m d' i' ∧
          ∃ u ∈ tables, Mem.entry m d' i' = pageEntry u) := by
  have hi' := h.index i hi
  have hother : ∀ q, IsPage q → ∀ j < 1024, ¬ (q = d ∧ j = i) →
      Mem.entry m' q j = Mem.entry m q j := by
    intro q hq j hj hne
    rw [hm, Mem.entry_write32 (h.dir_page hd) hq hi' hj, if_neg hne]
  refine ⟨?_, hother, fun d' hd' i' hi'' hpresent => ?_⟩
  · rw [hm, Mem.entry_write32 (h.dir_page hd) (h.dir_page hd) hi' hi', if_pos ⟨rfl, rfl⟩,
      Nat.mod_eq_of_lt (pageEntry_lt t)]
  · by_cases he : d' = d ∧ i' = i
    · exact Or.inl he
    · have heq := hother d' (h.dir_page hd') i' (h.index i' hi'') he
      rw [heq] at hpresent
      exact Or.inr ⟨he, heq, h.pde d' hd' i' hi'' hpresent⟩

/-- A table without pages maps none. -/
theorem pageOf_addTable (h : Tables U m dirs tables) (hd : d ∈ dirs) (hi : U i)
    (hnot : entryPresent (Mem.entry m d i) = false) (ht : IsPage t) (hfresh : t ∉ dirs)
    (hclear : ∀ j < 1024, entryPresent (Mem.entry m t j) = false)
    (hm : m' = m.write32 (d + 4 * i) (pageEntry t)) {d' n : ℕ} (hd' : d' ∈ dirs)
    (hn : U (n / 1024)) : pageOf m' d' n = pageOf m d' n := by
  obtain ⟨hself, hother, hcases⟩ := h.addTable_entries hd hi hm
  have htable : ∀ u, IsPage u → u ∉ dirs → ∀ j < 1024, Mem.entry m' u j = Mem.entry m u j :=
    fun u hu hnd j hj => hother u hu j hj fun he => hnd (he.1 ▸ hd)
  have hmod : n % 1024 < 1024 := Nat.mod_lt n (by simp)
  by_cases hpresent : entryPresent (Mem.entry m' d' (n / 1024)) = true
  · rcases hcases d' hd' _ hn hpresent with ⟨rfl, he⟩ | ⟨-, heq, u, hu, he⟩
    · rw [← he] at hself hnot
      rw [pageOf_of_table ht hself, htable t ht hfresh _ hmod, hclear _ hmod,
        pageOf_of_not_present hnot]
      rfl
    · rw [pageOf_of_table (h.table_page hu) (heq.trans he), pageOf_of_table (h.table_page hu) he,
        htable u (h.table_page hu) (h.not_dir_of_table hu) _ hmod]
  · rw [Bool.not_eq_true] at hpresent
    rw [pageOf_of_not_present hpresent, pageOf_of_not_present]
    rwa [hother d' (h.dir_page hd') _ (h.index _ hn) ?_] at hpresent
    rintro ⟨rfl, he⟩
    rw [he, hself, entryPresent_pageEntry] at hpresent
    cases hpresent

/-- **A new table**: an entry that was not present is assigned for a page whose own entries are not
present. Nothing new is mapped. -/
theorem addTable (h : Tables U m dirs tables) (hd : d ∈ dirs) (hi : U i)
    (hnot : entryPresent (Mem.entry m d i) = false) (ht : IsPage t) (hfresh : t ∉ dirs ++ tables)
    (hclear : ∀ j < 1024, entryPresent (Mem.entry m t j) = false)
    (hm : m' = m.write32 (d + 4 * i) (pageEntry t)) :
    Tables U m' dirs (t :: tables) ∧ Mem.entry m' d i = pageEntry t ∧
      ∀ d' ∈ dirs, ∀ n, U (n / 1024) → pageOf m' d' n = pageOf m d' n := by
  obtain ⟨hself, hother, hcases⟩ := h.addTable_entries hd hi hm
  have htable : ∀ u, IsPage u → u ∉ dirs → ∀ j < 1024, Mem.entry m' u j = Mem.entry m u j :=
    fun u hu hnd j hj => hother u hu j hj fun he => hnd (he.1 ▸ hd)
  have htd : t ∉ dirs := fun hmem => hfresh (List.mem_append_left _ hmem)
  refine ⟨⟨h.index, fun q hq => ?_, ?_, fun d' hd' i' hi'' hpresent => ?_, ?_, ?_⟩, hself,
    fun d' hd' n hn => h.pageOf_addTable hd hi hnot ht htd hclear hm hd' hn⟩
  · rcases List.mem_append.mp hq with hq | hq
    · exact h.dir_page hq
    · rcases List.mem_cons.mp hq with rfl | hq
      · exact ht
      · exact h.table_page hq
  · exact List.nodup_middle.mpr (List.nodup_cons.mpr ⟨hfresh, h.nodup⟩)
  · rcases hcases d' hd' i' hi'' hpresent with ⟨rfl, rfl⟩ | ⟨-, heq, u, hu, he⟩
    · exact ⟨t, List.mem_cons_self, hself⟩
    · exact ⟨u, List.mem_cons_of_mem _ hu, heq.trans he⟩
  · -- the new table is not shared, since it was not among the tables
    have hnew : ∀ u ∈ tables, pageEntry u ≠ pageEntry t := by
      intro u hu he
      obtain rfl := pageEntry_inj (h.table_page hu) ht he
      exact hfresh (List.mem_append_right _ hu)
    intro d₁ hd₁ d₂ hd₂ i₁ i₂ hi₁ hi₂ hpresent heq
    have hpresent' := hpresent
    rw [heq] at hpresent'
    rcases hcases d₁ hd₁ i₁ hi₁ hpresent with ⟨rfl, rfl⟩ | ⟨-, h₁, u₁, hu₁, he₁⟩ <;>
      rcases hcases d₂ hd₂ i₂ hi₂ hpresent' with ⟨rfl, rfl⟩ | ⟨-, h₂, u₂, hu₂, he₂⟩
    · exact ⟨rfl, rfl⟩
    · rw [hself, h₂, he₂] at heq
      exact absurd heq.symm (hnew u₂ hu₂)
    · rw [hself, h₁, he₁] at heq
      exact absurd heq (hnew u₁ hu₁)
    · rw [h₁, h₂] at heq
      exact h.once d₁ hd₁ d₂ hd₂ i₁ i₂ hi₁ hi₂ (by rw [he₁, entryPresent_pageEntry]) heq
  · intro u hu j hj hpresent
    rcases List.mem_cons.mp hu with rfl | hu
    · rw [htable u ht htd j hj, hclear j hj] at hpresent
      cases hpresent
    · rw [htable u (h.table_page hu) (h.not_dir_of_table hu) j hj] at hpresent ⊢
      exact h.pte u hu j hj hpresent

/-- **A new directory**, in which no entry of `U` is present. -/
theorem addDirectory (h : Tables U m dirs tables) (hd : IsPage d) (hfresh : d ∉ dirs ++ tables)
    (hclear : ∀ i, U i → entryPresent (Mem.entry m d i) = false) :
    Tables U m (d :: dirs) tables ∧ ∀ n, U (n / 1024) → pageOf m d n = none := by
  refine ⟨⟨h.index, fun q hq => ?_, List.nodup_cons.mpr ⟨hfresh, h.nodup⟩,
    fun d' hd' i hi hpresent => ?_, ?_, h.pte⟩, fun n hn => pageOf_of_not_present (hclear _ hn)⟩
  · rcases List.mem_cons.mp hq with rfl | hq
    · exact hd
    · exact h.page q hq
  · rcases List.mem_cons.mp hd' with rfl | hd'
    · rw [hclear i hi] at hpresent
      cases hpresent
    · exact h.pde d' hd' i hi hpresent
  · intro d₁ hd₁ d₂ hd₂ i₁ i₂ hi₁ hi₂ hpresent heq
    rcases List.mem_cons.mp hd₁ with rfl | hd₁
    · rw [hclear i₁ hi₁] at hpresent
      cases hpresent
    rcases List.mem_cons.mp hd₂ with rfl | hd₂
    · rw [heq, hclear i₂ hi₂] at hpresent
      cases hpresent
    exact h.once d₁ hd₁ d₂ hd₂ i₁ i₂ hi₁ hi₂ hpresent heq

/-- **A new page**: an entry of a table that was not present is assigned. Nothing else is mapped
anew. -/
theorem setPage (h : Tables U m dirs tables) (hd : d ∈ dirs) (hi : U i) (ht : t ∈ tables)
    (he : Mem.entry m d i = pageEntry t) (hj : j < 1024) (ha : IsPage a) (hlt : a < kernelBase)
    (hm : m' = m.write32 (t + 4 * j) (pageEntry a)) :
    Tables U m' dirs tables ∧ pageOf m' d (1024 * i + j) = some (sub32 a kernelBase) ∧
      ∀ d' ∈ dirs, ∀ n, U (n / 1024) → ¬ (d' = d ∧ n = 1024 * i + j) →
        pageOf m' d' n = pageOf m d' n := by
  have htp := h.table_page ht
  have hself : Mem.entry m' t j = pageEntry a := by
    rw [hm, Mem.entry_write32 htp htp hj hj, if_pos ⟨rfl, rfl⟩, Nat.mod_eq_of_lt (pageEntry_lt a)]
  have hother : ∀ q, IsPage q → ∀ k < 1024, ¬ (q = t ∧ k = j) →
      Mem.entry m' q k = Mem.entry m q k := by
    intro q hq k hk hne
    rw [hm, Mem.entry_write32 htp hq hj hk, if_neg hne]
  have hdir : ∀ d' ∈ dirs, ∀ k < 1024, Mem.entry m' d' k = Mem.entry m d' k :=
    fun d' hd' k hk => hother d' (h.dir_page hd') k hk fun hand =>
      h.not_dir_of_table ht (hand.1 ▸ hd')
  refine ⟨⟨h.index, h.page, h.nodup, fun d' hd' k hk => ?_, fun d₁ hd₁ d₂ hd₂ i₁ i₂ hi₁ hi₂ => ?_,
    fun u hu k hk hpresent => ?_⟩, ?_, fun d' hd' n hn hne => ?_⟩
  · rw [hdir d' hd' k (h.index k hk)]
    exact h.pde d' hd' k hk
  · rw [hdir d₁ hd₁ i₁ (h.index i₁ hi₁), hdir d₂ hd₂ i₂ (h.index i₂ hi₂)]
    exact h.once d₁ hd₁ d₂ hd₂ i₁ i₂ hi₁ hi₂
  · by_cases hut : u = t ∧ k = j
    · rw [hut.1, hut.2]
      exact ⟨a, ha, hlt, hself⟩
    · rw [hother u (h.table_page hu) k hk hut] at hpresent ⊢
      exact h.pte u hu k hk hpresent
  · have hdiv : (1024 * i + j) / 1024 = i := by omega
    have hmod : (1024 * i + j) % 1024 = j := by omega
    rw [pageOf_of_table htp (by rw [hdiv, hdir d hd i (h.index i hi), he]), hmod, hself,
      entryPresent_pageEntry, if_pos rfl, entryAddr_pageEntry, ha.physical]
  · have hindex := h.index _ hn
    have hmod : n % 1024 < 1024 := Nat.mod_lt n (by simp)
    by_cases hpresent : entryPresent (Mem.entry m d' (n / 1024)) = true
    · obtain ⟨u, hu, hue⟩ := h.pde d' hd' _ hn hpresent
      have hup := h.table_page hu
      rw [pageOf_of_table hup hue, pageOf_of_table hup (by rw [hdir d' hd' _ hindex, hue]),
        hother u hup _ hmod]
      rintro ⟨rfl, hkj⟩
      -- only the entry of `d` leads to this table
      obtain ⟨rfl, hdiv⟩ := h.once d' hd' d hd _ i hn hi hpresent (hue.trans he.symm)
      exact hne ⟨rfl, by omega⟩
    · rw [Bool.not_eq_true] at hpresent
      rw [pageOf_of_not_present hpresent,
        pageOf_of_not_present (by rw [hdir d' hd' _ hindex, hpresent])]

/-! ### Translation -/

/-- **Translation by a page directory**, at the addresses of `U`: every page that is mapped may be
read and written by anybody. -/
theorem translate_eq (h : Tables U m dirs tables) (hd : d ∈ dirs) {addr : ℕ}
    (hu : U (addr / 2 ^ 22)) : translate m (sub32 d kernelBase) addr =
      (pageOf m d (addr / 2 ^ 12)).map fun f => ⟨f + addr % 2 ^ 12, true, true⟩ := by
  have hindex := h.index _ hu
  have hdiv : addr / 2 ^ 12 / 1024 = addr / 2 ^ 22 := by omega
  rw [translate, (h.dir_page hd).physical, readPhysical_entry (h.dir_page hd) hindex]
  rw [← hdiv] at hu ⊢
  by_cases hpresent : entryPresent (Mem.entry m d (addr / 2 ^ 12 / 1024)) = true
  · obtain ⟨t, ht, he⟩ := h.pde d hd _ hu hpresent
    have htp := h.table_page ht
    have hmod : addr / 2 ^ 12 % 1024 < 1024 := tableIndex_lt addr
    have hread : readPhysical m (sub32 t kernelBase + 4 * (addr / 2 ^ 12 % 2 ^ 10))
        = Mem.entry m t (addr / 2 ^ 12 % 1024) := readPhysical_entry htp hmod
    rw [pageOf_of_table htp he, he]
    simp only [entryPresent_pageEntry, entryPs_pageEntry, entryAddr_pageEntry, htp.physical,
      if_true, Bool.false_eq_true, if_false, hread]
    cases hpte : entryPresent (Mem.entry m t (addr / 2 ^ 12 % 1024)) with
    | false => rfl
    | true =>
        obtain ⟨a, -, -, hae⟩ := h.pte t ht _ hmod hpte
        simp only [hae, entryRw_pageEntry, entryUs_pageEntry]
        rfl
  · rw [Bool.not_eq_true] at hpresent
    rw [pageOf_of_not_present hpresent]
    simp only [hpresent]
    rfl

end Tables

/-! ### The branches of `allocate_page` -/

section AllocatePage

variable {s u : Kernel} {r : Ram} {d addr n t : ℕ}

/-- A call of `kernel_allocate` that is served. -/
theorem Kernel.allocate_of_ne (hcall : kernelAllocate s.ram n = some (t, r)) (hne : t ≠ 0) :
    s.allocate n = some (t, { s with ram := r, live := (t, n) :: s.live }) := by
  rw [Kernel.allocate, hcall, Option.map_some]
  simp only [hne, if_false]

/-- The address is in a page of 4 MiB. -/
theorem allocatePage_of_large (hdeny : ¬ (kernelBase ≤ s.pageFreelist ∨ kernelBase ≤ addr))
    (hpresent : entryPresent (Mem.entry s.ram.byte d (addr / 2 ^ 22)) = true)
    (hps : entryPs (Mem.entry s.ram.byte d (addr / 2 ^ 22)) = true) :
    allocatePage s d addr = some s := by
  have hread : entryPresent (s.read32 (d + 4 * (addr / 2 ^ 22))) = true := hpresent
  have hread' : entryPs (s.read32 (d + 4 * (addr / 2 ^ 22))) = true := hps
  rw [allocatePage, if_neg hdeny]
  simp only [hread, hread', if_true]

/-- There is a table for the address. -/
theorem allocatePage_of_table (hdeny : ¬ (kernelBase ≤ s.pageFreelist ∨ kernelBase ≤ addr))
    (hpresent : entryPresent (Mem.entry s.ram.byte d (addr / 2 ^ 22)) = true)
    (hps : entryPs (Mem.entry s.ram.byte d (addr / 2 ^ 22)) = false) :
    allocatePage s d addr = some (setPage s (pointed (Mem.entry s.ram.byte d (addr / 2 ^ 22)))
      (addr / 2 ^ 12 % 2 ^ 10)) := by
  have hread : entryPresent (s.read32 (d + 4 * (addr / 2 ^ 22))) = true := hpresent
  have hread' : entryPs (s.read32 (d + 4 * (addr / 2 ^ 22))) = false := hps
  rw [allocatePage, if_neg hdeny]
  simp only [hread, hread', if_true, Bool.false_eq_true, if_false]
  rfl

/-- A table for the address has to be made. -/
theorem allocatePage_of_not_present
    (hdeny : ¬ (kernelBase ≤ s.pageFreelist ∨ kernelBase ≤ addr))
    (hnot : entryPresent (Mem.entry s.ram.byte d (addr / 2 ^ 22)) = false)
    (hcall : s.allocate 4096 = some (t, u)) :
    allocatePage s d addr = some (setPage (u.write32 (d + 4 * (addr / 2 ^ 22)) (pageEntry t)) t
      (addr / 2 ^ 12 % 2 ^ 10)) := by
  have hread : entryPresent (s.read32 (d + 4 * (addr / 2 ^ 22))) = false := hnot
  rw [allocatePage, if_neg hdeny]
  simp only [hread, Bool.false_eq_true, if_false, hcall, Option.map_some]
  rfl

end AllocatePage

end LoofOS
