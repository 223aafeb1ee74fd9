import LoofOS.Paging
import LoofOS.Process

/-!
# Descriptors in Memory

`process_desc` is packed: twenty-one words and the byte of the state. `descAt` reads the record of
`LoofOS.Process` from memory. What an assignment to fields does to this record is found by looking
the offset up among the fields that are assigned (`wordAt_writeFields`), and a descriptor that lies
elsewhere is not changed (`descAt_congr`).

## Main results

* `wordAt_writeFields`: a field after some fields were assigned.
* `descAt_writeContext`: the register sets are assigned.
* `descAt_writeNext`, `descAt_writePrev`, `descAt_storeState`: a link, the state.
-/

namespace LoofOS

/-! ### Layout -/

/-- The word at an address. -/
def wordAt (m : Mem) (a : ℕ) : Word := BitVec.ofNat 32 (m.read32 a)

/-- `interrupt_frame` at an address. -/
def frameAt (m : Mem) (a : ℕ) : InterruptFrame where
  eip := wordAt m (a + 0)
  cs := wordAt m (a + 4)
  eflags := wordAt m (a + 8)
  esp := wordAt m (a + 12)
  ss := wordAt m (a + 16)

/-- `gen_register_set`, at offset 20 of a descriptor. -/
def genRegsAt (m : Mem) (a : ℕ) : GenRegisterSet where
  edi := wordAt m (a + 20)
  esi := wordAt m (a + 24)
  ebp := wordAt m (a + 28)
  ebx := wordAt m (a + 32)
  edx := wordAt m (a + 36)
  ecx := wordAt m (a + 40)
  eax := wordAt m (a + 44)
  esp := wordAt m (a + 48)

/-- `seg_register_set`, at offset 52 of a descriptor. -/
def segRegsAt (m : Mem) (a : ℕ) : SegRegisterSet where
  ds := wordAt m (a + 52)
  es := wordAt m (a + 56)
  fs := wordAt m (a + 60)
  gs := wordAt m (a + 64)

/-- The descriptor at an address. -/
def descAt (m : Mem) (p : ℕ) : ProcessDesc where
  frame := frameAt m p
  genRegs := genRegsAt m p
  segRegs := segRegsAt m p
  esp0 := wordAt m (p + esp0Offset)
  pageDirectory := wordAt m (p + pageDirectoryOffset)
  prev := wordAt m (p + prevOffset)
  next := wordAt m (p + nextOffset)
  state := BitVec.ofNat 8 (m (p + stateOffset)).toNat

/-- The fields of the register sets, with their offsets in a descriptor. -/
def contextFields (c : Context) : List (ℕ × ℕ) :=
  [(0, c.frame.eip.toNat), (4, c.frame.cs.toNat), (8, c.frame.eflags.toNat),
    (12, c.frame.esp.toNat), (16, c.frame.ss.toNat),
    (52, c.segRegs.ds.toNat), (56, c.segRegs.es.toNat), (60, c.segRegs.fs.toNat),
    (64, c.segRegs.gs.toNat),
    (20, c.genRegs.edi.toNat), (24, c.genRegs.esi.toNat), (28, c.genRegs.ebp.toNat),
    (32, c.genRegs.ebx.toNat), (36, c.genRegs.edx.toNat), (40, c.genRegs.ecx.toNat),
    (44, c.genRegs.eax.toNat), (48, c.genRegs.esp.toNat)]

variable {m m' : Mem} {s : Kernel} {p o a : ℕ} {fields : List (ℕ × ℕ)}

theorem toNat_wordAt (m : Mem) (a : ℕ) : (wordAt m a).toNat = m.read32 a := by
  rw [wordAt, BitVec.toNat_ofNat]
  exact Nat.mod_eq_of_lt (m.read32_lt a)

theorem wordAt_congr (h : ∀ x, a ≤ x → x < a + 4 → m' x = m x) : wordAt m' a = wordAt m a := by
  rw [wordAt, wordAt, Mem.read32_congr h]

/-- **A descriptor** depends on its bytes only. -/
theorem descAt_congr (h : ∀ x, p ≤ x → x < p + processDescSize → m' x = m x) :
    descAt m' p = descAt m p := by
  have hword : ∀ o, o + 4 ≤ processDescSize → wordAt m' (p + o) = wordAt m (p + o) := by
    intro o ho
    exact wordAt_congr fun x hx hx' => h x (by omega) (by omega)
  have hstate : m' (p + stateOffset) = m (p + stateOffset) :=
    h _ (Nat.le_add_right _ _) (by simp [stateOffset, processDescSize])
  simp (disch := decide) only [descAt, frameAt, genRegsAt, segRegsAt, hword, hstate]

/-! ### Assigning fields -/

/-- Fields of words, none of which is assigned twice. -/
structure WordFields (fields : List (ℕ × ℕ)) : Prop where
  dvd : ∀ f ∈ fields, 4 ∣ f.1
  nodup : (fields.map Prod.fst).Nodup

/-- **A field after some fields were assigned.** -/
theorem wordAt_writeFields (h : WordFields fields) (ho : 4 ∣ o) :
    wordAt (writeFields s p fields).ram.byte (p + o)
      = ((fields.lookup o).map (BitVec.ofNat 32)).getD (wordAt s.ram.byte (p + o)) := by
  induction fields generalizing s with
  | nil => rfl
  | cons f fields ih =>
      obtain ⟨o', w⟩ := f
      have hrest : WordFields fields :=
        ⟨fun g hg => h.dvd g (List.mem_cons_of_mem _ hg), (List.nodup_cons.mp h.nodup).2⟩
      have hdvd : 4 ∣ o' := h.dvd (o', w) List.mem_cons_self
      rw [writeFields, ih hrest, List.lookup_cons]
      by_cases he : o = o'
      · -- the field is not assigned again
        subst he
        have hnone : fields.lookup o = none := by
          refine List.lookup_eq_none_iff.mpr fun g hg => ?_
          rw [bne_iff_ne]
          rintro rfl
          exact (List.nodup_cons.mp h.nodup).1 (List.mem_map.mpr ⟨g, hg, rfl⟩)
        simp only [hnone, beq_self_eq_true, Option.map_none, Option.getD_none, Option.map_some,
          Option.getD_some]
        apply BitVec.eq_of_toNat_eq
        rw [toNat_wordAt, BitVec.toNat_ofNat]
        exact Mem.read32_write32_self _ _ _
      · simp only [beq_false_of_ne he]
        congr 1
        exact wordAt_congr fun x hx hx' => Mem.write32_of_outside (by omega)

theorem wordFields_contextFields (c : Context) : WordFields (contextFields c) where
  dvd := by simp [contextFields]
  nodup := by
    have hkeys : (contextFields c).map Prod.fst
        = [0, 4, 8, 12, 16, 52, 56, 60, 64, 20, 24, 28, 32, 36, 40, 44, 48] := rfl
    rw [hkeys]
    decide

/-- A byte that is not in one of the fields. -/
theorem writeFields_outside {x : ℕ} (h : ∀ f ∈ fields, x < p + f.1 ∨ p + f.1 + 4 ≤ x) :
    (writeFields s p fields).ram.byte x = s.ram.byte x := by
  induction fields generalizing s with
  | nil => rfl
  | cons f fields ih =>
      rw [writeFields, ih fun g hg => h g (List.mem_cons_of_mem _ hg)]
      exact Mem.write32_of_outside (h f List.mem_cons_self)

/-- What is read after some fields were assigned. -/
theorem writeFields_fields (h : WordFields fields) (hfields : ∀ f ∈ fields, f.1 + 4 ≤ stateOffset) :
    (∀ o, 4 ∣ o → wordAt (writeFields s p fields).ram.byte (p + o)
        = ((fields.lookup o).map (BitVec.ofNat 32)).getD (wordAt s.ram.byte (p + o))) ∧
      (writeFields s p fields).ram.byte (p + stateOffset) = s.ram.byte (p + stateOffset) :=
  ⟨fun _ ho => wordAt_writeFields h ho, writeFields_outside fun f hf => Or.inr (by
    have := hfields f hf
    omega)⟩

/-- **The register sets are assigned.** -/
theorem descAt_writeContext (s : Kernel) (p : ℕ) (c : Context) :
    descAt (writeFields s p (contextFields c)).ram.byte p
      = (descAt s.ram.byte p).setContext c := by
  obtain ⟨hword, hstate⟩ := @writeFields_fields s p (contextFields c) (wordFields_contextFields c)
    (by simp [contextFields, stateOffset])
  simp (disch := decide) only [descAt, frameAt, genRegsAt, segRegsAt, hword, hstate]
  simp [contextFields, List.lookup_cons, ProcessDesc.setContext, esp0Offset, pageDirectoryOffset,
    prevOffset, nextOffset]

/-- **A word of a descriptor is assigned**: the fields are those of the words. -/
theorem writeField_fields (s : Kernel) (p w : ℕ) (ho : 4 ∣ o) (hle : o + 4 ≤ stateOffset) :
    (∀ o', 4 ∣ o' → wordAt (s.write32 (p + o) w).ram.byte (p + o')
        = if o' = o then BitVec.ofNat 32 w else wordAt s.ram.byte (p + o')) ∧
      (s.write32 (p + o) w).ram.byte (p + stateOffset) = s.ram.byte (p + stateOffset) := by
  obtain ⟨hword, hstate⟩ := @writeFields_fields s p [(o, w)] ⟨by simpa using ho, by simp⟩
    (by simpa using hle)
  refine ⟨fun o' ho' => (hword o' ho').trans ?_, hstate⟩
  by_cases he : o' = o
  · simp [he]
  · simp [he]

theorem descAt_writeNext (s : Kernel) (p w : ℕ) :
    descAt (s.write32 (p + nextOffset) w).ram.byte p
      = { descAt s.ram.byte p with next := BitVec.ofNat 32 w } := by
  obtain ⟨hword, hstate⟩ := @writeField_fields nextOffset s p w (by decide) (by decide)
  simp (disch := decide) only [descAt, frameAt, genRegsAt, segRegsAt, hword, hstate]
  rfl

theorem descAt_writePrev (s : Kernel) (p w : ℕ) :
    descAt (s.write32 (p + prevOffset) w).ram.byte p
      = { descAt s.ram.byte p with prev := BitVec.ofNat 32 w } := by
  obtain ⟨hword, hstate⟩ := @writeField_fields prevOffset s p w (by decide) (by decide)
  simp (disch := decide) only [descAt, frameAt, genRegsAt, segRegsAt, hword, hstate]
  rfl

/-- The state is assigned. -/
theorem descAt_storeState (r : Ram) (p : ℕ) (b : UInt8) :
    descAt (r.store (p + stateOffset) b).byte p
      = { descAt r.byte p with state := BitVec.ofNat 8 b.toNat } := by
  have hword : ∀ o, o + 4 ≤ stateOffset →
      wordAt (r.store (p + stateOffset) b).byte (p + o) = wordAt r.byte (p + o) := by
    intro o ho
    exact wordAt_congr fun x _ hx => Mem.store_of_ne b (by omega)
  have hself : (r.store (p + stateOffset) b).byte (p + stateOffset) = b := Mem.store_self _ _ _
  simp (disch := decide) only [descAt, frameAt, genRegsAt, segRegsAt, hword, hself]

end LoofOS
