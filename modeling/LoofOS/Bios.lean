import LoofOS.Dialogue
import LoofOS.Exfat

/-!
# The BIOS Calls of the Boot Loader

`bios_ext_read` and `bios_mem_scan` of `boot/x86/bios.c`. The boot loader is a program that asks:
its questions are the calls of `_bios_int`, with the registers that are passed and the block that
they point to, and its other steps on the processor. An answer is what the registers hold after the
interrupt and what the BIOS has left in the buffer of the call. The packet and the buffer on the
stack of `bios_ext_read` are apart from the memory that is read into.

## Main results

* `computes_biosExtRead`: with a BIOS that reads sectors, `bios_ext_read` is the reading of
  `LoofOS.Exfat`.
* `biosExtRead_copies`: it copies consecutive sectors, and nothing else.
* `biosMemScan_scans`: the memory map, up to the capacity of the buffer.
-/

namespace LoofOS

/-! ### Calls -/

/-- `bios_registers`. -/
structure BiosRegisters where
  eax : ℕ
  ebx : ℕ
  ecx : ℕ
  edx : ℕ
  esi : ℕ
  edi : ℕ
  deriving DecidableEq

/-- `bios_dap`, the disk address packet. -/
structure BiosDap where
  dapSize : ℕ
  unused : ℕ
  loadSize : ℕ
  loadOffset : ℕ
  loadSegment : ℕ
  lbaLow : ℕ
  lbaHigh : ℕ
  deriving DecidableEq

/-- What the registers of a call point to, as far as the BIOS reads it: nothing, the packet of a
read, or the signature and the version in the controller block. -/
inductive BiosBlock
  | none
  | packet (dap : BiosDap)
  | controller (signature : List Char) (version : ℕ)
  deriving DecidableEq

/-- A call of `_bios_int`. -/
structure BiosCall where
  code : ℕ
  registers : BiosRegisters
  block : BiosBlock
  deriving DecidableEq

/-- The registers after the interrupt, and the buffer that the call names. -/
structure BiosReply where
  registers : BiosRegisters
  buffer : Mem

/-- What the boot loader asks of the machine. The answer to `enable_paging` is not looked at. -/
inductive LoaderOp
  | biosInt (call : BiosCall)
  | enablePaging (directory : ℕ → ℕ)

/-- A call of `_bios_int`. -/
def LoaderOp.IsBiosInt : LoaderOp → Prop
  | biosInt _ => True
  | enablePaging _ => False

/-- Programs of the boot loader. -/
abbrev Loader := Dialogue LoaderOp BiosReply

namespace Loader

/-- `_bios_int`. -/
def biosInt (registers : BiosRegisters) (code : ℕ) (block : BiosBlock) : Loader BiosReply :=
  .ask (.biosInt ⟨code, registers, block⟩) .ret

/-! ### Reading sectors -/

/-- `drive_bytes_per_sector` and `drive_number`, and where the buffer and the packet of
`bios_ext_read` are on the stack. -/
structure Drive where
  bytesPerSector : ℕ
  number : ℕ
  tempBuffer : ℕ
  tempDap : ℕ

/-- `if (++temp_dap.lba_low == 0) temp_dap.lba_high++`. -/
def nextSector (dap : BiosDap) : BiosDap :=
  let lbaLow := wrap32 (dap.lbaLow + 1)
  { dap with
    lbaLow := lbaLow
    lbaHigh := if lbaLow = 0 then wrap32 (dap.lbaHigh + 1) else dap.lbaHigh }

/-- The state of the loop of `bios_ext_read`. -/
structure ExtReadState where
  i : ℕ
  tempDap : BiosDap
  mem : Mem

/-- One round of this loop. -/
def extReadBody (d : Drive) (outputAddress length : ℕ) (s : ExtReadState) :
    Loader (ExtReadState ⊕ Mem) :=
  if s.i < length then do
    let reply ← biosInt ⟨0x4200, 0, 0, d.number, d.tempDap, 0⟩ 0x13 (.packet s.tempDap)
    pure (Sum.inl {
      i := s.i + 1
      tempDap := nextSector s.tempDap
      mem := copyBytes s.mem (outputAddress + s.i * d.bytesPerSector) reply.buffer
        d.bytesPerSector })
  else pure (Sum.inr s.mem)

/-- `bios_ext_read`. -/
def biosExtRead (d : Drive) (m : Mem) (outputAddress lbaOffset length : ℕ) : Loader Mem :=
  Dialogue.loop (extReadBody d outputAddress length) (length + 1) {
    i := 0
    tempDap := ⟨0x10, 0, 1, d.tempBuffer % 2 ^ 16, 0, lbaOffset, 0⟩
    mem := m }

/-! ### The memory map -/

/-- `sizeof(address_range)`. -/
def sizeofAddressRange : ℕ := 24

/-- `sizeof(bios_registers)`. -/
def sizeofBiosRegisters : ℕ := 24

/-- The state of the loop of `bios_mem_scan`. -/
structure MemScanState where
  i : ℕ
  registers : BiosRegisters
  mem : Mem

/-- One round of this loop. The BIOS has written a range of 24 bytes at `edi`. -/
def memScanBody (length : ℕ) (s : MemScanState) : Loader (MemScanState ⊕ Mem × ℕ) :=
  if s.i < length then do
    let result ← biosInt s.registers 0x15 .none
    let mem := copyBytes s.mem s.registers.edi result.buffer sizeofAddressRange
    if result.registers.ebx = 0 then pure (Sum.inr (mem, s.i + 1))
    else
      pure (Sum.inl {
        i := s.i + 1
        registers := { s.registers with
          ebx := result.registers.ebx
          edi := wrap32 (s.registers.edi + sizeofBiosRegisters) }
        mem := mem })
  else pure (Sum.inr (s.mem, length))

/-- `bios_mem_scan`: memory, and what `*length` is afterwards. -/
def biosMemScan (m : Mem) (buffer length : ℕ) : Loader (Mem × ℕ) :=
  Dialogue.loop (memScanBody length) (length + 1) {
    i := 0
    registers := ⟨0xe820, 0, sizeofAddressRange, 0x534d4150, 0, buffer⟩
    mem := m }

end Loader

/-! ### Copying -/

section Copying

variable {src : ℕ → UInt8} {addr n k x : ℕ}

theorem wrap32_add_ne {a i j : ℕ} (hij : i ≠ j) (hi : i < 2 ^ 32) (hj : j < 2 ^ 32) :
    wrap32 (a + i) ≠ wrap32 (a + j) := by
  rw [wrap32, wrap32]
  omega

/-- Outside its target nothing is copied. -/
theorem copyBytes_of_out (out : Mem) (h : ∀ k < n, x ≠ wrap32 (addr + k)) :
    copyBytes out addr src n x = out x := by
  induction n with
  | zero => rfl
  | succ n ih =>
      rw [copyBytes, Mem.store_of_ne _ (h n (Nat.lt_succ_self n))]
      exact ih fun k hk => h k (Nat.lt_succ_of_lt hk)

/-- The bytes of the target, which may reach over the end of the address space. -/
theorem copyBytes_at (out : Mem) (hn : n ≤ 2 ^ 32) (hk : k < n) :
    copyBytes out addr src n (wrap32 (addr + k)) = src k := by
  induction n with
  | zero => omega
  | succ n ih =>
      rw [copyBytes]
      rcases Nat.lt_succ_iff_lt_or_eq.mp hk with hlt | rfl
      · rw [Mem.store_of_ne _ (wrap32_add_ne hlt.ne (by omega) (by omega))]
        exact ih (by omega) hlt
      · rw [Mem.store_self]

theorem copyBytes_congr {src' : ℕ → UInt8} (out : Mem) (h : ∀ k < n, src k = src' k) :
    copyBytes out addr src n = copyBytes out addr src' n := by
  induction n with
  | zero => rfl
  | succ n ih => rw [copyBytes, copyBytes, ih fun k hk => h k (by omega), h n (Nat.lt_succ_self n)]

end Copying

/-! ### Multi-sector reads -/

section SectorReads

open Loader

variable {σ : Type} {env : σ → LoaderOp → BiosReply × σ} {v : Volume} {d : Drive}
  {disk out : Mem} {addr lba length : ℕ}

/-- The 64-bit sector number of a packet. -/
def BiosDap.sectorNumber (dap : BiosDap) : ℕ := dap.lbaHigh * 2 ^ 32 + dap.lbaLow

/-- Byte `j` of sector `n` of a drive. -/
def Loader.Drive.sector (d : Drive) (disk : Mem) (n j : ℕ) : UInt8 :=
  disk (n * d.bytesPerSector + j)

/-- Every call that reads one sector copies it into the buffer that the packet names. -/
def ReadsSectors (env : σ → LoaderOp → BiosReply × σ) (d : Drive) (disk : Mem) : Prop :=
  ∀ s registers dap, registers.eax = 0x4200 → dap.dapSize = 0x10 → dap.loadSize = 1 →
    ∀ j < d.bytesPerSector,
      (env s (.biosInt ⟨0x13, registers, .packet dap⟩)).1.buffer j
        = d.sector disk dap.sectorNumber j

/-- A packet for one sector, number `n`. -/
structure BiosDap.Names (dap : BiosDap) (n : ℕ) : Prop where
  size : dap.dapSize = 0x10
  one : dap.loadSize = 1
  low : dap.lbaLow = n % 2 ^ 32
  high : dap.lbaHigh = n / 2 ^ 32

theorem BiosDap.Names.sectorNumber_eq {dap : BiosDap} {n : ℕ} (h : dap.Names n) :
    dap.sectorNumber = n := by
  rw [BiosDap.sectorNumber, h.low, h.high, Nat.mul_comm]
  exact Nat.div_add_mod n (2 ^ 32)

/-- **The carry**: the packet goes on to the next sector, also past `2 ^ 32`. -/
theorem BiosDap.Names.next {dap : BiosDap} {n : ℕ} (h : dap.Names n) (hn : n + 1 < 2 ^ 64) :
    (nextSector dap).Names (n + 1) where
  size := h.size
  one := h.one
  low := by
    have hlow := h.low
    simp only [nextSector, wrap32]
    omega
  high := by
    have hlow := h.low
    have hhigh := h.high
    have hwrap : wrap32 (dap.lbaLow + 1) = (dap.lbaLow + 1) % 2 ^ 32 := rfl
    simp only [nextSector]
    split
    · rw [wrap32]
      omega
    · omega

theorem biosExtRead_succ (v : Volume) (disk out : Mem) (addr lba n : ℕ) :
    biosExtRead v disk out addr lba (n + 1)
      = copyBytes (biosExtRead v disk out addr lba n) (addr + n * v.driveBytesPerSector)
          (fun j => disk ((lba + n) * v.driveBytesPerSector + j)) v.driveBytesPerSector := rfl

/-- What `bios_ext_read` has done before round `i`: `i` sectors are read, and the packet names the
next one. -/
structure HasRead (v : Volume) (disk out : Mem) (addr lba length : ℕ)
    (t : ExtReadState) : Prop where
  le : t.i ≤ length
  packet : t.tempDap.Names (lba + t.i)
  mem : t.mem = biosExtRead v disk out addr lba t.i

/-- One round of the loop, while it goes on. -/
theorem run_extReadBody (hread : ReadsSectors env d disk)
    (hv : v.driveBytesPerSector = d.bytesPerSector) (hlba : lba + length < 2 ^ 64)
    {t : ExtReadState} (ht : HasRead v disk out addr lba length t) (hi : t.i < length) (s : σ) :
    ∃ t', ((extReadBody d addr length t).run env s).result = some (Sum.inl t') ∧
      length - t'.i < length - t.i ∧ HasRead v disk out addr lba length t' := by
  obtain ⟨i, dap, m⟩ := t
  obtain ⟨-, hdap, hm⟩ := ht
  simp only at hi hdap hm
  subst hm
  refine ⟨⟨i + 1, nextSector dap, biosExtRead v disk out addr lba (i + 1)⟩, ?_,
    by simp only; omega, hi, hdap.next (by omega), rfl⟩
  have hcopy : copyBytes (biosExtRead v disk out addr lba i) (addr + i * d.bytesPerSector)
      (env s (.biosInt ⟨0x13, ⟨0x4200, 0, 0, d.number, d.tempDap, 0⟩, .packet dap⟩)).1.buffer
      d.bytesPerSector = biosExtRead v disk out addr lba (i + 1) := by
    rw [biosExtRead_succ, hv]
    refine copyBytes_congr _ fun j hj => ?_
    rw [hread s _ dap rfl hdap.size hdap.one j hj, hdap.sectorNumber_eq, Drive.sector]
  simp [extReadBody, hi, biosInt, hcopy]

/-- **With a BIOS that reads sectors**, the loop over the calls reads the drive. -/
theorem computes_biosExtRead (hread : ReadsSectors env d disk)
    (hv : v.driveBytesPerSector = d.bytesPerSector) (hlba : lba < 2 ^ 32)
    (hlength : length < 2 ^ 32) :
    Dialogue.Computes env (Loader.biosExtRead d out addr lba length)
      (some (biosExtRead v disk out addr lba length)) := by
  intro s
  have hstart : HasRead v disk out addr lba length
      ⟨0, ⟨0x10, 0, 1, d.tempBuffer % 2 ^ 16, 0, lba, 0⟩, out⟩ :=
    ⟨Nat.zero_le _, ⟨rfl, rfl, by simp only; omega, by simp only; omega⟩, rfl⟩
  have hround : ∀ (t : ExtReadState) (s : σ), HasRead v disk out addr lba length t →
      (∃ t', ((extReadBody d addr length t).run env s).result = some (Sum.inl t') ∧
        length - t'.i < length - t.i ∧ HasRead v disk out addr lba length t') ∨
      ∃ r, ((extReadBody d addr length t).run env s).result = some (Sum.inr r) ∧
        r = biosExtRead v disk out addr lba length := by
    intro t s ht
    by_cases hi : t.i < length
    · exact Or.inl (run_extReadBody hread hv (by omega) ht hi s)
    · have hlast : t.i = length := by
        have hle := ht.le
        omega
      refine Or.inr ⟨t.mem, by simp [extReadBody, hi], ?_⟩
      rw [ht.mem, hlast]
  obtain ⟨r, hr, rfl⟩ := Dialogue.loop_total
    (I := fun t _ _ => HasRead v disk out addr lba length t)
    (R := fun r _ _ => r = biosExtRead v disk out addr lba length) (fun t => length - t.i)
    (fun t s _ => hround t s) (h := []) (s := s) hstart (Nat.lt_succ_self _)
  exact hr

/-- The bytes that are read, which may reach over the end of the address space. -/
theorem biosExtRead_at (v : Volume) (disk out : Mem) (addr lba : ℕ) {i j n : ℕ} (hi : i < n)
    (hj : j < v.driveBytesPerSector) (hn : n * v.driveBytesPerSector ≤ 2 ^ 32) :
    biosExtRead v disk out addr lba n (wrap32 (addr + (i * v.driveBytesPerSector + j)))
      = disk ((lba + i) * v.driveBytesPerSector + j) := by
  induction n with
  | zero => omega
  | succ n ih =>
      rw [Nat.succ_mul] at hn
      rw [biosExtRead_succ]
      rcases Nat.lt_succ_iff_lt_or_eq.mp hi with hlt | rfl
      · -- the last sector lies behind
        have hbefore : (i + 1) * v.driveBytesPerSector ≤ n * v.driveBytesPerSector :=
          Nat.mul_le_mul_right _ hlt
        rw [Nat.succ_mul] at hbefore
        rw [copyBytes_of_out _ fun k hk => ?_]
        · exact ih hlt (by omega)
        · rw [Nat.add_assoc]
          exact wrap32_add_ne (by omega) (by omega) (by omega)
      · rw [← Nat.add_assoc]
        exact copyBytes_at _ (by omega) hj

theorem biosExtRead_of_out (v : Volume) (disk out : Mem) (addr lba : ℕ) {n x : ℕ}
    (h : ∀ k < n * v.driveBytesPerSector, x ≠ wrap32 (addr + k)) :
    biosExtRead v disk out addr lba n x = out x := by
  induction n with
  | zero => rfl
  | succ n ih =>
      rw [Nat.succ_mul] at h
      rw [biosExtRead_succ, copyBytes_of_out _ fun k hk => ?_]
      · exact ih fun k hk => h k (by omega)
      · rw [Nat.add_assoc]
        exact h _ (by omega)

/-- **Multi-sector reads**: the output is the concatenation of the sectors from `lba` on, and no
other byte changes. -/
theorem biosExtRead_copies (hread : ReadsSectors env d disk) (hlba : lba < 2 ^ 32)
    (hlength : length < 2 ^ 32) (hsize : length * d.bytesPerSector < 2 ^ 31) (s : σ) :
    ∃ out', ((Loader.biosExtRead d out addr lba length).run env s).result = some out' ∧
      (∀ i < length, ∀ j < d.bytesPerSector,
        out' (wrap32 (addr + (i * d.bytesPerSector + j))) = d.sector disk (lba + i) j) ∧
      ∀ x, (∀ k < length * d.bytesPerSector, x ≠ wrap32 (addr + k)) → out' x = out x := by
  have hrun := @computes_biosExtRead σ env ⟨0, 0, 0, 0, d.bytesPerSector⟩ d disk out addr lba length
    hread rfl hlba hlength s
  exact ⟨_, hrun, fun i hi j hj => biosExtRead_at _ disk out addr lba hi hj (by simp only; omega),
    fun x hx => biosExtRead_of_out _ disk out addr lba hx⟩

/-- A BIOS that reads sectors from a drive. -/
def sectorBios (d : Drive) (disk : Mem) (_ : Unit) : LoaderOp → BiosReply × Unit
  | .biosInt ⟨_, registers, .packet dap⟩ => (⟨registers, d.sector disk dap.sectorNumber⟩, ())
  | .biosInt ⟨_, registers, _⟩ => (⟨registers, fun _ => 0⟩, ())
  | .enablePaging _ => (⟨⟨0, 0, 0, 0, 0, 0⟩, fun _ => 0⟩, ())

theorem readsSectors_sectorBios (d : Drive) (disk : Mem) :
    ReadsSectors (sectorBios d disk) d disk := fun _ _ _ _ _ _ _ _ => rfl

/-- The last sector that a 32-bit number names, and the one behind it. -/
theorem biosExtRead_copies_carry :
    ∃ out', ((Loader.biosExtRead ⟨512, 0x80, 0x7000, 0x7200⟩ (fun _ => 0) 0x100000 0xffffffff 2).run
        (sectorBios ⟨512, 0x80, 0x7000, 0x7200⟩ fun a => UInt8.ofNat (a / 512)) ()).result
          = some out' ∧
      (∀ i < 2, ∀ j < 512, out' (wrap32 (0x100000 + (i * 512 + j)))
        = Drive.sector ⟨512, 0x80, 0x7000, 0x7200⟩ (fun a => UInt8.ofNat (a / 512))
            (0xffffffff + i) j) ∧
      ∀ x, (∀ k < 2 * 512, x ≠ wrap32 (0x100000 + k)) → out' x = 0 :=
  biosExtRead_copies (readsSectors_sectorBios _ _) (by simp) (by simp) (by simp) ()

end SectorReads

/-! ### The scan of the memory map -/

section MemoryMap

open Loader

variable {σ : Type} {env : σ → LoaderOp → BiosReply × σ}

/-- A call for the next range of the memory map, with the continuation value `c`. -/
structure BiosCall.Scans (call : BiosCall) (c : ℕ) : Prop where
  code : call.code = 0x15
  eax : call.registers.eax = 0xe820
  ebx : call.registers.ebx = c
  ecx : call.registers.ecx = sizeofAddressRange
  edx : call.registers.edx = 0x534d4150

/-- The BIOS in state `s` answers with the ranges `entries`, given by their bytes, from the
continuation value `c` on: one range a call, and the continuation value 0 exactly with the last. -/
def AnswersScan (env : σ → LoaderOp → BiosReply × σ) : σ → ℕ → List Mem → Prop
  | _, _, [] => False
  | s, c, entry :: entries =>
      ∃ c', (c' = 0 ↔ entries = []) ∧ ∀ call : BiosCall, call.Scans c →
        (∀ j < sizeofAddressRange, (env s (.biosInt call)).1.buffer j = entry j) ∧
        (env s (.biosInt call)).1.registers.ebx = c' ∧
        (entries ≠ [] → AnswersScan env (env s (.biosInt call)).2 c' entries)

/-- Calls for one range after the other: each with the continuation value that the one before
returned, the first one with `c`. -/
def Chained : ℕ → List (LoaderOp × BiosReply) → Prop
  | _, [] => True
  | c, (op, reply) :: rest =>
      (∃ call, op = .biosInt call ∧ call.Scans c) ∧ Chained reply.registers.ebx rest

/-- An array of `capacity` ranges in the address space. -/
structure RangeBuffer where
  address : ℕ
  capacity : ℕ
  fits : sizeofAddressRange * capacity ≤ 2 ^ 32

/-- The address of byte `j` of range number `i`. -/
def RangeBuffer.byte (b : RangeBuffer) (i j : ℕ) : ℕ :=
  wrap32 (b.address + (sizeofAddressRange * i + j))

/-- The memory `m'` holds the first `n` ranges of `entries` in the buffer from range `i` on, and is
`m` elsewhere. -/
structure RangeBuffer.Filled (b : RangeBuffer) (m m' : Mem) (entries : List Mem) (i n : ℕ) :
    Prop where
  entry : ∀ k (hk : k < entries.length), k < n → ∀ j < sizeofAddressRange,
    m' (b.byte (i + k) j) = entries.get ⟨k, hk⟩ j
  frame : ∀ x, (∀ k < n, ∀ j < sizeofAddressRange, x ≠ b.byte (i + k) j) → m' x = m x

section Filling

variable {b : RangeBuffer} {m m₁ m' : Mem} {entries : List Mem} {i n : ℕ}

theorem RangeBuffer.byte_ne {k j j' : ℕ} (hik : i ≠ k) (hi : i < b.capacity) (hk : k < b.capacity)
    (hj : j < sizeofAddressRange) (hj' : j' < sizeofAddressRange) : b.byte i j ≠ b.byte k j' := by
  have hfits := b.fits
  simp only [sizeofAddressRange] at hfits hj hj'
  exact wrap32_add_ne (by simp only [sizeofAddressRange]; omega)
    (by simp only [sizeofAddressRange]; omega) (by simp only [sizeofAddressRange]; omega)

theorem RangeBuffer.Filled.nil : b.Filled m m entries i 0 where
  entry _ _ hk := absurd hk (Nat.not_lt_zero _)
  frame _ _ := rfl

/-- One range in front of others. -/
theorem RangeBuffer.Filled.cons {entry : Mem} (hn : i + (n + 1) ≤ b.capacity)
    (hhere : ∀ j < sizeofAddressRange, m₁ (b.byte i j) = entry j)
    (hframe : ∀ x, (∀ j < sizeofAddressRange, x ≠ b.byte i j) → m₁ x = m x)
    (h : b.Filled m₁ m' entries (i + 1) n) : b.Filled m m' (entry :: entries) i (n + 1) where
  entry k hk hkn j hj := by
    cases k with
    | zero =>
        rw [Nat.add_zero, h.frame _ fun k hk j' hj' => ?_]
        · exact hhere j hj
        · exact RangeBuffer.byte_ne (by omega) (by omega) (by omega) hj hj'
    | succ k =>
        have hentry := h.entry k (Nat.lt_of_succ_lt_succ hk) (by omega) j hj
        rwa [Nat.add_assoc, Nat.add_comm 1] at hentry
  frame x hx := by
    rw [h.frame x fun k hk j hj => ?_]
    · exact hframe x fun j hj => hx 0 (Nat.succ_pos n) j hj
    · have hne := hx (k + 1) (Nat.succ_lt_succ hk) j hj
      rwa [Nat.add_comm k, ← Nat.add_assoc] at hne

end Filling

/-- The registers with which `bios_mem_scan` asks for range `i`. -/
structure ScanRegisters (b : RangeBuffer) (i : ℕ) (registers : BiosRegisters) : Prop where
  scans : BiosCall.Scans ⟨0x15, registers, .none⟩ registers.ebx
  target : ∀ j, wrap32 (registers.edi + j) = b.byte i j

theorem ScanRegisters.next {b : RangeBuffer} {i : ℕ} {registers : BiosRegisters}
    (h : ScanRegisters b i registers) (c : ℕ) :
    ScanRegisters b (i + 1) { registers with
      ebx := c
      edi := wrap32 (registers.edi + sizeofBiosRegisters) } where
  scans := { h.scans with ebx := rfl }
  target j := by
    have htarget := h.target (sizeofBiosRegisters + j)
    have hstride : sizeofBiosRegisters = sizeofAddressRange := rfl
    simp only [RangeBuffer.byte, wrap32, hstride] at htarget ⊢
    rw [Nat.mod_add_mod, Nat.add_assoc, htarget, Nat.mul_succ, Nat.add_assoc]

variable {b : RangeBuffer}

/-- What is copied to `edi` is range `i` afterwards, and nothing else has changed. -/
theorem ScanRegisters.copied {i : ℕ} {registers : BiosRegisters} (h : ScanRegisters b i registers)
    (m : Mem) {src entry : Mem} (hsrc : ∀ j < sizeofAddressRange, src j = entry j) :
    (∀ j < sizeofAddressRange,
      copyBytes m registers.edi src sizeofAddressRange (b.byte i j) = entry j) ∧
    ∀ x, (∀ j < sizeofAddressRange, x ≠ b.byte i j) →
      copyBytes m registers.edi src sizeofAddressRange x = m x := by
  constructor
  · intro j hj
    rw [← h.target, copyBytes_at m (by simp [sizeofAddressRange]) hj, hsrc j hj]
  · intro x hx
    refine copyBytes_of_out m fun j hj => ?_
    rw [h.target]
    exact hx j hj

/-- One round of the loop below the capacity. -/
theorem run_memScanBody_eq {i : ℕ} {r : BiosRegisters} {m : Mem} {s : σ} (hi : i < b.capacity) :
    (memScanBody b.capacity ⟨i, r, m⟩).run env s
      = ⟨[(.biosInt ⟨0x15, r, .none⟩, (env s (.biosInt ⟨0x15, r, .none⟩)).1)],
          (env s (.biosInt ⟨0x15, r, .none⟩)).2,
          some (if (env s (.biosInt ⟨0x15, r, .none⟩)).1.registers.ebx = 0 then
            Sum.inr (copyBytes m r.edi (env s (.biosInt ⟨0x15, r, .none⟩)).1.buffer
              sizeofAddressRange, i + 1)
          else
            Sum.inl ⟨i + 1, { r with
                ebx := (env s (.biosInt ⟨0x15, r, .none⟩)).1.registers.ebx
                edi := wrap32 (r.edi + sizeofBiosRegisters) },
              copyBytes m r.edi (env s (.biosInt ⟨0x15, r, .none⟩)).1.buffer
                sizeofAddressRange⟩)⟩ := by
  simp only [memScanBody, hi, if_true, biosInt, Dialogue.bind_eq, Dialogue.ask_bind,
    Dialogue.ret_bind, Dialogue.run_ask]
  split <;> rfl

/-- **The loop from range `i` on**, on a buffer that is not longer than the address space. -/
theorem run_memScanBody {entries : List Mem} {i fuel : ℕ} {registers : BiosRegisters} {m : Mem}
    {s : σ} (hreg : ScanRegisters b i registers) (hi : i ≤ b.capacity)
    (hfuel : b.capacity - i < fuel) (h : AnswersScan env s registers.ebx entries) :
    ∃ m', ((Dialogue.loop (memScanBody b.capacity) fuel ⟨i, registers, m⟩).run env s).result
        = some (m', i + min entries.length (b.capacity - i)) ∧
      b.Filled m m' entries i (min entries.length (b.capacity - i)) ∧
      Chained registers.ebx
        ((Dialogue.loop (memScanBody b.capacity) fuel ⟨i, registers, m⟩).run env s).said ∧
      ((Dialogue.loop (memScanBody b.capacity) fuel ⟨i, registers, m⟩).run env s).said.length
        = min entries.length (b.capacity - i) := by
  induction fuel generalizing entries i registers m s with
  | zero => omega
  | succ fuel ih =>
      by_cases hlt : i < b.capacity
      · cases entries with
        | nil => cases h
        | cons entry entries =>
            obtain ⟨c', hlast, hcall⟩ := h
            obtain ⟨hbuffer, hebx, hrest⟩ := hcall ⟨0x15, registers, .none⟩ hreg.scans
            -- the range that this round writes
            obtain ⟨hhere, hframe⟩ := hreg.copied m hbuffer
            have hround := @run_memScanBody_eq σ env b i registers m s hlt
            by_cases hnil : entries = []
            · subst hnil
              rw [hebx, if_pos (hlast.mpr rfl)] at hround
              have hmin : min [entry].length (b.capacity - i) = 0 + 1 := by
                simp only [List.length_singleton]
                omega
              rw [Dialogue.run_loop_of_inr (by rw [hround]), hround, hmin]
              exact ⟨_, rfl, RangeBuffer.Filled.nil.cons (by omega) hhere hframe,
                ⟨⟨_, rfl, hreg.scans⟩, trivial⟩, rfl⟩
            · rw [hebx, if_neg fun hzero => hnil (hlast.mp hzero)] at hround
              have hmin : min (entry :: entries).length (b.capacity - i)
                  = min entries.length (b.capacity - (i + 1)) + 1 := by
                simp only [List.length_cons]
                omega
              obtain ⟨m', hresult, hfilled, hchained, hlen⟩ := ih (hreg.next c') hlt (by omega)
                (m := copyBytes m registers.edi
                  (env s (.biosInt ⟨0x15, registers, .none⟩)).1.buffer sizeofAddressRange)
                (hrest hnil)
              rw [Dialogue.run_loop_of_inl (by rw [hround]), hround, hmin]
              refine ⟨m', ?_, hfilled.cons (by omega) hhere hframe, ⟨⟨_, rfl, hreg.scans⟩, ?_⟩, ?_⟩
              · rw [hresult, Nat.add_right_comm, Nat.add_assoc]
              · rw [hebx]
                exact hchained
              · rw [List.length_append, List.length_singleton, hlen, Nat.add_comm]
      · obtain rfl : i = b.capacity := by omega
        have hround : ((memScanBody b.capacity ⟨b.capacity, registers, m⟩).run env s)
            = ⟨[], s, some (Sum.inr (m, b.capacity))⟩ := by simp [memScanBody]
        rw [Dialogue.run_loop_of_inr (by rw [hround]), hround, Nat.sub_self, Nat.min_zero]
        exact ⟨m, rfl, RangeBuffer.Filled.nil, trivial, rfl⟩

/-- **The scan of the memory map.** The buffer holds the ranges up to its capacity, `*length` is
their number, no other byte changes, and there is one call for each of them, with the continuation
value that the call before returned. -/
theorem biosMemScan_scans (b : RangeBuffer) (m : Mem) {entries : List Mem} {s : σ}
    (h : AnswersScan env s 0 entries) :
    ∃ m', ((biosMemScan m b.address b.capacity).run env s).result
        = some (m', min entries.length b.capacity) ∧
      (∀ i (hi : i < entries.length), i < b.capacity → ∀ j < sizeofAddressRange,
        m' (b.byte i j) = entries.get ⟨i, hi⟩ j) ∧
      (∀ x, (∀ i < min entries.length b.capacity, ∀ j < sizeofAddressRange, x ≠ b.byte i j) →
        m' x = m x) ∧
      ((biosMemScan m b.address b.capacity).run env s).said.length
        = min entries.length b.capacity ∧
      Chained 0 ((biosMemScan m b.address b.capacity).run env s).said := by
  have hreg : ScanRegisters b 0 ⟨0xe820, 0, sizeofAddressRange, 0x534d4150, 0, b.address⟩ :=
    ⟨⟨rfl, rfl, rfl, rfl, rfl⟩, fun j => by rw [RangeBuffer.byte, Nat.mul_zero, Nat.zero_add]⟩
  obtain ⟨m', hresult, hfilled, hchained, hlen⟩ :=
    run_memScanBody (m := m) hreg (Nat.zero_le _) (Nat.lt_succ_self _) h
  rw [Nat.sub_zero] at hresult hfilled hlen
  rw [Nat.zero_add] at hresult
  refine ⟨m', hresult, fun i hi hcap j hj => ?_, fun x hx => ?_, hlen, hchained⟩
  · have hentry := hfilled.entry i hi (by omega) j hj
    rwa [Nat.zero_add] at hentry
  · exact hfilled.frame x fun k hk j hj => by rw [Nat.zero_add]; exact hx k hk j hj

/-- A BIOS with two ranges: free memory, and memory that is reserved. -/
def twoRanges (_ : Unit) : LoaderOp → BiosReply × Unit
  | .biosInt ⟨_, registers, _⟩ =>
      if registers.ebx = 0 then
        (⟨{ registers with ebx := 1 }, fun j => if j = 16 then 1 else 0⟩, ())
      else (⟨{ registers with ebx := 0 }, fun j => if j = 16 then 2 else 0⟩, ())
  | .enablePaging _ => (⟨⟨0, 0, 0, 0, 0, 0⟩, fun _ => 0⟩, ())

theorem answersScan_twoRanges : AnswersScan twoRanges () 0
    [fun j => if j = 16 then 1 else 0, fun j => if j = 16 then 2 else 0] := by
  refine ⟨1, by simp, fun call hcall => ?_⟩
  have hzero : call.registers.ebx = 0 := hcall.ebx
  refine ⟨fun j _ => by simp [twoRanges, hzero], by simp [twoRanges, hzero], fun _ => ?_⟩
  refine ⟨0, by simp, fun call hcall => ?_⟩
  have hone : call.registers.ebx = 1 := hcall.ebx
  exact ⟨fun j _ => by simp [twoRanges, hone], by simp [twoRanges, hone], fun h => absurd rfl h⟩

/-- A buffer with room for one range. -/
def oneRange : RangeBuffer where
  address := 0x9000
  capacity := 1
  fits := Nat.le_of_ble_eq_true rfl

theorem biosMemScan_scans_first :
    ∃ m', ((biosMemScan (fun _ => 0) oneRange.address oneRange.capacity).run twoRanges ()).result
        = some (m', min 2 1) ∧
      (∀ i (hi : i < 2), i < 1 → ∀ j < sizeofAddressRange, m' (oneRange.byte i j)
        = [fun j => if j = 16 then 1 else 0, fun j => if j = 16 then 2 else 0].get ⟨i, hi⟩ j) ∧
      (∀ x, (∀ i < min 2 1, ∀ j < sizeofAddressRange, x ≠ oneRange.byte i j) → m' x = 0) ∧
      ((biosMemScan (fun _ => 0) oneRange.address oneRange.capacity).run twoRanges ()).said.length
        = min 2 1 ∧
      Chained 0
        ((biosMemScan (fun _ => 0) oneRange.address oneRange.capacity).run twoRanges ()).said :=
  biosMemScan_scans oneRange (fun _ => 0) answersScan_twoRanges

end MemoryMap

end LoofOS
