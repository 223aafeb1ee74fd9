import LoofOS.Bios

/-!
# The exFAT Reader with Its BIOS Calls

`boot/x86/fs/exfat.c` once more, as a program that asks for its sectors. The functions have the
names of those of `LoofOS.Exfat`, and the parts that read no sector are the same. A program stops
where the source goes on forever, or where it leaves the bounds of an array.

## Main results

* `computes_readFileExfat`, `computes_initExfat`: with a BIOS that reads sectors from a drive, the
  programs have the results of the functions of `LoofOS.Exfat`.
* `asks_readFileExfat`, `asks_initExfat`: they make BIOS calls only.
-/

namespace LoofOS

namespace Loader

section Exfat

variable (d : Drive) (v : Volume)

/-- Cluster `c` is read to place `n` of the destination. -/
def loadCluster (dest n c : ℕ) (r : FileRead) : Loader FileRead := do
  let m ← biosExtRead d r.mem (wrap32 (dest + v.clusterBytes * n)) (v.getHeapLba c)
    (v.getClusterSize 1)
  pure ⟨m, r.loaded ++ [c]⟩

/-- The part of the FAT for cluster `c` is read into `fat_buffer`. -/
def loadFat (fatBuffer : Mem) (c : ℕ) : Loader Mem :=
  biosExtRead d fatBuffer 0 (v.getFatLba c) (v.getClusterSize 1)

/-- The branch for files without a chain: `n` consecutive clusters. -/
def loadConsecutive (dest c : ℕ) (r : FileRead) : ℕ → Loader FileRead
  | 0 => pure r
  | n + 1 => do
      let r ← loadConsecutive dest c r n
      loadCluster d v dest n (wrap32 (c + n)) r

/-- One round of the loop that links through the FAT. -/
def linkBody (dest : ℕ) (s : LinkState) : Loader (LinkState ⊕ FileRead) := do
  let read ← loadCluster d v dest s.clustersRead s.currentClusterId s.read
  match fatIndex v s.currentClusterId with
  | none => .stop
  | some i =>
      let next := s.fatBuffer.read32 (4 * i)
      if next = 0xffffffff ∨ next = 0xfffffff7 then pure (Sum.inr read)
      else do
        let fatBuffer ← loadFat d v s.fatBuffer next
        pure (Sum.inl {
          currentClusterId := next
          fatBuffer := fatBuffer
          clustersRead := s.clustersRead + 1
          read := read })

/-- The part of `_read_file_exfat_helper` that loads the file that was found. -/
def loadFile (stack : Mem) (fuel : ℕ) (m : Mem) (dest : ℕ) (e : Extension) : Loader FileRead := do
  let c := e.firstCluster
  let fatBuffer ← loadFat d v stack c
  match fatIndex v c with
  | none => .stop
  | some i =>
      if fatBuffer.read32 (4 * i) = 0 then
        loadConsecutive d v dest c ⟨m, []⟩ (clusterCountOf v e)
      else Dialogue.loop (linkBody d v dest) fuel ⟨c, fatBuffer, 0, ⟨m, []⟩⟩

/-- `_read_file_exfat_helper`. -/
def readFileExfatHelper (stack : Mem) (upcaseTable : ℕ → ℕ) (fuel : ℕ) (m : Mem)
    (call : FileCall) : Loader (ℕ × FileRead) :=
  match findFile v upcaseTable m call with
  | none => .stop
  | some none => pure (0, ⟨m, []⟩)
  | some (some e) => do
      let r ← loadFile d v stack fuel m call.destBuffer e
      pure (clusterCountOf v e, r)

/-- The call of `_read_file_exfat_helper` for the block that starts at `path`. -/
def readBlock (stack : ℕ → Mem) (upcaseTable : ℕ → ℕ) (dest fuel : ℕ) (s : WalkState)
    (path : List Int8) : Loader WalkState := do
  let call := blockCall dest path s.dirsClusters
  let r ← readFileExfatHelper d v (stack s.calls.length) upcaseTable fuel s.mem call
  pure {
    dirsClusters := r.1
    mem := r.2.mem
    calls := s.calls ++ [⟨(findFile v upcaseTable s.mem call).join, r.2.loaded, r.1⟩] }

/-- One round of the loop of `read_file_exfat`. -/
def pathBody (stack : ℕ → Mem) (upcaseTable : ℕ → ℕ) (dest fuel : ℕ)
    (x : List Int8 × WalkState) : Loader ((List Int8 × WalkState) ⊕ (ℕ × WalkState)) :=
  let (path, s) := x
  let c := path.headD 0
  if c = 0 then
    pure (Sum.inr (wrap32 (s.dirsClusters * v.getClusterSize 1 * v.driveBytesPerSector), s))
  else if c = 47 then pure (Sum.inl (path.tail, s))
  else do
    let s' ← readBlock d v stack upcaseTable dest fuel s path
    if s'.dirsClusters = 0 then pure (Sum.inr (0, s'))
    else pure (Sum.inl (path.drop (pathLength path), s'))

/-- `read_file_exfat`. -/
def readFileExfat (rootFirstCluster : ℕ) (stack : ℕ → Mem) (upcaseTable : ℕ → ℕ) (fuel : ℕ)
    (m : Mem) (path : List Int8) (dest : ℕ) : Loader (ℕ × WalkState) := do
  let m ← biosExtRead d m dest (v.getHeapLba rootFirstCluster) (v.getClusterSize 1)
  Dialogue.loop (pathBody d v stack upcaseTable dest fuel) (path.length + 1) (path, ⟨1, m, []⟩)

/-- `init_exfat`. -/
def initExfat (loadBuffer : Mem) (behind : ℕ → ℕ) : Loader Mounted := do
  let buffer ← biosExtRead d loadBuffer 0 (0x100 * 512 / d.bytesPerSector) 1
  let v := bootRecord d.bytesPerSector buffer
  let rootFirstCluster := buffer.read32 96
  let table := fun j => if j < 128 then j else behind j
  let buffer ← biosExtRead d buffer 0 (v.getHeapLba rootFirstCluster) 1
  match upcaseEntry d.bytesPerSector buffer with
  | none => pure ⟨v, rootFirstCluster, table⟩
  | some i => do
      let buffer ← biosExtRead d buffer 0 (v.getHeapLba (buffer.read32 (i + 20))) 1
      pure ⟨v, rootFirstCluster, copyTable table buffer 128⟩

end Exfat

end Loader

/-! ### A BIOS that reads sectors -/

section Refinement

open Dialogue

variable {σ : Type} {env : σ → LoaderOp → BiosReply × σ} {d : Loader.Drive} {v : Volume}
  {disk : Mem}

theorem Volume.lba_lt (v : Volume) (x : ℕ) : wrap32 x / v.driveBytesPerSector < 2 ^ 32 :=
  (Nat.div_le_self _ _).trans_lt (Nat.mod_lt _ (by simp))

section Reading

variable (hread : ReadsSectors env d disk) (hv : v.driveBytesPerSector = d.bytesPerSector)

include hread hv

theorem computes_loadCluster (dest n c : ℕ) (r : FileRead) :
    Computes env (Loader.loadCluster d v dest n c r) (some (loadCluster v disk dest n c r)) :=
  (computes_biosExtRead hread hv (v.lba_lt _) (v.lba_lt _)).bind (computes_ret _)

theorem computes_loadFat (fatBuffer : Mem) (c : ℕ) :
    Computes env (Loader.loadFat d v fatBuffer c) (some (loadFat v disk fatBuffer c)) :=
  computes_biosExtRead hread hv (v.lba_lt _) (v.lba_lt _)

theorem computes_loadConsecutive (dest c : ℕ) (r : FileRead) (n : ℕ) :
    Computes env (Loader.loadConsecutive d v dest c r n)
      (some (loadConsecutive v disk dest c r n)) := by
  induction n with
  | zero => exact computes_ret r
  | succ n ih => exact ih.bind (computes_loadCluster hread hv dest n _ _)

theorem computes_linkBody (dest : ℕ) (t : LinkState) :
    Computes env (Loader.linkBody d v dest t) (outcome (linkBody v disk dest t)) := by
  have hcluster := computes_loadCluster hread hv dest t.clustersRead t.currentClusterId t.read
  rw [linkBody]
  cases hi : fatIndex v t.currentClusterId with
  | none =>
      refine hcluster.bind ?_
      rw [hi]
      exact computes_stop
  | some i =>
      refine hcluster.bind ?_
      rw [hi]
      by_cases hend : t.fatBuffer.read32 (4 * i) = 0xffffffff ∨
          t.fatBuffer.read32 (4 * i) = 0xfffffff7
      · simp only [if_pos hend]
        exact computes_ret _
      · simp only [if_neg hend]
        exact (computes_loadFat hread hv _ _).bind (computes_ret _)

theorem computes_loadFile (stack : Mem) (fuel : ℕ) (m : Mem) (dest : ℕ) (e : Extension) :
    Computes env (Loader.loadFile d v stack fuel m dest e)
      (loadFile v disk stack fuel m dest e) := by
  refine (computes_loadFat hread hv stack e.firstCluster).bind ?_
  rw [loadFile]
  cases hi : fatIndex v e.firstCluster with
  | none => exact computes_stop
  | some i =>
      by_cases hzero : (loadFat v disk stack e.firstCluster).read32 (4 * i) = 0
      · simp only [if_pos hzero]
        exact computes_loadConsecutive hread hv dest e.firstCluster ⟨m, []⟩ (clusterCountOf v e)
      · simp only [if_neg hzero]
        exact computes_loop (computes_linkBody hread hv dest) fuel _

theorem computes_readFileExfatHelper (stack : Mem) (upcaseTable : ℕ → ℕ) (fuel : ℕ) (m : Mem)
    (call : FileCall) :
    Computes env (Loader.readFileExfatHelper d v stack upcaseTable fuel m call)
      (readFileExfatHelper v disk stack upcaseTable fuel m call) := by
  rw [Loader.readFileExfatHelper, readFileExfatHelper]
  cases findFile v upcaseTable m call with
  | none => exact computes_stop
  | some found =>
      cases found with
      | none => exact computes_ret _
      | some e => exact (computes_loadFile hread hv stack fuel m call.destBuffer e).map

theorem computes_readBlock (stack : ℕ → Mem) (upcaseTable : ℕ → ℕ) (dest fuel : ℕ) (t : WalkState)
    (path : List Int8) :
    Computes env (Loader.readBlock d v stack upcaseTable dest fuel t path)
      (readBlock v disk stack upcaseTable dest fuel t path) :=
  (computes_readFileExfatHelper hread hv (stack t.calls.length) upcaseTable fuel t.mem
    (blockCall dest path t.dirsClusters)).map

theorem computes_pathBody (stack : ℕ → Mem) (upcaseTable : ℕ → ℕ) (dest fuel : ℕ)
    (x : List Int8 × WalkState) :
    Computes env (Loader.pathBody d v stack upcaseTable dest fuel x)
      (outcome (pathBody v disk stack upcaseTable dest fuel x)) := by
  obtain ⟨path, t⟩ := x
  simp only [Loader.pathBody, pathBody]
  by_cases hnul : path.headD 0 = 0
  · simp only [if_pos hnul]
    exact computes_ret _
  by_cases hslash : path.headD 0 = 47
  · simp only [if_neg hnul, if_pos hslash]
    exact computes_ret _
  simp only [if_neg hnul, if_neg hslash]
  have hblock := computes_readBlock hread hv stack upcaseTable dest fuel t path
  cases hcall : readBlock v disk stack upcaseTable dest fuel t path with
  | none =>
      rw [hcall] at hblock
      exact hblock.bind_none
  | some t' =>
      rw [hcall] at hblock
      refine hblock.bind ?_
      by_cases hmissing : t'.dirsClusters = 0
      · simp only [if_pos hmissing]
        exact computes_ret _
      · simp only [if_neg hmissing]
        exact computes_ret _

/-- **`read_file_exfat`**, with its calls and without. -/
theorem computes_readFileExfat (root : ℕ) (stack : ℕ → Mem) (upcaseTable : ℕ → ℕ) (fuel : ℕ)
    (m : Mem) (path : List Int8) (dest : ℕ) :
    Computes env (Loader.readFileExfat d v root stack upcaseTable fuel m path dest)
      (readFileExfat v root disk stack upcaseTable fuel m path dest) :=
  (computes_biosExtRead hread hv (v.lba_lt _) (v.lba_lt _)).bind
    (computes_loop (computes_pathBody hread hv stack upcaseTable dest fuel) _ _)

end Reading

/-- **`init_exfat`**, with its calls and without. -/
theorem computes_initExfat (hread : ReadsSectors env d disk) (loadBuffer : Mem) (behind : ℕ → ℕ) :
    Computes env (Loader.initExfat d loadBuffer behind)
      (some (initExfat d.bytesPerSector disk loadBuffer behind)) := by
  have hsector : ∀ (v : Volume) (out : Mem) (lba : ℕ), v.driveBytesPerSector = d.bytesPerSector →
      lba < 2 ^ 32 → Computes env (Loader.biosExtRead d out 0 lba 1)
        (some (biosExtRead v disk out 0 lba 1)) := fun v out lba hv hlba =>
    computes_biosExtRead hread hv hlba (by simp)
  have hfirst : 0x100 * 512 / d.bytesPerSector < 2 ^ 32 :=
    (Nat.div_le_self _ _).trans_lt (by simp)
  refine (hsector ⟨0, 0, 0, 0, d.bytesPerSector⟩ loadBuffer _ rfl hfirst).bind ?_
  rw [initExfat]
  -- the sector of the boot record
  generalize biosExtRead ⟨0, 0, 0, 0, d.bytesPerSector⟩ disk loadBuffer 0
    (0x100 * 512 / d.bytesPerSector) 1 = first
  refine (hsector (bootRecord d.bytesPerSector first) first
    ((bootRecord d.bytesPerSector first).getHeapLba (first.read32 96)) rfl
    (Volume.lba_lt _ _)).bind ?_
  -- the first sector of the root directory
  generalize biosExtRead (bootRecord d.bytesPerSector first) disk first 0
    ((bootRecord d.bytesPerSector first).getHeapLba (first.read32 96)) 1 = second
  cases hentry : upcaseEntry d.bytesPerSector second with
  | none =>
      simp only
      exact computes_ret _
  | some i =>
      simp only
      exact (hsector (bootRecord d.bytesPerSector first) second _ rfl (Volume.lba_lt _ _)).bind
        (computes_ret _)

end Refinement

/-! ### Nothing but BIOS calls -/

section Calls

open Dialogue LoaderOp

variable (d : Loader.Drive) (v : Volume)

theorem asks_biosInt (registers : BiosRegisters) (code : ℕ) (block : BiosBlock) :
    (Loader.biosInt registers code block).Asks IsBiosInt := ⟨trivial, fun _ => trivial⟩

theorem asks_biosExtRead (m : Mem) (addr lba length : ℕ) :
    (Loader.biosExtRead d m addr lba length).Asks IsBiosInt := by
  refine asks_loop (fun t => ?_) _ _
  rw [Loader.extReadBody]
  split
  · exact (asks_biosInt _ _ _).bind fun _ => trivial
  · trivial

theorem asks_biosMemScan (m : Mem) (buffer length : ℕ) :
    (Loader.biosMemScan m buffer length).Asks IsBiosInt := by
  refine asks_loop (fun t => ?_) _ _
  rw [Loader.memScanBody]
  split
  · refine (asks_biosInt _ _ _).bind fun reply => ?_
    simp only
    split <;> trivial
  · trivial

theorem asks_loadCluster (dest n c : ℕ) (r : FileRead) :
    (Loader.loadCluster d v dest n c r).Asks IsBiosInt :=
  (asks_biosExtRead _ _ _ _ _).bind fun _ => trivial

theorem asks_loadConsecutive (dest c : ℕ) (r : FileRead) (n : ℕ) :
    (Loader.loadConsecutive d v dest c r n).Asks IsBiosInt := by
  induction n with
  | zero => trivial
  | succ n ih => exact ih.bind fun _ => asks_loadCluster d v _ _ _ _

theorem asks_linkBody (dest : ℕ) (t : LinkState) :
    (Loader.linkBody d v dest t).Asks IsBiosInt := by
  refine (asks_loadCluster d v _ _ _ _).bind fun read => ?_
  cases fatIndex v t.currentClusterId with
  | none => trivial
  | some i =>
      simp only
      split
      · trivial
      · exact (asks_biosExtRead _ _ _ _ _).bind fun _ => trivial

theorem asks_loadFile (stack : Mem) (fuel : ℕ) (m : Mem) (dest : ℕ) (e : Extension) :
    (Loader.loadFile d v stack fuel m dest e).Asks IsBiosInt := by
  refine (asks_biosExtRead _ _ _ _ _).bind fun fatBuffer => ?_
  cases fatIndex v e.firstCluster with
  | none => trivial
  | some i =>
      simp only
      split
      · exact asks_loadConsecutive d v _ _ _ _
      · exact asks_loop (asks_linkBody d v dest) fuel _

theorem asks_readFileExfatHelper (stack : Mem) (upcaseTable : ℕ → ℕ) (fuel : ℕ) (m : Mem)
    (call : FileCall) :
    (Loader.readFileExfatHelper d v stack upcaseTable fuel m call).Asks IsBiosInt := by
  rw [Loader.readFileExfatHelper]
  split
  · trivial
  · trivial
  · exact (asks_loadFile d v _ _ _ _ _).bind fun _ => trivial

theorem asks_readBlock (stack : ℕ → Mem) (upcaseTable : ℕ → ℕ) (dest fuel : ℕ) (t : WalkState)
    (path : List Int8) :
    (Loader.readBlock d v stack upcaseTable dest fuel t path).Asks IsBiosInt :=
  (asks_readFileExfatHelper d v _ _ _ _ _).bind fun _ => trivial

theorem asks_pathBody (stack : ℕ → Mem) (upcaseTable : ℕ → ℕ) (dest fuel : ℕ)
    (x : List Int8 × WalkState) :
    (Loader.pathBody d v stack upcaseTable dest fuel x).Asks IsBiosInt := by
  simp only [Loader.pathBody]
  split
  · trivial
  split
  · trivial
  · refine (asks_readBlock d v _ _ _ _ _ _).bind fun t' => ?_
    split <;> trivial

theorem asks_readFileExfat (root : ℕ) (stack : ℕ → Mem) (upcaseTable : ℕ → ℕ) (fuel : ℕ) (m : Mem)
    (path : List Int8) (dest : ℕ) :
    (Loader.readFileExfat d v root stack upcaseTable fuel m path dest).Asks IsBiosInt :=
  (asks_biosExtRead _ _ _ _ _).bind fun _ =>
    asks_loop (asks_pathBody d v stack upcaseTable dest fuel) _ _

theorem asks_initExfat (loadBuffer : Mem) (behind : ℕ → ℕ) :
    (Loader.initExfat d loadBuffer behind).Asks IsBiosInt := by
  refine (asks_biosExtRead _ _ _ _ _).bind fun first =>
    (asks_biosExtRead _ _ _ _ _).bind fun second => ?_
  cases upcaseEntry d.bytesPerSector second with
  | none => trivial
  | some i => exact (asks_biosExtRead _ _ _ _ _).bind fun _ => trivial

end Calls

end LoofOS
