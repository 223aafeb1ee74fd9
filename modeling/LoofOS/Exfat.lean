import LoofOS.Alloc

/-!
# The exFAT Reader of the Boot Loader

`boot/x86/fs/exfat.c` with `bios_ext_read` of `boot/x86/bios.c`. A drive is the sequence of
its bytes; a sector of the drive has `drive_bytes_per_sector` bytes, while the boot record
counts in sectors of 512 bytes from the start of the partition, which is sector `0x100`.

Arithmetic on `uint32_t` is reduced modulo `2 ^ 32`; one reduction of a sum of products
and shifts has the same result as one at each operation. The buffers of
`_read_file_exfat_helper` on the stack are apart from the memory that it reads into; what
they hold at first is a parameter.

`FileRead` carries, beside the memory, the list of clusters that were loaded. No function
reads it.
-/

namespace LoofOS

/-- The fields of the boot record that describe where the clusters are, and
`drive_bytes_per_sector`. -/
structure Volume where
  fatOffset : ℕ
  clusterHeapOffset : ℕ
  clusterCount : ℕ
  sectorsPerClusterShift : ℕ
  driveBytesPerSector : ℕ

namespace Volume

variable (v : Volume)

/-- `x << sectors_per_cluster_shift`. -/
def shiftCluster (x : ℕ) : ℕ := x * bit32 v.sectorsPerClusterShift

/-- `get_heap_lba`. -/
def getHeapLba (index : ℕ) : ℕ :=
  wrap32 ((0x100 + v.clusterHeapOffset + v.shiftCluster (sub32 index 2)) * 512)
    / v.driveBytesPerSector

/-- `get_fat_lba`. -/
def getFatLba (index : ℕ) : ℕ :=
  wrap32 ((0x100 + v.fatOffset + wrap32 (index * 4) / 512) * 512) / v.driveBytesPerSector

/-- `get_cluster_size`. -/
def getClusterSize (size : ℕ) : ℕ :=
  wrap32 (v.shiftCluster size * 512) / v.driveBytesPerSector

/-- The bytes of a cluster, as the reader computes them. -/
def clusterBytes : ℕ := wrap32 (v.driveBytesPerSector * v.getClusterSize 1)

/-- `id_per_cluster`. -/
def idPerCluster : ℕ := v.clusterBytes / 4

end Volume

/-! ### Reading sectors -/

/-- The inner loop of `bios_ext_read`: `n` bytes are copied to `addr`. -/
def copyBytes (out : Mem) (addr : ℕ) (src : ℕ → UInt8) : ℕ → Mem
  | 0 => out
  | n + 1 => (copyBytes out addr src n).store (wrap32 (addr + n)) (src n)

/-- `bios_ext_read`: `length` sectors are read from `lba` on. -/
def biosExtRead (v : Volume) (disk : Mem) (out : Mem) (addr lba : ℕ) : ℕ → Mem
  | 0 => out
  | n + 1 =>
      copyBytes (biosExtRead v disk out addr lba n) (addr + n * v.driveBytesPerSector)
        (fun j => disk ((lba + n) * v.driveBytesPerSector + j)) v.driveBytesPerSector

/-! ### Searching a directory -/

/-- The arguments of `_read_file_exfat_helper`, with the addresses of the two buffers. -/
structure FileCall where
  name : ℕ → Int8
  nameLen : ℕ
  dirBuffer : ℕ
  clusters : ℕ
  destBuffer : ℕ

/-- The fields of a stream extension entry that reading uses. -/
structure Extension where
  firstCluster : ℕ
  dataLength : ℕ
  deriving DecidableEq

/-- `exfat_generic_dir_entry` number `i`. -/
def dirEntry (call : FileCall) (i : ℕ) : ℕ := call.dirBuffer + 32 * i

/-- `filename` after the characters of `count` name entries from entry `i + 2` on have been
copied into it. -/
def copyName (m : Mem) (call : FileCall) (i count : ℕ) (filename : ℕ → ℕ) : ℕ → ℕ := fun k =>
  if k < 15 * count then
    let char := dirEntry call (i + k / 15 + 2) + 2 + 2 * (k % 15)
    (m char).toNat + 2 ^ 8 * (m (char + 1)).toNat
  else filename k

/-- `name_equal`. -/
def nameEqual (call : FileCall) (filename : ℕ → ℕ) : Bool :=
  (List.range call.nameLen).all fun j => (filename j : ℤ) == (call.name j).toInt

/-- The number of directory entries in the buffer. -/
def entryCount (v : Volume) (call : FileCall) : ℕ :=
  wrap32 (v.driveBytesPerSector * v.getClusterSize call.clusters) / 32

/-- The loop over the directory entries, in the state of `i` and `filename`; `none` is a
file with more name characters than `filename` has room for. -/
def searchEntry (v : Volume) (upcaseTable : ℕ → ℕ) (m : Mem) (call : FileCall)
    (s : ℕ × (ℕ → ℕ)) : (ℕ × (ℕ → ℕ)) ⊕ Option (Option Extension) :=
  let (i, filename) := s
  if i < entryCount v call then
    if m (dirEntry call i) = 0x85 then
      let secondaryCount := (m (dirEntry call i + 1)).toNat
      let extension := dirEntry call (i + 1)
      if 17 < secondaryCount - 1 then Sum.inr none
      else
        let filename := fun j => upcaseTable (copyName m call i (secondaryCount - 1) filename j)
        if (m (extension + 3)).toNat = call.nameLen ∧ nameEqual call filename = true then
          Sum.inr (some (some {
            firstCluster := m.read32 (extension + 20)
            dataLength := m.read32 (extension + 24) + 2 ^ 32 * m.read32 (extension + 28) }))
        else Sum.inl (i + secondaryCount + 1, filename)
    else Sum.inl (i + 1, filename)
  else Sum.inr (some none)

/-- The first file of the directory with the given name, `some none` if there is none. -/
def findFile (v : Volume) (upcaseTable : ℕ → ℕ) (m : Mem) (call : FileCall) :
    Option (Option Extension) :=
  (Loop.iter (searchEntry v upcaseTable m call) (entryCount v call + 1) (0, fun _ => 0)).join

/-! ### Reading a file -/

/-- Memory after reading, and the clusters that were loaded, in order. -/
structure FileRead where
  mem : Mem
  loaded : List ℕ

/-- The clusters that the data of a file takes, as returned to the caller. -/
def clusterCountOf (v : Volume) (e : Extension) : ℕ :=
  sub32 (wrap32 (e.dataLength + v.clusterBytes)) 1 / v.clusterBytes

/-- Cluster `c` is read to place `n` of the destination. -/
def loadCluster (v : Volume) (disk : Mem) (dest n c : ℕ) (r : FileRead) : FileRead where
  mem := biosExtRead v disk r.mem (wrap32 (dest + v.clusterBytes * n)) (v.getHeapLba c)
    (v.getClusterSize 1)
  loaded := r.loaded ++ [c]

/-- The part of the FAT for cluster `c` is read into `fat_buffer`. -/
def loadFat (v : Volume) (disk fatBuffer : Mem) (c : ℕ) : Mem :=
  biosExtRead v disk fatBuffer 0 (v.getFatLba c) (v.getClusterSize 1)

/-- `current_cluster_id % id_per_cluster` for values of type `int`; `none` is a negative
index. -/
def fatIndex (v : Volume) (c : ℕ) : Option ℕ :=
  if c < 2 ^ 31 then some (c % v.idPerCluster)
  else if (2 ^ 32 - c) % v.idPerCluster = 0 then some 0
  else none

/-- The branch for files without a chain: `n` consecutive clusters. -/
def loadConsecutive (v : Volume) (disk : Mem) (dest c : ℕ) (r : FileRead) : ℕ → FileRead
  | 0 => r
  | n + 1 => loadCluster v disk dest n (wrap32 (c + n)) (loadConsecutive v disk dest c r n)

/-- The state of the loop that links through the FAT. -/
structure LinkState where
  currentClusterId : ℕ
  fatBuffer : Mem
  clustersRead : ℕ
  read : FileRead

/-- One round of this loop. -/
def linkBody (v : Volume) (disk : Mem) (dest : ℕ) (s : LinkState) :
    LinkState ⊕ Option FileRead :=
  let read := loadCluster v disk dest s.clustersRead s.currentClusterId s.read
  match fatIndex v s.currentClusterId with
  | none => Sum.inr none
  | some i =>
      let next := s.fatBuffer.read32 (4 * i)
      if next = 0xffffffff ∨ next = 0xfffffff7 then Sum.inr (some read)
      else
        Sum.inl {
          currentClusterId := next
          fatBuffer := loadFat v disk s.fatBuffer next
          clustersRead := s.clustersRead + 1
          read := read }

/-- The part of `_read_file_exfat_helper` that loads the file that was found; the loop
through the FAT runs at most `fuel` rounds. -/
def loadFile (v : Volume) (disk stack : Mem) (fuel : ℕ) (m : Mem) (dest : ℕ) (e : Extension) :
    Option FileRead :=
  let c := e.firstCluster
  let fatBuffer := loadFat v disk stack c
  match fatIndex v c with
  | none => none
  | some i =>
      if fatBuffer.read32 (4 * i) = 0 then
        some (loadConsecutive v disk dest c ⟨m, []⟩ (clusterCountOf v e))
      else (Loop.iter (linkBody v disk dest) fuel ⟨c, fatBuffer, 0, ⟨m, []⟩⟩).join

/-- `_read_file_exfat_helper`, with the value it returns. -/
def readFileExfatHelper (v : Volume) (disk stack : Mem) (upcaseTable : ℕ → ℕ) (fuel : ℕ)
    (m : Mem) (call : FileCall) : Option (ℕ × FileRead) :=
  (findFile v upcaseTable m call).bind fun found =>
    match found with
    | none => some (0, ⟨m, []⟩)
    | some e =>
        (loadFile v disk stack fuel m call.destBuffer e).map fun r => (clusterCountOf v e, r)

/-! ### Reading a path -/

/-- The inner loop of `read_file_exfat`, which measures the block that starts here. -/
def pathLength : List Int8 → ℕ
  | [] => 0
  | c :: rest => if c = 47 ∨ c = 0 then 0 else pathLength rest + 1

/-- A call of `_read_file_exfat_helper` that returned: the entry that it selected, the
clusters that it loaded and the number that it announced. -/
structure HelperCall where
  selected : Option Extension
  loaded : List ℕ
  announced : ℕ

/-- `dirs_clusters` and memory. No function reads the list of calls. -/
structure WalkState where
  dirsClusters : ℕ
  mem : Mem
  calls : List HelperCall

/-- The arguments that are passed for the block that starts at `path`. -/
def blockCall (dest : ℕ) (path : List Int8) (dirsClusters : ℕ) : FileCall where
  name := fun k => path.getD k 0
  nameLen := pathLength path
  dirBuffer := dest
  clusters := dirsClusters
  destBuffer := dest

/-- The call of `_read_file_exfat_helper` for the block that starts at `path`. -/
def readBlock (v : Volume) (disk : Mem) (stack : ℕ → Mem) (upcaseTable : ℕ → ℕ) (dest fuel : ℕ)
    (s : WalkState) (path : List Int8) : Option WalkState :=
  let call := blockCall dest path s.dirsClusters
  (readFileExfatHelper v disk (stack s.calls.length) upcaseTable fuel s.mem call).map fun r =>
    { dirsClusters := r.1
      mem := r.2.mem
      calls := s.calls ++ [⟨(findFile v upcaseTable s.mem call).join, r.2.loaded, r.1⟩] }

/-- One round of the loop of `read_file_exfat`, in the state of `path + i` and the other
variables. -/
def pathBody (v : Volume) (disk : Mem) (stack : ℕ → Mem) (upcaseTable : ℕ → ℕ) (dest fuel : ℕ)
    (x : List Int8 × WalkState) : (List Int8 × WalkState) ⊕ Option (ℕ × WalkState) :=
  let (path, s) := x
  let c := path.headD 0
  if c = 0 then
    Sum.inr (some (wrap32 (s.dirsClusters * v.getClusterSize 1 * v.driveBytesPerSector), s))
  else if c = 47 then Sum.inl (path.tail, s)
  else
    match readBlock v disk stack upcaseTable dest fuel s path with
    | none => Sum.inr none
    | some s' =>
        if s'.dirsClusters = 0 then Sum.inr (some (0, s'))
        else Sum.inl (path.drop (pathLength path), s')

/-- `read_file_exfat` for a path that ends with a NUL after its characters, with the value
it returns; the loops through the FAT run at most `fuel` rounds. -/
def readFileExfat (v : Volume) (rootFirstCluster : ℕ) (disk : Mem) (stack : ℕ → Mem)
    (upcaseTable : ℕ → ℕ) (fuel : ℕ) (m : Mem) (path : List Int8) (dest : ℕ) :
    Option (ℕ × WalkState) :=
  let m := biosExtRead v disk m dest (v.getHeapLba rootFirstCluster) (v.getClusterSize 1)
  (Loop.iter (pathBody v disk stack upcaseTable dest fuel) (path.length + 1)
    (path, ⟨1, m, []⟩)).join

/-! ### Initialization -/

/-- What `init_exfat` leaves behind: the boot record, with the root directory on its own, and
`upcase_table`. -/
structure Mounted where
  volume : Volume
  rootFirstCluster : ℕ
  upcaseTable : ℕ → ℕ

/-- The fields of `exfat_boot_record`, from the sector that is copied to it. -/
def bootRecord (driveBytesPerSector : ℕ) (sector : Mem) : Volume where
  fatOffset := sector.read32 80
  clusterHeapOffset := sector.read32 88
  clusterCount := sector.read32 92
  sectorsPerClusterShift := (sector 109).toNat
  driveBytesPerSector := driveBytesPerSector

/-- `memcpy` of `n` bytes to `upcase_table`, whose entries have two bytes each. -/
def copyTable (table : ℕ → ℕ) (buffer : Mem) (n : ℕ) : ℕ → ℕ := fun j =>
  if 2 * j < n then buffer.read16 (2 * j) else table j

/-- The offset of the first up-case entry in a sector of a directory. -/
def upcaseEntry (driveBytesPerSector : ℕ) (buffer : Mem) : Option ℕ :=
  ((List.range ((driveBytesPerSector + 31) / 32)).find? fun k => buffer (32 * k) = 0x82).map
    fun k => 32 * k

/-- `init_exfat`. The buffer on the stack holds anything at first, and so does the memory
behind `upcase_table`. -/
def initExfat (driveBytesPerSector : ℕ) (disk loadBuffer : Mem) (behind : ℕ → ℕ) : Mounted :=
  let buffer := biosExtRead ⟨0, 0, 0, 0, driveBytesPerSector⟩ disk loadBuffer 0
    (0x100 * 512 / driveBytesPerSector) 1
  let v := bootRecord driveBytesPerSector buffer
  let rootFirstCluster := buffer.read32 96
  let table := fun j => if j < 128 then j else behind j
  let buffer := biosExtRead v disk buffer 0 (v.getHeapLba rootFirstCluster) 1
  match upcaseEntry driveBytesPerSector buffer with
  | none => ⟨v, rootFirstCluster, table⟩
  | some i =>
      let buffer := biosExtRead v disk buffer 0 (v.getHeapLba (buffer.read32 (i + 20))) 1
      ⟨v, rootFirstCluster, copyTable table buffer 128⟩

end LoofOS
