import LoofOS.Exfat
import LoofOS.LinkedChain
import Mathlib.Tactic.Ring

/-!
# Reading a Chain of Clusters

When a file found by `_read_file_exfat_helper` has a chain in the FAT, the reader follows
a function of its own, `usedNext`: it reads the FAT from the drive sector on that holds the
entry of the current cluster, but takes the entry at the cluster number modulo the number
of entries in a cluster. Its clusters are those of the chain in `usedNext`
(`chain_of_linkLoop`, `linkLoop_of_chain`), and it is the FAT only for clusters whose
number modulo the entries per cluster is below the entries per drive sector.

## Main results

* `biosExtRead_apply`: what reading sectors does to memory.
* `linkLoop_mem`, `linkLoop_of_chain`, `chain_of_linkLoop`: the loop through the FAT.
* `readsChain_iff`: for which volumes and chains a file is read correctly.
-/

namespace LoofOS

open LinkedChain

/-! ### Volumes -/

namespace Volume

variable (v : Volume)

/-- The sectors of the drive are no smaller than those of the boot record and no larger than a
cluster. -/
structure Sized : Prop where
  sector : ∃ k, 9 ≤ k ∧ v.driveBytesPerSector = 2 ^ k
  cluster : v.driveBytesPerSector ≤ 512 * 2 ^ v.sectorsPerClusterShift
  shift : v.sectorsPerClusterShift < 23

/-- The geometries that are read: the sectors of the drive are no smaller than those of the
boot record and no larger than a cluster, and the FAT starts on a drive sector. -/
structure Accepted : Prop where
  sector : ∃ k, 9 ≤ k ∧ v.driveBytesPerSector = 2 ^ k
  cluster : v.driveBytesPerSector ≤ 512 * 2 ^ v.sectorsPerClusterShift
  shift : v.sectorsPerClusterShift < 23
  aligned : (0x100 + v.fatOffset) * 512 % v.driveBytesPerSector = 0
  fatBeforeHeap : v.fatOffset * 512 + 4 * (v.clusterCount + 2) ≤ v.clusterHeapOffset * 512

/-- The first byte of the FAT on the drive. -/
def fatStart : ℕ := (0x100 + v.fatOffset) * 512

/-- The entry of a cluster in the FAT. -/
def fatEntry (disk : Mem) (c : ℕ) : ℕ := disk.read32 (v.fatStart + 4 * c)

/-- The first byte of a cluster on the drive. -/
def clusterStart (c : ℕ) : ℕ :=
  (0x100 + v.clusterHeapOffset + (c - 2) * 2 ^ v.sectorsPerClusterShift) * 512

/-- The cluster exists, and the computations of its sectors do not overflow. -/
structure HasCluster (c : ℕ) : Prop where
  two_le : 2 ≤ c
  lt : c < v.clusterCount + 2
  heap : v.clusterStart c < 2 ^ 32
  fat : v.fatStart + 4 * c < 2 ^ 32

/-- The cluster heap starts on a drive sector. -/
def HeapAligned : Prop := (0x100 + v.clusterHeapOffset) * 512 % v.driveBytesPerSector = 0

/-- The entry of the cluster is found where it is looked for. -/
def EntryInWindow (c : ℕ) : Prop := c % v.idPerCluster < v.driveBytesPerSector / 4

instance : Decidable v.HeapAligned := inferInstanceAs (Decidable (_ % _ = _))

instance (c : ℕ) : Decidable (v.EntryInWindow c) := inferInstanceAs (Decidable (_ < _))

end Volume

/-- The end of a chain. -/
def endOfChain : ℕ := 0xffffffff

/-- The file is read: its clusters were loaded one after the other, each once; they are in
the destination in this order, and nothing else was changed. -/
structure ReadsChain (v : Volume) (disk m : Mem) (dest : ℕ) (chain : List ℕ) (r : FileRead) :
    Prop where
  loaded : r.loaded = chain
  contents : ∀ i (hi : i < chain.length), ∀ j < v.clusterBytes,
    r.mem (dest + v.clusterBytes * i + j) = disk (v.clusterStart chain[i] + j)
  frame : ∀ x, x < dest ∨ dest + v.clusterBytes * chain.length ≤ x → r.mem x = m x

section Volumes

variable {v : Volume}

/-! ### Sizes -/

/-- A cluster has whole sectors, as the reader computes it. -/
theorem clusterBytes_eq_mul (v : Volume) :
    v.clusterBytes = v.getClusterSize 1 * v.driveBytesPerSector := by
  have hle : v.getClusterSize 1 * v.driveBytesPerSector < 2 ^ 32 := by
    have hwrap : wrap32 (v.shiftCluster 1 * 512) < 2 ^ 32 := Nat.mod_lt _ (Nat.two_pow_pos 32)
    exact (Nat.div_mul_le_self _ _).trans_lt hwrap
  rw [Volume.clusterBytes, Nat.mul_comm, wrap32_of_lt hle]

/-- The reader computes the size of clusters that consist of whole sectors of the drive. -/
theorem clusterBytes_of_dvd (hshift : v.sectorsPerClusterShift < 23)
    (hdvd : v.driveBytesPerSector ∣ 512 * 2 ^ v.sectorsPerClusterShift) :
    v.clusterBytes = 512 * 2 ^ v.sectorsPerClusterShift := by
  have hpow : 2 ^ v.sectorsPerClusterShift < 2 ^ 23 := Nat.pow_lt_pow_right (by omega) hshift
  have hbit : bit32 v.sectorsPerClusterShift = 2 ^ v.sectorsPerClusterShift :=
    bit32_of_lt (by omega)
  have hsize : v.getClusterSize 1
      = 512 * 2 ^ v.sectorsPerClusterShift / v.driveBytesPerSector := by
    rw [Volume.getClusterSize, Volume.shiftCluster, hbit, wrap32_of_lt (by omega), Nat.one_mul,
      Nat.mul_comm]
  rw [clusterBytes_eq_mul, hsize, Nat.div_mul_cancel hdvd]

/-- A cluster consists of whole sectors of the drive. -/
theorem Volume.Sized.dvd (h : v.Sized) :
    v.driveBytesPerSector ∣ 512 * 2 ^ v.sectorsPerClusterShift := by
  obtain ⟨k, hk, hsector⟩ := h.sector
  have hle := h.cluster
  have h512 : 512 * 2 ^ v.sectorsPerClusterShift = 2 ^ (v.sectorsPerClusterShift + 9) := by
    rw [pow_add]
    ring
  rw [h512, hsector] at hle ⊢
  exact Nat.pow_dvd_pow 2 ((Nat.pow_le_pow_iff_right (by omega)).mp hle)

theorem Volume.Sized.clusterBytes_eq (h : v.Sized) :
    v.clusterBytes = 512 * 2 ^ v.sectorsPerClusterShift ∧
      v.getClusterSize 1 * v.driveBytesPerSector = v.clusterBytes :=
  ⟨clusterBytes_of_dvd h.shift h.dvd, (clusterBytes_eq_mul v).symm⟩

theorem Volume.Sized.le_clusterBytes (h : v.Sized) : 512 ≤ v.clusterBytes := by
  rw [h.clusterBytes_eq.1]
  exact Nat.le_mul_of_pos_right 512 (Nat.two_pow_pos _)

theorem Volume.Sized.clusterBytes_pos (h : v.Sized) : 0 < v.clusterBytes :=
  lt_of_lt_of_le (Nat.succ_pos 511) h.le_clusterBytes

theorem Volume.Sized.idPerCluster_pos (h : v.Sized) : 0 < v.idPerCluster := by
  have hle := h.le_clusterBytes
  rw [Volume.idPerCluster]
  omega

namespace Volume.Accepted

theorem sized (h : v.Accepted) : v.Sized := ⟨h.sector, h.cluster, h.shift⟩

theorem clusterBytes_eq (h : v.Accepted) :
    v.clusterBytes = 512 * 2 ^ v.sectorsPerClusterShift ∧
      v.getClusterSize 1 * v.driveBytesPerSector = v.clusterBytes :=
  h.sized.clusterBytes_eq

/-- The entries of a sector and of a cluster. -/
theorem entries (h : v.Accepted) :
    ∃ e n, 0 < e ∧ 0 < n ∧ 128 ∣ e ∧ v.driveBytesPerSector = 4 * e ∧ v.idPerCluster = e * n ∧
      v.clusterBytes = 4 * (e * n) := by
  obtain ⟨k, hk, hsector⟩ := h.sector
  obtain ⟨hbytes, hmul⟩ := h.clusterBytes_eq
  have he : v.driveBytesPerSector = 4 * 2 ^ (k - 2) := by
    have hk' : k = 2 + (k - 2) := by omega
    rw [hsector]
    nth_rewrite 1 [hk']
    rw [pow_add]
    rfl
  have hcluster : v.clusterBytes = 4 * (2 ^ (k - 2) * v.getClusterSize 1) := by
    rw [← hmul, he]
    ring
  have hdvd : 128 ∣ 2 ^ (k - 2) := Nat.pow_dvd_pow (n := k - 2) 2 (by omega : 7 ≤ k - 2)
  refine ⟨2 ^ (k - 2), v.getClusterSize 1, Nat.two_pow_pos _, ?_, hdvd, he, ?_, hcluster⟩
  · refine Nat.pos_of_ne_zero fun h0 => ?_
    rw [h0, Nat.mul_zero, Nat.mul_zero, hbytes] at hcluster
    have := Nat.two_pow_pos v.sectorsPerClusterShift
    omega
  · rw [Volume.idPerCluster, hcluster, Nat.mul_div_cancel_left _ (by simp)]

end Volume.Accepted

/-! ### Reading sectors -/

theorem copyBytes_apply (out : Mem) {addr : ℕ} (src : ℕ → UInt8) {n : ℕ} (h : addr + n ≤ 2 ^ 32)
    (x : ℕ) : copyBytes out addr src n x =
      if addr ≤ x ∧ x < addr + n then src (x - addr) else out x := by
  induction n with
  | zero =>
      rw [if_neg (by omega)]
      rfl
  | succ n ih =>
      rw [copyBytes, wrap32_of_lt (by omega)]
      by_cases hx : x = addr + n
      · subst hx
        rw [Mem.store_self, if_pos ⟨by omega, by omega⟩, Nat.add_sub_cancel_left]
      · rw [Mem.store_of_ne _ hx, ih (by omega)]
        by_cases hin : addr ≤ x ∧ x < addr + n
        · rw [if_pos hin, if_pos ⟨hin.1, by omega⟩]
        · rw [if_neg hin, if_neg (by omega)]

/-- **Reading sectors** copies their bytes and changes nothing else. -/
theorem biosExtRead_apply (disk out : Mem) {addr : ℕ} (lba : ℕ) {n : ℕ}
    (h : addr + n * v.driveBytesPerSector ≤ 2 ^ 32) (x : ℕ) :
    biosExtRead v disk out addr lba n x =
      if addr ≤ x ∧ x < addr + n * v.driveBytesPerSector then
        disk (lba * v.driveBytesPerSector + (x - addr))
      else out x := by
  induction n with
  | zero =>
      rw [if_neg (by omega)]
      rfl
  | succ n ih =>
      have hsucc : (n + 1) * v.driveBytesPerSector
          = n * v.driveBytesPerSector + v.driveBytesPerSector := by ring
      rw [biosExtRead, copyBytes_apply _ _ (by omega), ih (by omega), Nat.add_mul]
      by_cases hlast : addr + n * v.driveBytesPerSector ≤ x ∧
          x < addr + n * v.driveBytesPerSector + v.driveBytesPerSector
      · rw [if_pos hlast, if_pos ⟨by omega, by omega⟩]
        congr 1
        omega
      · rw [if_neg hlast]
        by_cases hin : addr ≤ x ∧ x < addr + n * v.driveBytesPerSector
        · rw [if_pos hin, if_pos ⟨hin.1, by omega⟩]
        · rw [if_neg hin, if_neg (by omega)]

/-! ### The FAT window -/

/-- The number of the entry that is used for a cluster. -/
def Volume.windowIndex (v : Volume) (c : ℕ) : ℕ :=
  c - c % (v.driveBytesPerSector / 4) + c % v.idPerCluster

/-- The cluster that the reader goes to. -/
def usedNext (v : Volume) (disk : Mem) (c : ℕ) : ℕ := v.fatEntry disk (v.windowIndex c)

/-- **The window**: the entry is the right one exactly if it lies in the first sector. -/
theorem windowIndex_eq_iff (h : v.Accepted) (c : ℕ) :
    v.windowIndex c = c ↔ v.EntryInWindow c := by
  obtain ⟨e, n, he, -, -, hsector, hid, -⟩ := h.entries
  have hmod : c % (e * n) % e = c % e := Nat.mod_mul_right_mod c e n
  have hlt := Nat.mod_lt c he
  have hle := Nat.mod_le c e
  rw [Volume.windowIndex, Volume.EntryInWindow, hid, hsector, Nat.mul_div_cancel_left _ (by simp)]
  constructor
  · intro heq
    omega
  · intro hwindow
    rw [Nat.mod_eq_of_lt hwindow] at hmod
    omega

/-- What is found in the FAT buffer. -/
theorem loadFat_read32 (h : v.Accepted) {c : ℕ} (hc : v.HasCluster c) (disk buffer : Mem) :
    (loadFat v disk buffer c).read32 (4 * (c % v.idPerCluster)) = usedNext v disk c := by
  obtain ⟨e, n, he, hn, ⟨q, hq⟩, hsector, hid, hbytes⟩ := h.entries
  obtain ⟨hpow, hmul⟩ := h.clusterBytes_eq
  have hsmall : v.clusterBytes < 2 ^ 32 := by
    have : 2 ^ v.sectorsPerClusterShift < 2 ^ 23 := Nat.pow_lt_pow_right (by omega) h.shift
    omega
  have hindex : c % v.idPerCluster < e * n := by
    rw [hid]
    exact Nat.mod_lt _ (Nat.mul_pos he hn)
  -- the sector at which the window starts
  have hlba : v.getFatLba c * v.driveBytesPerSector = v.fatStart + 4 * (c - c % e) := by
    obtain ⟨f, hf⟩ := Nat.dvd_of_mod_eq_zero h.aligned
    have hfat : (0x100 + v.fatOffset) * 512 + 4 * c < 2 ^ 32 := hc.fat
    have hstart : v.fatStart = 512 * q * f := by
      rw [Volume.fatStart, hf, hsector, hq]
      ring
    have hdown : 512 * (c / 128) / (512 * q) = c / e := by
      rw [Nat.mul_div_mul_left _ _ (by simp), Nat.div_div_eq_div_mul, ← hq]
    clear hf
    rw [← Volume.fatStart] at hfat
    have hsector' : v.driveBytesPerSector = 512 * q := by omega
    rw [hstart, Volume.getFatLba, Nat.add_mul, hsector']
    rw [← Volume.fatStart]
    have hq0 : 0 < 512 * q := by omega
    have hcell : wrap32 (c * 4) / 512 * 512 = 512 * (c / 128) := by
      rw [wrap32_of_lt (by omega)]
      omega
    rw [hcell, wrap32_of_lt (by omega), hstart, Nat.mul_add_div hq0, hdown, Nat.add_mul,
      Nat.mul_comm f]
    have hmod := Nat.div_add_mod c e
    have hscale : c / e * (512 * q) = 4 * (e * (c / e)) := by
      rw [hq]
      ring
    omega
  have hword : v.fatStart + 4 * v.windowIndex c
      = v.getFatLba c * v.driveBytesPerSector + 4 * (c % v.idPerCluster) := by
    rw [hlba, Volume.windowIndex, hsector, Nat.mul_div_cancel_left _ (by decide : 0 < 4)]
    ring
  have hbyte : ∀ b < 4, loadFat v disk buffer c (4 * (c % v.idPerCluster) + b)
      = disk (v.fatStart + 4 * v.windowIndex c + b) := by
    intro b hb
    rw [loadFat, biosExtRead_apply disk buffer _ (by omega), if_pos ⟨by omega, by omega⟩, hword]
    congr 1
    omega
  exact Mem.read32_copy hbyte

/-! ### The loop through the FAT -/

theorem Volume.HasCluster.fatIndex_eq {c : ℕ} (hc : v.HasCluster c) :
    fatIndex v c = some (c % v.idPerCluster) := by
  have hfat := hc.fat
  rw [fatIndex, if_pos (by omega)]

/-- The values that end the loop. -/
def EndsLoop (c : ℕ) : Prop := c = 0xffffffff ∨ c = 0xfffffff7

instance (c : ℕ) : Decidable (EndsLoop c) := inferInstanceAs (Decidable (_ ∨ _))

/-- No cluster has the number of an end. -/
theorem Volume.HasCluster.not_endsLoop {c : ℕ} (hc : v.HasCluster c) : ¬ EndsLoop c := by
  have hfat := hc.fat
  rintro (rfl | rfl) <;> omega

/-- The FAT buffer holds the window for the current cluster. -/
def HoldsWindow (v : Volume) (disk : Mem) (s : LinkState) : Prop :=
  v.HasCluster s.currentClusterId →
    s.fatBuffer.read32 (4 * (s.currentClusterId % v.idPerCluster))
      = usedNext v disk s.currentClusterId

/-- One round, with the index at which the FAT buffer is read. -/
theorem linkBody_of_index {disk : Mem} {dest i : ℕ} {s : LinkState}
    (hi : fatIndex v s.currentClusterId = some i) :
    linkBody v disk dest s =
      if EndsLoop (s.fatBuffer.read32 (4 * i)) then
        Sum.inr (some (loadCluster v disk dest s.clustersRead s.currentClusterId s.read))
      else
        Sum.inl {
          currentClusterId := s.fatBuffer.read32 (4 * i)
          fatBuffer := loadFat v disk s.fatBuffer (s.fatBuffer.read32 (4 * i))
          clustersRead := s.clustersRead + 1
          read := loadCluster v disk dest s.clustersRead s.currentClusterId s.read } := by
  simp only [linkBody, hi]
  rfl

/-- **What the loop loads** is a chain of the function that it follows, as long as it stays
in the volume. -/
theorem chain_of_linkLoop (h : v.Accepted) {disk : Mem} {dest fuel : ℕ} {s : LinkState}
    {r : FileRead} (hs : HoldsWindow v disk s)
    (hrun : Loop.iter (linkBody v disk dest) fuel s = some (some r)) :
    ∃ l, r.loaded = s.read.loaded ++ l ∧ ((∀ c ∈ l, v.HasCluster c) →
      ∃ e, EndsLoop e ∧ Chain (usedNext v disk) s.currentClusterId l e) := by
  induction fuel generalizing s with
  | zero => cases hrun
  | succ fuel ih =>
      cases hi : fatIndex v s.currentClusterId with
      | none =>
          have hbody : linkBody v disk dest s = Sum.inr none := by simp only [linkBody, hi]
          rw [Loop.iter_succ_of_inr hbody] at hrun
          cases hrun
      | some i =>
          have hnext : v.HasCluster s.currentClusterId →
              s.fatBuffer.read32 (4 * i) = usedNext v disk s.currentClusterId := by
            intro hc
            obtain rfl := Option.some.inj (hi.symm.trans hc.fatIndex_eq)
            exact hs hc
          by_cases hend : EndsLoop (s.fatBuffer.read32 (4 * i))
          · have hbody := (@linkBody_of_index v disk dest _ _ hi).trans (if_pos hend)
            rw [Loop.iter_succ_of_inr hbody] at hrun
            obtain rfl := Option.some.inj (Option.some.inj hrun)
            refine ⟨[s.currentClusterId], rfl, fun hin => ⟨_, hend, rfl, ?_⟩⟩
            exact (hnext (hin _ List.mem_cons_self)).symm
          · have hbody := (@linkBody_of_index v disk dest _ _ hi).trans (if_neg hend)
            rw [Loop.iter_succ_of_inl hbody] at hrun
            obtain ⟨l, hl, hchain⟩ := ih (fun hc => loadFat_read32 h hc disk _) hrun
            refine ⟨s.currentClusterId :: l, ?_, fun hin => ?_⟩
            · rw [hl]
              exact List.append_assoc _ _ _
            · obtain ⟨e, he, hce⟩ := hchain fun c hc => hin c (List.mem_cons_of_mem _ hc)
              refine ⟨e, he, rfl, ?_⟩
              rw [← hnext (hin _ List.mem_cons_self)]
              exact hce

/-- **A chain is loaded**, within as many rounds as it has clusters. -/
theorem linkLoop_of_chain (h : v.Accepted) {disk : Mem} {dest e : ℕ} {l : List ℕ}
    {s : LinkState} (hne : l ≠ []) (hs : HoldsWindow v disk s) (he : EndsLoop e)
    (hin : ∀ c ∈ l, v.HasCluster c)
    (hchain : Chain (usedNext v disk) s.currentClusterId l e) :
    ∃ r, Loop.iter (linkBody v disk dest) l.length s = some (some r) ∧
      r.loaded = s.read.loaded ++ l := by
  induction l generalizing s with
  | nil => exact absurd rfl hne
  | cons c l ih =>
      obtain ⟨hcur, hchain⟩ := hchain
      have hc : v.HasCluster s.currentClusterId := by
        rw [hcur]
        exact hin c List.mem_cons_self
      have hnext := hs hc
      have hbody := @linkBody_of_index v disk dest _ _ hc.fatIndex_eq
      rw [hnext, hcur] at hbody
      cases l with
      | nil =>
          rw [hchain, if_pos he] at hbody
          exact ⟨_, Loop.iter_succ_of_inr hbody 0, rfl⟩
      | cons d l =>
          have hd : v.HasCluster d := hin d (List.mem_cons_of_mem _ List.mem_cons_self)
          rw [hchain.1, if_neg hd.not_endsLoop] at hbody
          rw [hchain.1] at hchain
          obtain ⟨r, hr, hloaded⟩ := @ih
            ⟨d, loadFat v disk s.fatBuffer d, s.clustersRead + 1,
              loadCluster v disk dest s.clustersRead c s.read⟩
            (List.cons_ne_nil _ _) (fun hd => loadFat_read32 h hd disk _)
            (fun x hx => hin x (List.mem_cons_of_mem _ hx)) hchain
          refine ⟨r, ?_, ?_⟩
          · rw [List.length_cons, Loop.iter_succ_of_inl hbody]
            exact hr
          · rw [hloaded]
            exact List.append_assoc _ _ _

/-! ### The destination -/

/-- If the clusters that were loaded fit, they lie in the destination in this order, and
nothing else has changed. -/
def Placed (v : Volume) (disk m : Mem) (dest : ℕ) (r : FileRead) : Prop :=
  dest + v.clusterBytes * r.loaded.length ≤ 2 ^ 32 →
    (∀ i (hi : i < r.loaded.length), ∀ j < v.clusterBytes,
      r.mem (dest + v.clusterBytes * i + j)
        = disk (v.getHeapLba r.loaded[i] * v.driveBytesPerSector + j)) ∧
    ∀ x, x < dest ∨ dest + v.clusterBytes * r.loaded.length ≤ x → r.mem x = m x

/-- **One more cluster** at the next place. -/
theorem Placed.loadCluster (hpos : 0 < v.clusterBytes) {disk m : Mem} {dest : ℕ} {r : FileRead}
    (hr : Placed v disk m dest r) (c : ℕ) :
    Placed v disk m dest (loadCluster v disk dest r.loaded.length c r) := by
  intro hfit
  have hlen : (r.loaded ++ [c]).length = r.loaded.length + 1 := by simp
  change dest + v.clusterBytes * (r.loaded ++ [c]).length ≤ 2 ^ 32 at hfit
  rw [hlen, Nat.mul_succ] at hfit
  obtain ⟨hold, hframe⟩ := hr (by omega)
  have hmem : ∀ x, (LoofOS.loadCluster v disk dest r.loaded.length c r).mem x =
      if dest + v.clusterBytes * r.loaded.length ≤ x ∧
          x < dest + v.clusterBytes * r.loaded.length + v.clusterBytes then
        disk (v.getHeapLba c * v.driveBytesPerSector
          + (x - (dest + v.clusterBytes * r.loaded.length)))
      else r.mem x := by
    intro x
    have hmul := clusterBytes_eq_mul v
    have happly := @biosExtRead_apply v disk r.mem (dest + v.clusterBytes * r.loaded.length)
      (v.getHeapLba c) (v.getClusterSize 1) (by omega) x
    rw [← hmul] at happly
    rw [LoofOS.loadCluster, wrap32_of_lt (by omega)]
    exact happly
  refine ⟨fun i hi j hj => ?_, fun x hx => ?_⟩
  · change i < (r.loaded ++ [c]).length at hi
    change _ = disk (v.getHeapLba (r.loaded ++ [c])[i] * v.driveBytesPerSector + j)
    rw [hmem]
    by_cases hlast : i = r.loaded.length
    · subst hlast
      rw [if_pos ⟨by omega, by omega⟩, List.getElem_concat_length rfl, Nat.add_sub_cancel_left]
    · have hlt : i < r.loaded.length := by omega
      have hmono : v.clusterBytes * (i + 1) ≤ v.clusterBytes * r.loaded.length :=
        Nat.mul_le_mul_left _ hlt
      rw [Nat.mul_succ] at hmono
      rw [if_neg (by omega), hold i hlt j hj, List.getElem_append_left hlt]
  · change x < dest ∨ dest + v.clusterBytes * (r.loaded ++ [c]).length ≤ x at hx
    rw [hlen, Nat.mul_succ] at hx
    rw [hmem, if_neg (by omega)]
    exact hframe x (by omega)

/-- **The loop through the FAT** places the clusters that it loads. -/
theorem placed_linkLoop (hpos : 0 < v.clusterBytes) {disk m : Mem} {dest fuel : ℕ} {s : LinkState}
    {r : FileRead} (hcount : s.clustersRead = s.read.loaded.length)
    (hs : Placed v disk m dest s.read)
    (hrun : Loop.iter (linkBody v disk dest) fuel s = some (some r)) :
    Placed v disk m dest r := by
  have hplaced : ∀ r', some r = some r' → Placed v disk m dest r' := by
    refine Loop.iter_sound
      (I := fun s => s.clustersRead = s.read.loaded.length ∧ Placed v disk m dest s.read)
      (Q := fun o => ∀ r', o = some r' → Placed v disk m dest r') ?_ ?_ ⟨hcount, hs⟩ hrun
    · rintro s s' ⟨hcount, hs⟩ hbody
      cases hi : fatIndex v s.currentClusterId with
      | none =>
          simp only [linkBody, hi] at hbody
          cases hbody
      | some i =>
          rw [linkBody_of_index hi] at hbody
          split at hbody
          · cases hbody
          · obtain rfl := Sum.inl.inj hbody
            refine ⟨?_, ?_⟩
            · simp [loadCluster, hcount]
            · simp only [hcount]
              exact hs.loadCluster hpos _
    · rintro s o ⟨hcount, hs⟩ hbody r' hr'
      cases hi : fatIndex v s.currentClusterId with
      | none =>
          simp only [linkBody, hi] at hbody
          obtain rfl := Sum.inr.inj hbody
          cases hr'
      | some i =>
          rw [linkBody_of_index hi] at hbody
          split at hbody
          · obtain rfl := Sum.inr.inj hbody
            obtain rfl := Option.some.inj hr'
            rw [hcount]
            exact hs.loadCluster hpos _
          · cases hbody
  exact hplaced r rfl

/-- The part that loads the file, when the entry used for its first cluster is not zero. -/
theorem loadFile_of_ne {disk stack m : Mem} {fuel dest : ℕ} {e : Extension} (h : v.Accepted)
    (hc : v.HasCluster e.firstCluster) (hne : usedNext v disk e.firstCluster ≠ 0) :
    loadFile v disk stack fuel m dest e = (Loop.iter (linkBody v disk dest) fuel
      ⟨e.firstCluster, loadFat v disk stack e.firstCluster, 0, ⟨m, []⟩⟩).join := by
  simp only [loadFile, hc.fatIndex_eq, loadFat_read32 h hc, if_neg hne]

/-- Nothing has been loaded yet. -/
theorem placed_nil (disk m : Mem) (dest : ℕ) : Placed v disk m dest ⟨m, []⟩ :=
  fun _ => ⟨fun _ hi => absurd hi (Nat.not_lt_zero _), fun _ _ => rfl⟩

/-! ### Drives with a given FAT -/

/-- The drive whose FAT is the given table, with `0xff` before the FAT. -/
def fatDisk (v : Volume) (table : ℕ → ℕ) : Mem := fun a =>
  if a < v.fatStart then 0xff
  else UInt8.ofNat (table ((a - v.fatStart) / 4) / 2 ^ (8 * ((a - v.fatStart) % 4)))

theorem fatEntry_fatDisk {table : ℕ → ℕ} {c : ℕ} (h : table c < 2 ^ 32) :
    v.fatEntry (fatDisk v table) c = table c := by
  refine Mem.read32_of_bytes h fun b hb => ?_
  have hdiv : (v.fatStart + 4 * c + b - v.fatStart) / 4 = c := by omega
  have hmod : (v.fatStart + 4 * c + b - v.fatStart) % 4 = b := by omega
  rw [fatDisk, if_neg (by omega), hdiv, hmod]

theorem endOfChain_lt : endOfChain < 2 ^ 32 := by
  rw [endOfChain]
  omega

/-- A chain of clusters in a table with another value elsewhere. -/
def chainTable (w : ℕ) (l : List ℕ) : ℕ → ℕ := ofList endOfChain (fun _ => w) l

theorem chainTable_lt {w : ℕ} (hw : w < 2 ^ 32) {l : List ℕ} (hin : ∀ x ∈ l, v.HasCluster x)
    (x : ℕ) : chainTable w l x < 2 ^ 32 := by
  rcases ofList_mem (e := endOfChain) (l := l) (fun _ => w) x with h | h | h
  · exact h.trans_lt hw
  · exact h.trans_lt endOfChain_lt
  · have hfat := (hin _ h).fat
    rw [chainTable]
    omega

theorem chainTable_ne_zero {w : ℕ} (hw : w ≠ 0) {l : List ℕ} (hin : ∀ x ∈ l, v.HasCluster x)
    (x : ℕ) : chainTable w l x ≠ 0 := by
  rcases ofList_mem (e := endOfChain) (l := l) (fun _ => w) x with h | h | h
  · exact h.trans_ne hw
  · exact h.trans_ne (by decide)
  · have h2 := (hin _ h).two_le
    rw [chainTable]
    omega

/-- Behind the FAT entries of a chain all bytes are `0xff`. -/
theorem fatDisk_outside {l : List ℕ} {a : ℕ} (ha : v.fatStart ≤ a)
    (hnot : (a - v.fatStart) / 4 ∉ l) : fatDisk v (chainTable endOfChain l) a = 0xff := by
  have hbyte : ∀ b < 4, UInt8.ofNat (endOfChain / 2 ^ (8 * b)) = 0xff := by decide
  have htable : chainTable endOfChain l ((a - v.fatStart) / 4) = endOfChain :=
    ofList_of_not_mem hnot
  rw [fatDisk, if_neg (by omega), htable]
  exact hbyte _ (by omega)

/-- **A drive with a given chain.** -/
theorem chain_fatDisk {w c : ℕ} {l : List ℕ} (hw : w < 2 ^ 32)
    (hin : ∀ x ∈ c :: l, v.HasCluster x) (hnodup : (c :: l).Nodup) :
    Chain (v.fatEntry (fatDisk v (chainTable w (c :: l)))) c (c :: l) endOfChain :=
  (chain_ofList _ hnodup).congr fun x _ => fatEntry_fatDisk (chainTable_lt hw hin x)

/-! ### Which files are read -/

section Files

variable {stack m : Mem} {upcaseTable : ℕ → ℕ} {call : FileCall} {ext : Extension} {c : ℕ}
  {l : List ℕ}

/-- The file is read from every drive whose FAT holds its chain. -/
def ReadsEveryDrive (v : Volume) (stack : Mem) (upcaseTable : ℕ → ℕ) (m : Mem) (call : FileCall)
    (c : ℕ) (l : List ℕ) : Prop :=
  ∀ disk, Chain (v.fatEntry disk) c (c :: l) endOfChain →
    ∃ fuel n r, readFileExfatHelper v disk stack upcaseTable fuel m call = some (n, r) ∧
      ReadsChain v disk m call.destBuffer (c :: l) r

/-- Reading a file that is found. -/
theorem readFile_found (hfound : findFile v upcaseTable m call = some (some ext)) (disk : Mem)
    (fuel : ℕ) : readFileExfatHelper v disk stack upcaseTable fuel m call =
      (loadFile v disk stack fuel m call.destBuffer ext).map fun r =>
        (clusterCountOf v ext, r) := by
  rw [readFileExfatHelper, hfound, Option.bind_some]

/-- A drive from which the chain is read has it as a chain of the function that the reader
follows, and places the clusters that this function leads to. -/
theorem usedChain_of_reads (h : v.Accepted)
    (hfound : findFile v upcaseTable m call = some (some ext)) (hfirst : ext.firstCluster = c)
    (hin : ∀ x ∈ c :: l, v.HasCluster x) {disk : Mem} (hne : usedNext v disk c ≠ 0)
    {fuel n : ℕ} {r : FileRead}
    (hrun : readFileExfatHelper v disk stack upcaseTable fuel m call = some (n, r))
    (hloaded : r.loaded = c :: l) :
    (∃ e, EndsLoop e ∧ Chain (usedNext v disk) c (c :: l) e) ∧
      Placed v disk m call.destBuffer r := by
  have hc : v.HasCluster c := hin c List.mem_cons_self
  rw [readFile_found hfound] at hrun
  obtain ⟨r', hload, he⟩ := Option.map_eq_some_iff.mp hrun
  obtain rfl : r' = r := (Prod.mk.inj he).2
  subst hfirst
  rw [loadFile_of_ne h hc hne] at hload
  have hiter := Option.join_eq_some_iff.mp hload
  constructor
  · obtain ⟨l', hl', hchain⟩ := chain_of_linkLoop h (fun hc => loadFat_read32 h hc disk stack) hiter
    obtain rfl : l' = ext.firstCluster :: l := by
      rw [← hloaded, hl']
      rfl
    exact hchain hin
  · exact placed_linkLoop h.sized.clusterBytes_pos rfl (placed_nil disk m call.destBuffer) hiter

/-- An entry that is neither a cluster nor an end. -/
def otherEntry : ℕ := 0xfffffffe

theorem otherEntry_lt : otherEntry < 2 ^ 32 := by
  rw [otherEntry]
  omega

theorem Volume.HasCluster.lt_otherEntry {x : ℕ} (hx : v.HasCluster x) : x < otherEntry := by
  have hfat := hx.fat
  rw [otherEntry]
  omega

/-- **The entries have to be in their windows**: otherwise there is a drive with this chain
on which another entry is used. -/
theorem entryInWindow_of_reads (h : v.Accepted)
    (hfound : findFile v upcaseTable m call = some (some ext)) (hfirst : ext.firstCluster = c)
    (hin : ∀ x ∈ c :: l, v.HasCluster x) (hnodup : (c :: l).Nodup)
    (hreads : ReadsEveryDrive v stack upcaseTable m call c l) :
    ∀ x ∈ c :: l, v.EntryInWindow x := by
  intro x hx
  rw [← windowIndex_eq_iff h]
  by_contra hwindow
  set disk := fatDisk v (chainTable otherEntry (c :: l)) with hdisk
  have hentry : ∀ y, v.fatEntry disk y = chainTable otherEntry (c :: l) y := fun y =>
    fatEntry_fatDisk (chainTable_lt otherEntry_lt hin y)
  have hchain : Chain (v.fatEntry disk) c (c :: l) endOfChain :=
    chain_fatDisk otherEntry_lt hin hnodup
  have hend : endOfChain ∉ c :: l := fun hm => (hin _ hm).not_endsLoop (Or.inl rfl)
  have hne : usedNext v disk c ≠ 0 := by
    rw [usedNext, hentry]
    exact chainTable_ne_zero (by decide) hin (v.windowIndex c)
  obtain ⟨fuel, n, r, hrun, hr⟩ := hreads disk hchain
  obtain ⟨⟨e, he, hused⟩, -⟩ := usedChain_of_reads h hfound hfirst hin hne hrun hr.loaded
  have hboth := hchain.next_eq hused hx
  by_cases hmem : v.windowIndex x ∈ c :: l
  · -- the entry of another cluster of the chain
    have hdiff : v.fatEntry disk (v.windowIndex x) ≠ v.fatEntry disk x := fun heq =>
      hwindow (hchain.next_inj hnodup hend hmem hx heq)
    rcases hboth with hsame | ⟨hlast, hstop⟩
    · exact hdiff hsame
    · rcases hchain.mem_of_next hmem with hval | hval
      · exact hdiff (hval.trans hlast.symm)
      · refine (hin _ (List.mem_cons_of_mem _ hval)).not_endsLoop ?_
        rw [usedNext] at hstop
        rw [hstop]
        exact he
  · -- an entry outside the chain
    have hother : usedNext v disk x = otherEntry := by
      rw [usedNext, hentry]
      exact ofList_of_not_mem hmem
    rcases hboth with hsame | ⟨-, hstop⟩
    · rw [hother] at hsame
      rcases hchain.mem_of_next hx with hval | hval
      · exact absurd (hsame.trans hval) (by decide)
      · have hlt := (hin _ (List.mem_cons_of_mem _ hval)).lt_otherEntry
        omega
    · rw [hother] at hstop
      rw [← hstop] at he
      exact absurd he (by decide)

/-- An entry of a chain is not zero. -/
theorem fatEntry_ne_zero (hin : ∀ x ∈ c :: l, v.HasCluster x) {disk : Mem}
    (hchain : Chain (v.fatEntry disk) c (c :: l) endOfChain) : v.fatEntry disk c ≠ 0 := by
  rcases hchain.mem_of_next List.mem_cons_self with hval | hval
  · rw [hval]
    decide
  · have h2 := (hin _ (List.mem_cons_of_mem _ hval)).two_le
    omega

/-! The clusters on the drive. -/

theorem getHeapLba_eq (hshift : v.sectorsPerClusterShift < 23) (h2 : 2 ≤ c)
    (hstart : v.clusterStart c < 2 ^ 32) :
    v.getHeapLba c = v.clusterStart c / v.driveBytesPerSector := by
  have hbit : bit32 v.sectorsPerClusterShift = 2 ^ v.sectorsPerClusterShift :=
    bit32_of_lt (by omega)
  have hc : c < 2 ^ 32 := by
    have hle := Nat.le_mul_of_pos_right (c - 2) (Nat.two_pow_pos v.sectorsPerClusterShift)
    rw [Volume.clusterStart] at hstart
    omega
  rw [Volume.getHeapLba, Volume.shiftCluster, hbit, sub32_of_le h2 hc, ← Volume.clusterStart,
    wrap32_of_lt hstart]

/-- All clusters have the same offset to the sectors of the drive. -/
theorem clusterStart_mod (hdvd : v.driveBytesPerSector ∣ 512 * 2 ^ v.sectorsPerClusterShift)
    (c : ℕ) : v.clusterStart c % v.driveBytesPerSector
    = (0x100 + v.clusterHeapOffset) * 512 % v.driveBytesPerSector := by
  obtain ⟨q, hq⟩ := hdvd
  have hsplit : v.clusterStart c = (0x100 + v.clusterHeapOffset) * 512
      + v.driveBytesPerSector * (q * (c - 2)) := by
    have hcluster : (c - 2) * 2 ^ v.sectorsPerClusterShift * 512
        = 512 * 2 ^ v.sectorsPerClusterShift * (c - 2) := by ring
    rw [Volume.clusterStart, Nat.add_mul, hcluster, hq]
    ring
  rw [hsplit, Nat.add_mul_mod_self_left]

/-- A cluster is read from where it is. -/
theorem getHeapLba_mul (hshift : v.sectorsPerClusterShift < 23)
    (hdvd : v.driveBytesPerSector ∣ 512 * 2 ^ v.sectorsPerClusterShift)
    (haligned : v.HeapAligned) (h2 : 2 ≤ c) (hstart : v.clusterStart c < 2 ^ 32) :
    v.getHeapLba c * v.driveBytesPerSector = v.clusterStart c := by
  rw [getHeapLba_eq hshift h2 hstart]
  refine Nat.div_mul_cancel (Nat.dvd_of_mod_eq_zero ?_)
  rw [clusterStart_mod hdvd]
  exact haligned

/-- The FAT entries of the clusters lie before all clusters. -/
theorem fat_before_cluster (h : v.Accepted) (c : ℕ) :
    v.fatStart + 4 * (v.clusterCount + 2) ≤ v.clusterStart c := by
  have hheap := h.fatBeforeHeap
  simp only [Volume.fatStart, Volume.clusterStart, Nat.add_mul, Nat.reduceMul]
  omega

/-- **The clusters have to start on sectors of the drive**: otherwise there is a drive on
which the last byte of the first cluster is not read. -/
theorem heapAligned_of_reads (h : v.Accepted)
    (hfound : findFile v upcaseTable m call = some (some ext)) (hfirst : ext.firstCluster = c)
    (hin : ∀ x ∈ c :: l, v.HasCluster x) (hnodup : (c :: l).Nodup)
    (hfit : call.destBuffer + v.clusterBytes * (c :: l).length ≤ 2 ^ 32)
    (hwindow : v.EntryInWindow c) (hreads : ReadsEveryDrive v stack upcaseTable m call c l) :
    v.HeapAligned := by
  by_contra hmis
  obtain ⟨e, k, he, hk, -, hsector, -, hbytes⟩ := h.entries
  obtain ⟨-, hmul⟩ := h.clusterBytes_eq
  have hc : v.HasCluster c := hin c List.mem_cons_self
  have hafter := fat_before_cluster h c
  have hoffset := Nat.mod_lt (v.clusterStart c) (show 0 < v.driveBytesPerSector by omega)
  have hmod : v.clusterStart c % v.driveBytesPerSector ≠ 0 := by
    rw [clusterStart_mod h.sized.dvd]
    exact hmis
  have hle : v.driveBytesPerSector ≤ v.clusterBytes := by
    rw [hbytes, hsector]
    exact Nat.mul_le_mul_left 4 (Nat.le_mul_of_pos_right e hk)
  -- the last byte of the cluster differs from all others
  set last := v.clusterStart c + (v.clusterBytes - 1) with hlast
  set disk := (fatDisk v (chainTable endOfChain (c :: l))).store last 0 with hdisk
  have hchain : Chain (v.fatEntry disk) c (c :: l) endOfChain := by
    refine (chain_fatDisk endOfChain_lt hin hnodup).congr fun x hx => ?_
    have hlt := (hin x hx).lt
    exact Mem.read32_store_of_outside (by omega)
  have hne : usedNext v disk c ≠ 0 := by
    rw [usedNext, (windowIndex_eq_iff h c).mpr hwindow]
    exact fatEntry_ne_zero hin hchain
  obtain ⟨fuel, n, r, hrun, hr⟩ := hreads disk hchain
  obtain ⟨-, hplaced⟩ := usedChain_of_reads h hfound hfirst hin hne hrun hr.loaded
  have hwant := hr.contents 0 (Nat.succ_pos _) (v.clusterBytes - 1) (by omega)
  have hgot := (hplaced (by rw [hr.loaded]; exact hfit)).1 0
    (by rw [hr.loaded]; exact Nat.succ_pos _) (v.clusterBytes - 1) (by omega)
  have hread : v.getHeapLba c * v.driveBytesPerSector
      = v.clusterStart c - v.clusterStart c % v.driveBytesPerSector := by
    have hdiv := Nat.div_add_mod' (v.clusterStart c) v.driveBytesPerSector
    rw [getHeapLba_eq h.shift hc.two_le hc.heap]
    omega
  simp only [hr.loaded, List.getElem_cons_zero, hread] at hgot
  rw [hwant, List.getElem_cons_zero, hdisk, Mem.store_self, Mem.store_of_ne _ (by omega)] at hgot
  -- the byte that is read lies behind the FAT, too
  rw [fatDisk_outside (by omega) fun hm => ?_] at hgot
  · exact absurd hgot (by simp)
  · have hlt := (hin _ hm).lt
    omega

/-- **Reading a chain** whose entries are in their windows, with the clusters on sectors of
the drive. -/
theorem readsEveryDrive (h : v.Accepted)
    (hfound : findFile v upcaseTable m call = some (some ext)) (hfirst : ext.firstCluster = c)
    (hin : ∀ x ∈ c :: l, v.HasCluster x)
    (hfit : call.destBuffer + v.clusterBytes * (c :: l).length ≤ 2 ^ 32)
    (hheap : v.HeapAligned) (hwindow : ∀ x ∈ c :: l, v.EntryInWindow x) :
    ReadsEveryDrive v stack upcaseTable m call c l := by
  intro disk hchain
  have hc : v.HasCluster c := hin c List.mem_cons_self
  have hnext : ∀ x ∈ c :: l, usedNext v disk x = v.fatEntry disk x := by
    intro x hx
    rw [usedNext, (windowIndex_eq_iff h x).mpr (hwindow x hx)]
  have hne : usedNext v disk c ≠ 0 := by
    rw [hnext c List.mem_cons_self]
    exact fatEntry_ne_zero hin hchain
  obtain ⟨r, hrun, hloaded⟩ := @linkLoop_of_chain v h disk call.destBuffer endOfChain (c :: l)
    ⟨c, loadFat v disk stack c, 0, ⟨m, []⟩⟩ (List.cons_ne_nil _ _)
    (fun hc => loadFat_read32 h hc disk stack) (Or.inl rfl) hin (hchain.congr hnext)
  have hloaded' : r.loaded = c :: l := hloaded
  obtain ⟨hmem, hframe⟩ :=
    placed_linkLoop h.sized.clusterBytes_pos rfl (placed_nil disk m call.destBuffer) hrun
    (by rw [hloaded']; exact hfit)
  subst hfirst
  refine ⟨(ext.firstCluster :: l).length, clusterCountOf v ext, r, ?_, hloaded', ?_, ?_⟩
  · rw [readFile_found hfound, loadFile_of_ne h hc hne, hrun]
    rfl
  · intro i hi j hj
    have hi' : i < r.loaded.length := by rwa [hloaded']
    have hcluster := hin _ (List.getElem_mem hi)
    have hget := hmem i hi' j hj
    simp only [hloaded'] at hget
    rw [getHeapLba_mul h.shift h.sized.dvd hheap hcluster.two_le hcluster.heap] at hget
    exact hget
  · intro x hx
    refine hframe x ?_
    rwa [hloaded']

end Files

end Volumes

/-- **Which chains are read.** For every geometry, every file that the search finds and
every chain without repetitions of clusters of the volume that starts at its first
cluster: the file is read from every drive that holds the chain exactly when the cluster
heap starts on a sector of the drive and all clusters of the chain have their entries in
their windows. -/
theorem readsChain_iff {v : Volume} {stack m : Mem} {upcaseTable : ℕ → ℕ} {call : FileCall}
    {ext : Extension} {c : ℕ} {l : List ℕ} (h : v.Accepted)
    (hfound : findFile v upcaseTable m call = some (some ext)) (hfirst : ext.firstCluster = c)
    (hin : ∀ x ∈ c :: l, v.HasCluster x) (hnodup : (c :: l).Nodup)
    (hfit : call.destBuffer + v.clusterBytes * (c :: l).length ≤ 2 ^ 32) :
    ReadsEveryDrive v stack upcaseTable m call c l ↔
      v.HeapAligned ∧ ∀ x ∈ c :: l, v.EntryInWindow x := by
  constructor
  · intro hreads
    have hwindow := entryInWindow_of_reads h hfound hfirst hin hnodup hreads
    exact ⟨heapAligned_of_reads h hfound hfirst hin hnodup hfit (hwindow c List.mem_cons_self)
      hreads, hwindow⟩
  · rintro ⟨hheap, hwindow⟩
    exact readsEveryDrive h hfound hfirst hin hfit hheap hwindow

/-- A volume with sectors of 512 bytes on the drive and the given size of clusters. -/
def smallVolume (shift : ℕ) : Volume where
  fatOffset := 24
  clusterHeapOffset := 128
  clusterCount := 1000
  sectorsPerClusterShift := shift
  driveBytesPerSector := 512

theorem smallVolume_accepted {shift : ℕ} (h : shift < 23) : (smallVolume shift).Accepted where
  sector := ⟨9, le_refl 9, rfl⟩
  cluster := Nat.le_mul_of_pos_right 512 (Nat.two_pow_pos shift)
  shift := h
  aligned := Nat.mul_mod_left (0x100 + 24) 512
  fatBeforeHeap := by
    simp only [smallVolume]
    omega

theorem smallVolume_hasCluster {shift c : ℕ} (hshift : shift ≤ 12) (h2 : 2 ≤ c) (hc : c < 1002) :
    (smallVolume shift).HasCluster c where
  two_le := h2
  lt := hc
  heap := by
    have hpow : 2 ^ shift ≤ 2 ^ 12 := Nat.pow_le_pow_right Nat.two_pos hshift
    have hmul : (c - 2) * 2 ^ shift ≤ 1000 * 2 ^ 12 := Nat.mul_le_mul (by omega) hpow
    simp only [Volume.clusterStart, smallVolume]
    omega
  fat := by
    simp only [Volume.fatStart, smallVolume]
    omega

/-- A directory with one file with an empty name, at address 0. -/
def oneFile (firstCluster : UInt8) : Mem := fun a =>
  if a = 0 then 0x85 else if a = 1 then 1 else if a = 52 then firstCluster else 0

/-- The search for that file, to be read to `0x10000`. -/
def oneFileCall : FileCall := ⟨fun _ => 0, 0, 0, 1, 0x10000⟩

theorem readsChain_two :
    ReadsEveryDrive (smallVolume 0) (fun _ => 0) (fun x => x) (oneFile 2) oneFileCall 2 [3] := by
  have hfound : findFile (smallVolume 0) (fun x => x) (oneFile 2) oneFileCall
      = some (some ⟨2, 0⟩) := by decide +kernel
  have hin : ∀ x ∈ [2, 3], (smallVolume 0).HasCluster x := by
    intro x hx
    rcases List.mem_cons.mp hx with rfl | hx
    · exact smallVolume_hasCluster (by simp) (by simp) (by simp)
    · obtain rfl := List.mem_singleton.mp hx
      exact smallVolume_hasCluster (by simp) (by simp) (by simp)
  refine (readsChain_iff (smallVolume_accepted (by simp)) hfound rfl hin (by simp)
    (by decide)).mpr ⟨by decide, ?_⟩
  intro x hx
  rcases List.mem_cons.mp hx with rfl | hx
  · decide
  · obtain rfl := List.mem_singleton.mp hx
    decide

/-- **A cluster whose entry is in the second sector of a cluster**: with clusters of two
sectors the entry of cluster 128 is the first one of the sector that is read, and is looked
for in the second one. -/
theorem readsChain_fails :
    ¬ ∀ (v : Volume) (stack m : Mem) (upcaseTable : ℕ → ℕ) (call : FileCall) (ext : Extension)
      (l : List ℕ), v.Accepted → findFile v upcaseTable m call = some (some ext) →
      (∀ x ∈ ext.firstCluster :: l, v.HasCluster x) → (ext.firstCluster :: l).Nodup →
      call.destBuffer + v.clusterBytes * (ext.firstCluster :: l).length ≤ 2 ^ 32 →
      ReadsEveryDrive v stack upcaseTable m call ext.firstCluster l := by
  intro hall
  have hfound : findFile (smallVolume 1) (fun x => x) (oneFile 128) oneFileCall
      = some (some ⟨128, 0⟩) := by decide +kernel
  have hin : ∀ x ∈ [128], (smallVolume 1).HasCluster x := by
    intro x hx
    obtain rfl := List.mem_singleton.mp hx
    exact smallVolume_hasCluster (by simp) (by simp) (by simp)
  have haccepted := @smallVolume_accepted 1 (by simp)
  have hreads := hall (smallVolume 1) (fun _ => 0) (oneFile 128) (fun x => x) oneFileCall ⟨128, 0⟩
    [] haccepted hfound hin (by simp) (by decide)
  have hwindow := entryInWindow_of_reads haccepted hfound rfl hin (by simp) hreads 128
    List.mem_cons_self
  exact absurd hwindow (by decide)

end LoofOS
