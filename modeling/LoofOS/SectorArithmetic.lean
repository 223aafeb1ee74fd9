import LoofOS.ClusterChain

/-!
# Sector Numbers

`get_heap_lba`, `get_fat_lba` and `get_cluster_size` turn sectors of 512 bytes into sectors
of the drive: they multiply by 512, in 32 bits, before they divide by the size of a sector.
The product is a number of bytes, so the three are exact as long as the bytes they pass on
the way are below 4 GiB, however large the sectors of the drive are (`sectorsExact_iff`).
-/

namespace LoofOS

namespace Volume

variable (v : Volume)

/-- The boot record and the size of a drive sector describe a volume: the regions and the
clusters consist of sectors of the drive, and the numbers of these sectors and of the
clusters are 32-bit values. -/
structure Described : Prop where
  sector : ∃ k, 9 ≤ k ∧ k < 16 ∧ v.driveBytesPerSector = 2 ^ k
  cluster : v.driveBytesPerSector ≤ 512 * 2 ^ v.sectorsPerClusterShift
  heapAligned : v.driveBytesPerSector ∣ 512 * (0x100 + v.clusterHeapOffset)
  fatAligned : v.driveBytesPerSector ∣ 512 * (0x100 + v.fatOffset)
  count : v.clusterCount + 1 < 2 ^ 32
  heapSectors : 512 * (0x100 + v.clusterHeapOffset + v.clusterCount * 2 ^ v.sectorsPerClusterShift)
    ≤ 2 ^ 32 * v.driveBytesPerSector
  fatSectors : 512 * (0x100 + v.fatOffset) + 4 * (v.clusterCount + 2)
    ≤ 2 ^ 32 * v.driveBytesPerSector

/-- The three functions compute what they are for, on every cluster and every number of
clusters of the volume. -/
structure SectorsExact : Prop where
  heap : ∀ index, 2 ≤ index → index ≤ v.clusterCount + 1 →
    v.getHeapLba index * v.driveBytesPerSector
      = 512 * (0x100 + v.clusterHeapOffset + (index - 2) * 2 ^ v.sectorsPerClusterShift)
  fat : ∀ index, 2 ≤ index → index ≤ v.clusterCount + 1 →
    v.getFatLba index = (512 * (0x100 + v.fatOffset) + 4 * index) / v.driveBytesPerSector
  size : ∀ n ≤ v.clusterCount,
    v.getClusterSize n * v.driveBytesPerSector = n * 512 * 2 ^ v.sectorsPerClusterShift

/-- The bytes that are passed on the way stay below 4 GiB: the start of the last cluster,
its entry in the FAT, and the size of all clusters. -/
structure BytesBelow : Prop where
  heap : 512 * (0x100 + v.clusterHeapOffset
    + (v.clusterCount - 1) * 2 ^ v.sectorsPerClusterShift) < 2 ^ 32
  fat : 512 * (0x100 + v.fatOffset) + 4 * (v.clusterCount + 1) < 2 ^ 32
  size : v.clusterCount * 512 * 2 ^ v.sectorsPerClusterShift < 2 ^ 32

end Volume

section Sectors

variable {v : Volume}

/-! ### One product -/

/-- A truncated number of bytes, rounded down to sectors, is exact exactly if nothing was
truncated. -/
theorem wrap32_div_mul_eq_iff {d x : ℕ} (hdvd : d ∣ x) : wrap32 x / d * d = x ↔ x < 2 ^ 32 := by
  constructor
  · intro heq
    have hwrap : wrap32 x < 2 ^ 32 := Nat.mod_lt _ (Nat.two_pow_pos 32)
    exact heq ▸ (Nat.div_mul_le_self _ _).trans_lt hwrap
  · intro hlt
    rw [wrap32_of_lt hlt, Nat.div_mul_cancel hdvd]

/-- The same for the number of the sector, for sizes that divide the range of the words. -/
theorem wrap32_div_eq_iff {d x : ℕ} (hd : d ∣ 2 ^ 32) : wrap32 x / d = x / d ↔ x < 2 ^ 32 := by
  obtain ⟨q, hq⟩ := hd
  have hpos : 0 < d := Nat.pos_of_ne_zero fun h0 => by
    rw [h0, Nat.zero_mul] at hq
    exact absurd hq (Nat.two_pow_pos 32).ne'
  constructor
  · intro heq
    have hwrap : wrap32 x < d * q := hq ▸ Nat.mod_lt _ (Nat.two_pow_pos 32)
    have hlt : x / d < q := heq ▸ Nat.div_lt_of_lt_mul hwrap
    rw [hq, Nat.mul_comm]
    exact (Nat.div_lt_iff_lt_mul hpos).mp hlt
  · intro hlt
    rw [wrap32_of_lt hlt]

/-- Shifting is multiplication by a power of two as long as the product is a 32-bit value,
and then the distance is below 32. -/
theorem shiftCluster_of_lt {n : ℕ} (h : n * 2 ^ v.sectorsPerClusterShift < 2 ^ 32) :
    v.shiftCluster n = n * 2 ^ v.sectorsPerClusterShift := by
  rcases Nat.eq_zero_or_pos n with rfl | hn
  · rw [Volume.shiftCluster, Nat.zero_mul, Nat.zero_mul]
  · have hpow : 2 ^ v.sectorsPerClusterShift < 2 ^ 32 :=
      (Nat.le_mul_of_pos_left _ hn).trans_lt h
    rw [Volume.shiftCluster, bit32_of_lt ((Nat.pow_lt_pow_iff_right Nat.one_lt_two).mp hpow)]

/-! ### The three functions -/

theorem Volume.Described.sector_dvd (h : v.Described) : v.driveBytesPerSector ∣ 2 ^ 32 := by
  obtain ⟨k, -, hk, hsector⟩ := h.sector
  exact hsector ▸ Nat.pow_dvd_pow 2 (by omega)

theorem Volume.Described.cluster_dvd (h : v.Described) :
    v.driveBytesPerSector ∣ 512 * 2 ^ v.sectorsPerClusterShift := by
  obtain ⟨k, -, -, hsector⟩ := h.sector
  have hle := h.cluster
  rw [hsector, show 512 = 2 ^ 9 from rfl, ← Nat.pow_add] at hle ⊢
  exact Nat.pow_dvd_pow 2 ((Nat.pow_le_pow_iff_right Nat.one_lt_two).mp hle)

/-- `get_heap_lba` of one cluster. -/
theorem getHeapLba_exact_iff (h : v.Described) {index : ℕ} (h2 : 2 ≤ index)
    (hlt : index < 2 ^ 32) :
    v.getHeapLba index * v.driveBytesPerSector
        = 512 * (0x100 + v.clusterHeapOffset + (index - 2) * 2 ^ v.sectorsPerClusterShift) ↔
      512 * (0x100 + v.clusterHeapOffset + (index - 2) * 2 ^ v.sectorsPerClusterShift)
        < 2 ^ 32 := by
  have hdvd : v.driveBytesPerSector ∣
      512 * (0x100 + v.clusterHeapOffset + (index - 2) * 2 ^ v.sectorsPerClusterShift) := by
    rw [Nat.mul_add, Nat.mul_left_comm]
    exact (Nat.dvd_add_right h.heapAligned).mpr (h.cluster_dvd.mul_left _)
  constructor
  · intro heq
    have hwrap : wrap32 ((0x100 + v.clusterHeapOffset + v.shiftCluster (sub32 index 2)) * 512)
        < 2 ^ 32 := Nat.mod_lt _ (Nat.two_pow_pos 32)
    exact heq ▸ (Nat.div_mul_le_self _ _).trans_lt hwrap
  · intro hbelow
    have hshift : v.shiftCluster (index - 2) = (index - 2) * 2 ^ v.sectorsPerClusterShift :=
      shiftCluster_of_lt (by omega)
    rw [Volume.getHeapLba, sub32_of_le h2 hlt, hshift, Nat.mul_comm _ 512]
    exact (wrap32_div_mul_eq_iff hdvd).mpr hbelow

/-- `get_fat_lba` of one cluster. -/
theorem getFatLba_exact_iff (h : v.Described) (index : ℕ) :
    v.getFatLba index = (512 * (0x100 + v.fatOffset) + 4 * index) / v.driveBytesPerSector ↔
      512 * (0x100 + v.fatOffset) + 4 * index < 2 ^ 32 := by
  obtain ⟨q, hq⟩ : 512 ∣ v.driveBytesPerSector := by
    obtain ⟨k, hk, -, hsector⟩ := h.sector
    exact hsector ▸ Nat.pow_dvd_pow 2 hk
  -- rounding the entry down to 512 bytes does not leave the sector of the drive
  have hfloor : (512 * (0x100 + v.fatOffset) + 4 * index) / v.driveBytesPerSector
      = 512 * (0x100 + v.fatOffset + index / 128) / v.driveBytesPerSector := by
    rw [hq, ← Nat.div_div_eq_div_mul, ← Nat.div_div_eq_div_mul]
    congr 1
    omega
  have hlba : v.getFatLba index
      = wrap32 (512 * (0x100 + v.fatOffset + index / 128)) / v.driveBytesPerSector := by
    rw [Volume.getFatLba, wrap32, wrap32, wrap32]
    congr 1
    omega
  rw [hlba, hfloor, wrap32_div_eq_iff h.sector_dvd]
  omega

/-- `get_cluster_size` of one number of clusters. -/
theorem getClusterSize_exact_iff (h : v.Described) (n : ℕ) :
    v.getClusterSize n * v.driveBytesPerSector = n * 512 * 2 ^ v.sectorsPerClusterShift ↔
      n * 512 * 2 ^ v.sectorsPerClusterShift < 2 ^ 32 := by
  have hdvd : v.driveBytesPerSector ∣ n * 512 * 2 ^ v.sectorsPerClusterShift := by
    rw [Nat.mul_assoc]
    exact h.cluster_dvd.mul_left n
  constructor
  · intro heq
    have hwrap : wrap32 (v.shiftCluster n * 512) < 2 ^ 32 := Nat.mod_lt _ (Nat.two_pow_pos 32)
    exact heq ▸ (Nat.div_mul_le_self _ _).trans_lt hwrap
  · intro hbelow
    have hmul : n * 512 * 2 ^ v.sectorsPerClusterShift
        = n * 2 ^ v.sectorsPerClusterShift * 512 := Nat.mul_right_comm _ _ _
    rw [Volume.getClusterSize, shiftCluster_of_lt (by omega), ← hmul]
    exact (wrap32_div_mul_eq_iff hdvd).mpr hbelow

end Sectors

/-- **Where sector numbers are exact**: on volumes whose clusters and FAT are passed below
4 GiB. A volume without clusters asks for nothing. -/
theorem sectorsExact_iff {v : Volume} (h : v.Described) :
    v.SectorsExact ↔ (v.clusterCount ≠ 0 → v.BytesBelow) := by
  have hcount := h.count
  constructor
  · intro hexact hne
    refine ⟨?_, ?_, ?_⟩
    · exact (getHeapLba_exact_iff h (by omega) hcount).mp
        (hexact.heap (v.clusterCount + 1) (by omega) (le_refl _))
    · exact (getFatLba_exact_iff h _).mp
        (hexact.fat (v.clusterCount + 1) (by omega) (le_refl _))
    · exact (getClusterSize_exact_iff h _).mp (hexact.size v.clusterCount (le_refl _))
  · intro hbelow
    refine ⟨fun index h2 hle => ?_, fun index h2 hle => ?_, fun n hn => ?_⟩
    · refine (getHeapLba_exact_iff h h2 (by omega)).mpr (lt_of_le_of_lt ?_ (hbelow (by omega)).heap)
      have hmono : (index - 2) * 2 ^ v.sectorsPerClusterShift
          ≤ (v.clusterCount - 1) * 2 ^ v.sectorsPerClusterShift :=
        Nat.mul_le_mul_right _ (by omega)
      omega
    · have hfat := (hbelow (by omega)).fat
      exact (getFatLba_exact_iff h index).mpr (by omega)
    · refine (getClusterSize_exact_iff h n).mpr ?_
      rcases Nat.eq_zero_or_pos n with rfl | hpos
      · simp only [Nat.zero_mul, Nat.two_pow_pos]
      · rw [Nat.mul_assoc]
        refine lt_of_le_of_lt (Nat.mul_le_mul_right _ hn) ?_
        rw [← Nat.mul_assoc]
        exact (hbelow (by omega)).size

/-- A volume with clusters of 4 KiB behind 16 MiB, on a drive with sectors of 512 bytes. -/
def plainVolume (clusterCount : ℕ) : Volume where
  fatOffset := 128
  clusterHeapOffset := 32768
  clusterCount := clusterCount
  sectorsPerClusterShift := 3
  driveBytesPerSector := 512

theorem plainVolume_described {n : ℕ} (h : n ≤ 2 ^ 21) : (plainVolume n).Described where
  sector := ⟨9, le_refl 9, by simp, rfl⟩
  cluster := Nat.le_mul_of_pos_right 512 (Nat.two_pow_pos 3)
  heapAligned := Nat.dvd_mul_right 512 _
  fatAligned := Nat.dvd_mul_right 512 _
  count := by
    simp only [plainVolume]
    omega
  heapSectors := by
    simp only [plainVolume]
    omega
  fatSectors := by
    simp only [plainVolume]
    omega

/-- A volume of 1 GiB. -/
theorem sectorsExact_plain : (plainVolume (2 ^ 18)).SectorsExact :=
  (sectorsExact_iff (plainVolume_described (by simp))).mpr fun _ =>
    ⟨by decide, by decide, by decide⟩

/-- On a volume of 8 GiB, the cluster in the middle is looked for at the start of the
drive. -/
theorem sectorsExact_fails : ¬ ∀ v : Volume, v.Described → v.SectorsExact := by
  intro hall
  have hexact := hall (plainVolume (2 ^ 21)) (plainVolume_described (le_refl _))
  have hlt := (getHeapLba_exact_iff (plainVolume_described (le_refl _)) (by simp)
    (by simp)).mp (hexact.heap (2 ^ 20) (by simp) (by decide))
  exact absurd hlt (by decide)

end LoofOS
