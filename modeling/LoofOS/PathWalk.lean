import LoofOS.ClusterChain
import LoofOS.Run

/-!
# Reading a Path on Any Volume

`read_file_exfat` on an arbitrary drive: nothing is assumed of the boot record, of the
directories, of the FAT or of the path. The search in a directory always ends, and so does
the loop over the path; the loop through the FAT is the only one that may not.

The clusters that this loop visits are given by `fatNext`, whatever the geometry is. It
ends within `n` rounds exactly when one of the first `n` entries that it uses is an end
(`chainEnds`), so a call stays within the number of clusters that it announces exactly when
this holds for that number, or when the first entry is zero (`FileEnds`).

## Main results

* `search_isSome`: the search in a directory ends.
* `linkLoop_of_chainEnds`, `chainEnds_of_linkLoop`: when the loop through the FAT ends within
  a number of rounds.
* `pathLoop_eq_exec`: the loop over the path goes through the blocks of the path.
* `readFile_bounded_iff`: the volumes and paths for which `read_file_exfat` ends and every
  call stays within its announcement.
-/

namespace LoofOS

open Run

variable {v : Volume}

/-! ### The search in a directory -/

/-- **The search ends**, with a result or at a name that is too long. -/
theorem search_isSome (v : Volume) (upcaseTable : ℕ → ℕ) (m : Mem) (call : FileCall) :
    (Loop.iter (searchEntry v upcaseTable m call) (entryCount v call + 1)
      (0, fun _ => 0)).isSome := by
  suffices hloop : ∃ r, Loop.iter (searchEntry v upcaseTable m call) (entryCount v call + 1)
      (0, fun _ => 0) = some r ∧ True by
    obtain ⟨r, hr, -⟩ := hloop
    rw [hr]
    rfl
  refine Loop.iter_total (I := fun _ => True) (Q := fun _ => True)
    (fun s => entryCount v call - s.1) ?_ (fun _ _ _ _ => trivial) trivial _
    (Nat.lt_succ_of_le (Nat.sub_le _ _))
  · rintro ⟨i, filename⟩ s' - hbody
    refine ⟨trivial, ?_⟩
    simp only [searchEntry] at hbody
    split at hbody
    · rename_i hlt
      split at hbody
      · split at hbody
        · cases hbody
        · split at hbody
          · cases hbody
          · obtain rfl := Sum.inl.inj hbody
            change entryCount v call - (i + _ + 1) < entryCount v call - i
            omega
      · obtain rfl := Sum.inl.inj hbody
        change entryCount v call - (i + 1) < entryCount v call - i
        omega
    · cases hbody

/-! ### The loop through the FAT -/

/-- The entry that is used for a cluster, `none` if the index is negative. -/
def fatNext (v : Volume) (disk : Mem) (c : ℕ) : Option ℕ :=
  (fatIndex v c).map fun i => (loadFat v disk (fun _ => 0) c).read32 (4 * i)

theorem fatIndex_lt {c i : ℕ} (hid : 0 < v.idPerCluster) (h : fatIndex v c = some i) :
    i < v.idPerCluster := by
  rw [fatIndex] at h
  split at h
  · obtain rfl := Option.some.inj h
    exact Nat.mod_lt _ hid
  · split at h
    · obtain rfl := Option.some.inj h
      exact hid
    · cases h

/-- **The entry that is used** does not depend on what the buffer held before. -/
theorem fatNext_eq {disk : Mem} {c i : ℕ} (hid : 0 < v.idPerCluster) (h : fatIndex v c = some i)
    (buffer : Mem) : fatNext v disk c = some ((loadFat v disk buffer c).read32 (4 * i)) := by
  have hlt := fatIndex_lt hid h
  have hmul := clusterBytes_eq_mul v
  have hsmall : v.clusterBytes < 2 ^ 32 := Nat.mod_lt _ (Nat.two_pow_pos 32)
  rw [fatNext, h, Option.map_some]
  refine congrArg some (Mem.read32_congr fun x _ hx => ?_)
  rw [Volume.idPerCluster] at hlt
  have hin : 0 ≤ x ∧ x < 0 + v.getClusterSize 1 * v.driveBytesPerSector := by omega
  rw [loadFat, loadFat, biosExtRead_apply disk _ _ (by omega), if_pos hin,
    biosExtRead_apply disk _ _ (by omega), if_pos hin]

/-- One of the first `n` entries that are used from `c` on is an end. -/
def chainEnds (v : Volume) (disk : Mem) : ℕ → ℕ → Prop
  | 0, _ => False
  | n + 1, c => ∃ d, fatNext v disk c = some d ∧ (EndsLoop d ∨ chainEnds v disk n d)

/-- The FAT buffer holds the entry for the current cluster. -/
def HoldsEntry (v : Volume) (disk : Mem) (s : LinkState) : Prop :=
  ∀ i, fatIndex v s.currentClusterId = some i →
    fatNext v disk s.currentClusterId = some (s.fatBuffer.read32 (4 * i))

/-- **One round** of the loop, in terms of the entry that is used. -/
theorem linkBody_of_next {disk : Mem} {dest : ℕ} {s : LinkState} (hid : 0 < v.idPerCluster)
    (hs : HoldsEntry v disk s) :
    match fatNext v disk s.currentClusterId with
    | none => linkBody v disk dest s = Sum.inr none
    | some d => ∃ s', HoldsEntry v disk s' ∧ s'.currentClusterId = d ∧
        s'.read.loaded = s.read.loaded ++ [s.currentClusterId] ∧
        linkBody v disk dest s = if EndsLoop d then Sum.inr (some s'.read) else Sum.inl s' := by
  cases hi : fatIndex v s.currentClusterId with
  | none =>
      have hnext : fatNext v disk s.currentClusterId = none := by rw [fatNext, hi, Option.map_none]
      simp only [hnext, linkBody, hi]
  | some i =>
      simp only [hs i hi]
      refine ⟨⟨s.fatBuffer.read32 (4 * i), loadFat v disk s.fatBuffer (s.fatBuffer.read32 (4 * i)),
        s.clustersRead + 1, loadCluster v disk dest s.clustersRead s.currentClusterId s.read⟩,
        fun j hj => fatNext_eq hid hj _, rfl, rfl, linkBody_of_index hi⟩

/-- The clusters that the loop through the FAT loads from `c` on. -/
def Follows (v : Volume) (disk : Mem) : ℕ → List ℕ → Prop
  | _, [] => False
  | c, x :: l => x = c ∧
      ∃ d, fatNext v disk c = some d ∧ ((EndsLoop d ∧ l = []) ∨ (¬ EndsLoop d ∧ Follows v disk d l))

/-- **What the loop through the FAT has loaded** when it is left. -/
theorem follows_of_linkLoop {disk : Mem} {dest fuel : ℕ} {s : LinkState} {r : FileRead}
    (hid : 0 < v.idPerCluster) (hs : HoldsEntry v disk s)
    (hrun : Loop.iter (linkBody v disk dest) fuel s = some (some r)) :
    ∃ l, r.loaded = s.read.loaded ++ l ∧ Follows v disk s.currentClusterId l := by
  induction fuel generalizing s with
  | zero => cases hrun
  | succ fuel ih =>
      have hround := @linkBody_of_next v disk dest s hid hs
      cases hd : fatNext v disk s.currentClusterId with
      | none =>
          simp only [hd] at hround
          rw [Loop.iter_succ_of_inr hround] at hrun
          cases hrun
      | some d =>
          simp only [hd] at hround
          obtain ⟨s', hs', hcur, hloaded, hbody⟩ := hround
          by_cases hend : EndsLoop d
          · rw [if_pos hend] at hbody
            rw [Loop.iter_succ_of_inr hbody] at hrun
            obtain rfl := Option.some.inj (Option.some.inj hrun)
            exact ⟨[s.currentClusterId], hloaded, rfl, d, hd, Or.inl ⟨hend, rfl⟩⟩
          · rw [if_neg hend] at hbody
            rw [Loop.iter_succ_of_inl hbody] at hrun
            obtain ⟨l, hl, hfollows⟩ := ih hs' hrun
            refine ⟨s.currentClusterId :: l, ?_, rfl, d, hd, Or.inr ⟨hend, hcur ▸ hfollows⟩⟩
            rw [hl, hloaded]
            exact List.append_assoc _ _ _

/-- **Clusters that are followed** are loaded. -/
theorem linkLoop_of_follows {disk : Mem} {dest : ℕ} {l : List ℕ} {s : LinkState}
    (hid : 0 < v.idPerCluster) (hs : HoldsEntry v disk s)
    (hfollows : Follows v disk s.currentClusterId l) :
    ∃ r, Loop.iter (linkBody v disk dest) l.length s = some (some r) ∧
      r.loaded = s.read.loaded ++ l := by
  induction l generalizing s with
  | nil => exact absurd hfollows id
  | cons x l ih =>
      obtain ⟨rfl, d, hd, hcases⟩ := hfollows
      have hround := @linkBody_of_next v disk dest s hid hs
      simp only [hd] at hround
      obtain ⟨s', hs', hcur, hloaded, hbody⟩ := hround
      rcases hcases with ⟨hend, rfl⟩ | ⟨hend, hfollows⟩
      · rw [if_pos hend] at hbody
        exact ⟨s'.read, Loop.iter_succ_of_inr hbody 0, hloaded⟩
      · rw [if_neg hend] at hbody
        obtain ⟨r, hr, hl⟩ := ih hs' (hcur.symm ▸ hfollows)
        refine ⟨r, ?_, ?_⟩
        · rw [List.length_cons, Loop.iter_succ_of_inl hbody, hr]
        · rw [hl, hloaded]
          exact List.append_assoc _ _ _

/-- A chain ends within `n` rounds if at most `n` clusters are followed. -/
theorem chainEnds_iff {disk : Mem} {n c : ℕ} :
    chainEnds v disk n c ↔ ∃ l, Follows v disk c l ∧ l.length ≤ n := by
  induction n generalizing c with
  | zero =>
      refine ⟨fun h => absurd h id, ?_⟩
      rintro ⟨l, hfollows, hlen⟩
      obtain rfl := List.length_eq_zero_iff.mp (Nat.le_zero.mp hlen)
      exact hfollows
  | succ n ih =>
      constructor
      · rintro ⟨d, hd, hends⟩
        by_cases hend : EndsLoop d
        · exact ⟨[c], ⟨rfl, d, hd, Or.inl ⟨hend, rfl⟩⟩, Nat.le_add_left 1 n⟩
        · obtain ⟨l, hfollows, hlen⟩ := ih.mp (hends.resolve_left hend)
          exact ⟨c :: l, ⟨rfl, d, hd, Or.inr ⟨hend, hfollows⟩⟩, Nat.succ_le_succ hlen⟩
      · rintro ⟨_ | ⟨x, l⟩, hfollows, hlen⟩
        · exact hfollows.elim
        · obtain ⟨rfl, d, hd, ⟨hend, -⟩ | ⟨-, hrest⟩⟩ := hfollows
          · exact ⟨d, hd, Or.inl hend⟩
          · exact ⟨d, hd, Or.inr (ih.mpr ⟨l, hrest, Nat.le_of_succ_le_succ hlen⟩)⟩

/-- **A chain that ends** is loaded within as many rounds as it has entries. -/
theorem linkLoop_of_chainEnds {disk : Mem} {dest n : ℕ} {s : LinkState} (hid : 0 < v.idPerCluster)
    (hs : HoldsEntry v disk s) (hends : chainEnds v disk n s.currentClusterId) :
    ∃ r, Loop.iter (linkBody v disk dest) n s = some (some r) ∧
      r.loaded.length ≤ s.read.loaded.length + n := by
  obtain ⟨l, hfollows, hlen⟩ := chainEnds_iff.mp hends
  obtain ⟨r, hr, hl⟩ := @linkLoop_of_follows v disk dest l s hid hs hfollows
  refine ⟨r, Loop.iter_mono hlen hr, ?_⟩
  rw [hl, List.length_append]
  exact Nat.add_le_add_left hlen _

/-- **What the loop has loaded** when it is left is one more cluster for each entry before
the end. -/
theorem chainEnds_of_linkLoop {disk : Mem} {dest n fuel : ℕ} {s : LinkState} {r : FileRead}
    (hid : 0 < v.idPerCluster) (hs : HoldsEntry v disk s)
    (hrun : Loop.iter (linkBody v disk dest) fuel s = some (some r))
    (hlen : r.loaded.length ≤ s.read.loaded.length + n) :
    chainEnds v disk n s.currentClusterId := by
  obtain ⟨l, hl, hfollows⟩ := follows_of_linkLoop hid hs hrun
  rw [hl, List.length_append] at hlen
  exact chainEnds_iff.mpr ⟨l, hfollows, Nat.le_of_add_le_add_left hlen⟩

/-! ### One file -/

/-- The file is loaded within the clusters that it announces: the entry that is used for its
first cluster is zero, or the chain from there has an end among them. -/
def FileEnds (v : Volume) (disk : Mem) (e : Extension) : Prop :=
  fatNext v disk e.firstCluster = some 0 ∨ chainEnds v disk (clusterCountOf v e) e.firstCluster

theorem length_loadConsecutive (v : Volume) (disk : Mem) (dest c : ℕ) (r : FileRead) (n : ℕ) :
    (loadConsecutive v disk dest c r n).loaded.length = r.loaded.length + n := by
  induction n with
  | zero => rfl
  | succ n ih =>
      rw [loadConsecutive, loadCluster, List.length_append, ih]
      rfl

/-- What is announced is at most the number of clusters that the data takes. -/
theorem clusterCountOf_le (v : Volume) (e : Extension) :
    clusterCountOf v e ≤ (e.dataLength + v.clusterBytes - 1) / v.clusterBytes := by
  by_cases h0 : v.clusterBytes = 0
  · rw [clusterCountOf, h0, Nat.div_zero]
    exact Nat.zero_le _
  · refine Nat.div_le_div_right ?_
    simp only [sub32, wrap32]
    omega

theorem clusterCountOf_lt (v : Volume) (e : Extension) : clusterCountOf v e < 2 ^ 32 :=
  (Nat.div_le_self _ _).trans_lt (Nat.mod_lt _ (Nat.two_pow_pos 32))

/-- The loop through the FAT starts with the entry of the first cluster in the buffer. -/
theorem holdsEntry_start (hid : 0 < v.idPerCluster) (disk stack m : Mem) (c : ℕ) :
    HoldsEntry v disk ⟨c, loadFat v disk stack c, 0, ⟨m, []⟩⟩ :=
  fun _ hj => fatNext_eq hid hj stack

/-- **Which loop loads the file** is up to the entry that is used for its first cluster. -/
theorem loadFile_eq {disk stack m : Mem} {fuel dest : ℕ} {e : Extension}
    (hid : 0 < v.idPerCluster) :
    loadFile v disk stack fuel m dest e = (fatNext v disk e.firstCluster).bind fun d =>
      if d = 0 then some (loadConsecutive v disk dest e.firstCluster ⟨m, []⟩ (clusterCountOf v e))
      else (Loop.iter (linkBody v disk dest) fuel
        ⟨e.firstCluster, loadFat v disk stack e.firstCluster, 0, ⟨m, []⟩⟩).join := by
  cases hi : fatIndex v e.firstCluster with
  | none => simp only [loadFile, fatNext, hi, Option.map_none, Option.bind_none]
  | some i => simp only [loadFile, fatNext_eq hid hi stack, hi, Option.bind_some]

/-- **Loading a file** within the clusters that it announces. -/
theorem loadFile_of_fileEnds {disk : Mem} {e : Extension} (hid : 0 < v.idPerCluster)
    (hends : FileEnds v disk e) (stack m : Mem) (dest : ℕ) {fuel : ℕ}
    (hfuel : clusterCountOf v e ≤ fuel) :
    ∃ r, loadFile v disk stack fuel m dest e = some r ∧ r.loaded.length ≤ clusterCountOf v e := by
  rw [loadFile_eq hid]
  cases hnext : fatNext v disk e.firstCluster with
  | none =>
      rcases hends with hzero | hends
      · rw [hnext] at hzero
        cases hzero
      · cases hn : clusterCountOf v e with
        | zero =>
            rw [hn] at hends
            exact absurd hends id
        | succ n =>
            rw [hn] at hends
            obtain ⟨d, hd, -⟩ := hends
            rw [hnext] at hd
            cases hd
  | some d =>
      rw [Option.bind_some]
      by_cases hzero : d = 0
      · rw [if_pos hzero]
        refine ⟨_, rfl, ?_⟩
        rw [length_loadConsecutive, List.length_nil, Nat.zero_add]
      · rw [if_neg hzero]
        have hne : fatNext v disk e.firstCluster ≠ some 0 := by
          rw [hnext]
          exact fun he => hzero (Option.some.inj he)
        obtain ⟨r, hr, hlen⟩ := @linkLoop_of_chainEnds v disk dest _ _ hid
          (holdsEntry_start hid disk stack m e.firstCluster) (hends.resolve_left hne)
        refine ⟨r, ?_, by simpa using hlen⟩
        rw [Loop.iter_mono hfuel hr]
        rfl

/-- A file that was loaded within the clusters that it announces. -/
theorem fileEnds_of_loadFile {disk stack m : Mem} {dest fuel : ℕ} {e : Extension} {r : FileRead}
    (hid : 0 < v.idPerCluster) (hrun : loadFile v disk stack fuel m dest e = some r)
    (hlen : r.loaded.length ≤ clusterCountOf v e) : FileEnds v disk e := by
  rw [loadFile_eq hid] at hrun
  obtain ⟨d, hnext, hrun⟩ := Option.bind_eq_some_iff.mp hrun
  by_cases hzero : d = 0
  · exact Or.inl (hzero ▸ hnext)
  · rw [if_neg hzero] at hrun
    refine Or.inr (chainEnds_of_linkLoop hid (holdsEntry_start hid disk stack m e.firstCluster)
      (Option.join_eq_some_iff.mp hrun) ?_)
    simpa using hlen

/-! ### One call -/

/-- A call of `_read_file_exfat_helper` stays within its announcement: the search does not
come to a name that is too long, and the file that is found, if there is one, ends. -/
def CallEnds (v : Volume) (disk : Mem) (upcaseTable : ℕ → ℕ) (m : Mem) (call : FileCall) : Prop :=
  match findFile v upcaseTable m call with
  | none => False
  | some none => True
  | some (some e) => FileEnds v disk e

/-- The clusters that were loaded are no more than were announced, and no more than the
data of the selected entry takes. -/
def HelperCall.Bounded (v : Volume) (call : HelperCall) : Prop :=
  ∀ e, call.selected = some e → call.loaded.length ≤ call.announced ∧
    call.announced ≤ (e.dataLength + v.clusterBytes - 1) / v.clusterBytes

section Walk

variable {disk : Mem} {stack : ℕ → Mem} {upcaseTable : ℕ → ℕ} {dest : ℕ}

/-- There is room for an entry in a cluster, or the next call looks at one cluster. -/
def FirstOrRoom (v : Volume) (s : WalkState) : Prop := s.dirsClusters ≤ 1 ∨ 0 < v.idPerCluster

/-- **Where a file is found** there is room for an entry in a cluster. -/
theorem idPerCluster_pos {s : WalkState} (hroom : FirstOrRoom v s) {path : List Int8}
    {e : Extension} (hfound : findFile v upcaseTable s.mem (blockCall dest path s.dirsClusters)
      = some (some e)) (hne : s.dirsClusters ≠ 0) : 0 < v.idPerCluster := by
  refine hroom.elim (fun hone => ?_) id
  have hone : s.dirsClusters = 1 := by omega
  rw [hone] at hfound
  by_contra hzero
  have hcount : entryCount v (blockCall dest path 1) = 0 := by
    have hbytes : wrap32 (v.driveBytesPerSector * v.getClusterSize 1) = v.clusterBytes := rfl
    rw [entryCount, blockCall, hbytes]
    rw [Volume.idPerCluster] at hzero
    omega
  have hbody : searchEntry v upcaseTable s.mem (blockCall dest path 1) (0, fun _ => 0)
      = Sum.inr (some none) := by
    simp only [searchEntry, hcount, Nat.lt_irrefl, if_false]
  rw [findFile, Loop.iter_succ_of_inr hbody] at hfound
  cases hfound

/-- **A call that stays within its announcement** returns. -/
theorem readBlock_of_callEnds {s : WalkState} {path : List Int8} {fuel : ℕ}
    (hroom : FirstOrRoom v s) (hne : s.dirsClusters ≠ 0)
    (hends : CallEnds v disk upcaseTable s.mem (blockCall dest path s.dirsClusters))
    (hfuel : 2 ^ 32 ≤ fuel) :
    ∃ s' call, readBlock v disk stack upcaseTable dest fuel s path = some s' ∧
      s'.calls = s.calls ++ [call] ∧ call.Bounded v ∧ FirstOrRoom v s' := by
  rw [CallEnds] at hends
  cases hfound : findFile v upcaseTable s.mem (blockCall dest path s.dirsClusters) with
  | none =>
      simp only [hfound] at hends
  | some found =>
      cases found with
      | none =>
          refine ⟨⟨0, s.mem, s.calls ++ [⟨none, [], 0⟩]⟩, ⟨none, [], 0⟩, ?_, rfl, ?_,
            Or.inl (Nat.zero_le 1)⟩
          · simp only [readBlock, readFileExfatHelper, hfound]
            rfl
          · exact fun e he => absurd he.symm (Option.some_ne_none e)
      | some e =>
          simp only [hfound] at hends
          have hid := idPerCluster_pos hroom hfound hne
          obtain ⟨r, hr, hlen⟩ := loadFile_of_fileEnds hid hends (stack s.calls.length) s.mem dest
            ((clusterCountOf_lt v e).le.trans hfuel)
          refine ⟨⟨clusterCountOf v e, r.mem, s.calls ++ [⟨some e, r.loaded, clusterCountOf v e⟩]⟩,
            ⟨some e, r.loaded, clusterCountOf v e⟩, ?_, rfl, ?_, Or.inr hid⟩
          · have hdest : (blockCall dest path s.dirsClusters).destBuffer = dest := rfl
            simp only [readBlock, readFileExfatHelper, hfound, Option.bind_some, hdest, hr]
            rfl
          · intro e' he'
            obtain rfl := Option.some.inj he'
            exact ⟨hlen, clusterCountOf_le v e⟩

/-- A call that returned within its announcement. -/
theorem callEnds_of_readBlock {s s' : WalkState} {path : List Int8} {fuel : ℕ}
    (hroom : FirstOrRoom v s) (hne : s.dirsClusters ≠ 0)
    (hrun : readBlock v disk stack upcaseTable dest fuel s path = some s') :
    ∃ call, s'.calls = s.calls ++ [call] ∧ FirstOrRoom v s' ∧ (call.Bounded v →
      CallEnds v disk upcaseTable s.mem (blockCall dest path s.dirsClusters)) := by
  obtain ⟨⟨n, r⟩, hhelper, rfl⟩ := Option.map_eq_some_iff.mp hrun
  rw [readFileExfatHelper] at hhelper
  obtain ⟨found, hfound, hload⟩ := Option.bind_eq_some_iff.mp hhelper
  refine ⟨_, rfl, ?_⟩
  simp only [CallEnds, hfound]
  cases found with
  | none =>
      obtain ⟨rfl, rfl⟩ := Prod.mk.inj (Option.some.inj hload)
      exact ⟨Or.inl (Nat.zero_le 1), fun _ => trivial⟩
  | some e =>
      obtain ⟨r', hr', hpair⟩ := Option.map_eq_some_iff.mp hload
      obtain ⟨rfl, rfl⟩ := Prod.mk.inj hpair
      have hid := idPerCluster_pos hroom hfound hne
      exact ⟨Or.inr hid, fun hbounded => fileEnds_of_loadFile hid hr' (hbounded e rfl).1⟩

end Walk

/-! ### The loop over the path -/

/-- The blocks of a path, each given by the path from its first character on; `inside` says
that the path starts in the middle of a block. -/
def blocks (inside : Bool) : List Int8 → List (List Int8)
  | [] => []
  | c :: rest =>
      if c = 0 then []
      else if c = 47 then blocks false rest
      else if inside then blocks true rest
      else (c :: rest) :: blocks true rest

theorem blocks_inside (path : List Int8) :
    blocks true path = blocks false (path.drop (pathLength path)) := by
  induction path with
  | nil => rfl
  | cons c rest ih =>
      by_cases h0 : c = 0
      · rw [pathLength, if_pos (Or.inr h0), List.drop_zero, blocks, blocks, if_pos h0, if_pos h0]
      by_cases h47 : c = 47
      · rw [pathLength, if_pos (Or.inl h47), List.drop_zero, blocks, blocks, if_neg h0, if_neg h0,
          if_pos h47, if_pos h47]
      · rw [pathLength, if_neg (not_or.mpr ⟨h47, h0⟩), blocks, if_neg h0, if_neg h47, if_pos rfl,
          ih]
        rfl

section Walk

variable {disk : Mem} {stack : ℕ → Mem} {upcaseTable : ℕ → ℕ} {dest : ℕ}

/-- One block; nothing is read any more after a call that announced nothing. -/
def blockStep (v : Volume) (disk : Mem) (stack : ℕ → Mem) (upcaseTable : ℕ → ℕ) (dest fuel : ℕ)
    (s : WalkState) (path : List Int8) : Option WalkState :=
  if s.dirsClusters = 0 then some s else readBlock v disk stack upcaseTable dest fuel s path

theorem exec_blockStep_zero {s : WalkState} (h : s.dirsClusters = 0) (fuel : ℕ)
    (paths : List (List Int8)) :
    exec (blockStep v disk stack upcaseTable dest fuel) s paths = some s := by
  induction paths with
  | nil => rfl
  | cons path paths ih =>
      have hstep : blockStep v disk stack upcaseTable dest fuel s path = some s := if_pos h
      rw [exec_cons hstep, ih]

/-- One round of the loop at the start of a block. -/
theorem pathBody_block {fuel : ℕ} {c : Int8} {rest : List Int8} {s : WalkState} (h0 : c ≠ 0)
    (h47 : c ≠ 47) : pathBody v disk stack upcaseTable dest fuel (c :: rest, s) =
      (readBlock v disk stack upcaseTable dest fuel s (c :: rest)).elim (Sum.inr none) fun s' =>
        if s'.dirsClusters = 0 then Sum.inr (some (0, s'))
        else Sum.inl ((c :: rest).drop (pathLength (c :: rest)), s') := by
  change (if c = 0 then _ else if c = 47 then _ else _) = _
  refine (if_neg h0).trans ((if_neg h47).trans ?_)
  cases readBlock v disk stack upcaseTable dest fuel s (c :: rest) <;> rfl

/-- **The loop over the path** goes through its blocks. -/
theorem pathLoop_eq_exec {fuel rounds : ℕ} {path : List Int8} {s : WalkState}
    (hne : s.dirsClusters ≠ 0) (hrounds : path.length < rounds) :
    Loop.iter (pathBody v disk stack upcaseTable dest fuel) rounds (path, s) =
      some ((exec (blockStep v disk stack upcaseTable dest fuel) s (blocks false path)).map fun t =>
        (if t.dirsClusters = 0 then 0
          else wrap32 (t.dirsClusters * v.getClusterSize 1 * v.driveBytesPerSector), t)) := by
  induction rounds generalizing path s with
  | zero => exact absurd hrounds (Nat.not_lt_zero _)
  | succ rounds ih =>
      have hend : ∀ path : List Int8, path.headD 0 = 0 →
          pathBody v disk stack upcaseTable dest fuel (path, s) = Sum.inr (some
            (wrap32 (s.dirsClusters * v.getClusterSize 1 * v.driveBytesPerSector), s)) :=
        fun path h => if_pos h
      cases path with
      | nil =>
          rw [Loop.iter_succ_of_inr (hend [] rfl), blocks, exec_nil, Option.map_some, if_neg hne]
      | cons c rest =>
          rw [List.length_cons] at hrounds
          by_cases h0 : c = 0
          · rw [Loop.iter_succ_of_inr (hend (c :: rest) h0), blocks, if_pos h0, exec_nil,
              Option.map_some, if_neg hne]
          by_cases h47 : c = 47
          · have hbody : pathBody v disk stack upcaseTable dest fuel (c :: rest, s)
                = Sum.inl (rest, s) := by
              change (if c = 0 then _ else if c = 47 then _ else _) = _
              rw [if_neg h0, if_pos h47]
              rfl
            rw [Loop.iter_succ_of_inl hbody, blocks, if_neg h0, if_pos h47]
            exact ih hne (by omega)
          · have hbody := @pathBody_block v disk stack upcaseTable dest fuel c rest s h0 h47
            have hlen : pathLength (c :: rest) = pathLength rest + 1 :=
              if_neg (not_or.mpr ⟨h47, h0⟩)
            have hstep : blockStep v disk stack upcaseTable dest fuel s (c :: rest)
                = readBlock v disk stack upcaseTable dest fuel s (c :: rest) := if_neg hne
            rw [blocks, if_neg h0, if_neg h47, if_neg Bool.false_ne_true, blocks_inside]
            cases hread : readBlock v disk stack upcaseTable dest fuel s (c :: rest) with
            | none =>
                rw [hread, Option.elim_none] at hbody
                rw [Loop.iter_succ_of_inr hbody, exec, hstep, hread]
                rfl
            | some s' =>
                rw [hread, Option.elim_some] at hbody
                rw [exec_cons (hstep.trans hread)]
                by_cases hzero : s'.dirsClusters = 0
                · rw [if_pos hzero] at hbody
                  rw [Loop.iter_succ_of_inr hbody, exec_blockStep_zero hzero, Option.map_some,
                    if_pos hzero]
                · rw [if_neg hzero, hlen, List.drop_succ_cons] at hbody
                  rw [Loop.iter_succ_of_inl hbody]
                  refine ih hzero ?_
                  rw [List.length_drop]
                  omega

/-! ### Whole paths -/

/-- The call for a block, if there is one, stays within its announcement. -/
def BlockEnds (v : Volume) (disk : Mem) (upcaseTable : ℕ → ℕ) (dest : ℕ) (s : WalkState)
    (path : List Int8) : Prop :=
  s.dirsClusters ≠ 0 → CallEnds v disk upcaseTable s.mem (blockCall dest path s.dirsClusters)

/-- More fuel does not change what is loaded. -/
theorem loadFile_mono {stack m : Mem} {e : Extension} {fuel fuel' : ℕ} {r : FileRead}
    (hle : fuel ≤ fuel') (h : loadFile v disk stack fuel m dest e = some r) :
    loadFile v disk stack fuel' m dest e = some r := by
  simp only [loadFile] at h ⊢
  cases hi : fatIndex v e.firstCluster with
  | none => simp only [hi, reduceCtorEq] at h
  | some i =>
      simp only [hi] at h ⊢
      split
      · rwa [if_pos ‹_›] at h
      · rw [if_neg ‹_›] at h
        rw [Loop.iter_mono hle (Option.join_eq_some_iff.mp h), Option.join_some]

theorem loadFile_unique {stack m : Mem} {e : Extension} {fuel fuel' : ℕ} {r r' : FileRead}
    (h : loadFile v disk stack fuel m dest e = some r)
    (h' : loadFile v disk stack fuel' m dest e = some r') : r = r' :=
  Option.some.inj ((loadFile_mono (Nat.le_max_left fuel fuel') h).symm.trans
    (loadFile_mono (Nat.le_max_right fuel fuel') h'))

/-- Two calls that return have the same result. -/
theorem readBlock_unique {s t t' : WalkState} {path : List Int8} {fuel fuel' : ℕ}
    (h : readBlock v disk stack upcaseTable dest fuel s path = some t)
    (h' : readBlock v disk stack upcaseTable dest fuel' s path = some t') : t = t' := by
  obtain ⟨r, hhelper, rfl⟩ := Option.map_eq_some_iff.mp h
  obtain ⟨r', hhelper', rfl⟩ := Option.map_eq_some_iff.mp h'
  rw [readFileExfatHelper] at hhelper hhelper'
  obtain ⟨found, hfound, hrest⟩ := Option.bind_eq_some_iff.mp hhelper
  obtain ⟨found', hfound', hrest'⟩ := Option.bind_eq_some_iff.mp hhelper'
  obtain rfl := Option.some.inj (hfound.symm.trans hfound')
  cases found with
  | none =>
      obtain rfl := Option.some.inj (hrest.symm.trans hrest')
      rfl
  | some e =>
      obtain ⟨file, hr, rfl⟩ := Option.map_eq_some_iff.mp hrest
      obtain ⟨file', hr', rfl⟩ := Option.map_eq_some_iff.mp hrest'
      obtain rfl := loadFile_unique hr hr'
      rfl

/-- A walk whose calls stayed within their announcements. -/
theorem meets_of_exec {s t : WalkState} {paths : List (List Int8)} {fuel : ℕ}
    (hroom : FirstOrRoom v s)
    (hrun : exec (blockStep v disk stack upcaseTable dest fuel) s paths = some t) :
    s.calls <+: t.calls ∧ ((∀ call ∈ t.calls, call.Bounded v) →
      Meets (blockStep v disk stack upcaseTable dest (2 ^ 32)) (BlockEnds v disk upcaseTable dest)
        s paths) := by
  induction paths generalizing s with
  | nil =>
      obtain rfl := Option.some.inj hrun
      exact ⟨List.prefix_refl _, fun _ => trivial⟩
  | cons path paths ih =>
      obtain ⟨s', hstep, hrest⟩ := exec_cons_inv hrun
      by_cases hzero : s.dirsClusters = 0
      · obtain rfl := Option.some.inj ((if_pos hzero).symm.trans hstep)
        obtain ⟨hpre, hmeets⟩ := ih hroom hrest
        refine ⟨hpre, fun hbounded => ⟨fun hne => absurd hzero hne, fun s'' hs'' => ?_⟩⟩
        obtain rfl := Option.some.inj ((if_pos hzero).symm.trans hs'')
        exact hmeets hbounded
      · have hread : readBlock v disk stack upcaseTable dest fuel s path = some s' :=
          (if_neg hzero).symm.trans hstep
        obtain ⟨call, hcalls, hroom', hcall⟩ := callEnds_of_readBlock hroom hzero hread
        obtain ⟨hpre, hmeets⟩ := ih hroom' hrest
        refine ⟨(hcalls ▸ List.prefix_append _ _).trans hpre, fun hbounded => ⟨fun _ => ?_, ?_⟩⟩
        · refine hcall (hbounded call (hpre.subset ?_))
          rw [hcalls]
          exact List.mem_append_right _ (List.mem_singleton_self call)
        · intro s'' hs''
          have hread' : readBlock v disk stack upcaseTable dest (2 ^ 32) s path = some s'' :=
            (if_neg hzero).symm.trans hs''
          obtain rfl := readBlock_unique hread hread'
          exact hmeets hbounded

end Walk

/-- **Which paths are read within bounds**, for every volume, every content of the drive and
of memory and every path: `read_file_exfat` ends and each call that selects an entry loads
at most the clusters that it announces, exactly when at every call the search does not come
to a name that is too long and the file that it finds, if any, ends within them. -/
theorem readFile_bounded_iff (v : Volume) (rootFirstCluster : ℕ) (disk : Mem) (stack : ℕ → Mem)
    (upcaseTable : ℕ → ℕ) (m : Mem) (path : List Int8) (dest : ℕ) :
    (∃ fuel n s, readFileExfat v rootFirstCluster disk stack upcaseTable fuel m path dest
        = some (n, s) ∧ ∀ call ∈ s.calls, call.Bounded v) ↔
      Meets (blockStep v disk stack upcaseTable dest (2 ^ 32)) (BlockEnds v disk upcaseTable dest)
        ⟨1, biosExtRead v disk m dest (v.getHeapLba rootFirstCluster) (v.getClusterSize 1), []⟩
        (blocks false path) := by
  set start : WalkState :=
    ⟨1, biosExtRead v disk m dest (v.getHeapLba rootFirstCluster) (v.getClusterSize 1), []⟩
  have hread : ∀ fuel, readFileExfat v rootFirstCluster disk stack upcaseTable fuel m path dest =
      (exec (blockStep v disk stack upcaseTable dest fuel) start (blocks false path)).map fun t =>
        (if t.dirsClusters = 0 then 0
          else wrap32 (t.dirsClusters * v.getClusterSize 1 * v.driveBytesPerSector), t) := by
    intro fuel
    have hloop := @pathLoop_eq_exec v disk stack upcaseTable dest fuel (path.length + 1) path start
      Nat.one_ne_zero (Nat.lt_succ_self _)
    simp only [readFileExfat, start] at hloop ⊢
    rw [hloop, Option.join_some]
  have hroom : FirstOrRoom v start := Or.inl (Nat.le_refl 1)
  constructor
  · rintro ⟨fuel, n, s, hrun, hbounded⟩
    rw [hread] at hrun
    obtain ⟨t, ht, hpair⟩ := Option.map_eq_some_iff.mp hrun
    obtain rfl := (Prod.mk.inj hpair).2
    exact (meets_of_exec hroom ht).2 hbounded
  · intro hmeets
    obtain ⟨t, ht, -, hbounded⟩ := exec_total
      (I := fun s => FirstOrRoom v s ∧ ∀ call ∈ s.calls, call.Bounded v) (fun s path hs hends => by
        obtain ⟨hroom, hbounded⟩ := hs
        by_cases hzero : s.dirsClusters = 0
        · exact ⟨s, if_pos hzero, hroom, hbounded⟩
        · obtain ⟨s', call, hs', hcalls, hcall, hroom'⟩ :=
            @readBlock_of_callEnds v disk stack upcaseTable dest _ _ _
            hroom hzero (hends hzero) (Nat.le_refl (2 ^ 32))
          refine ⟨s', (if_neg hzero).trans hs', hroom', fun c hc => ?_⟩
          rw [hcalls] at hc
          rcases List.mem_append.mp hc with hc | hc
          · exact hbounded c hc
          · rw [List.mem_singleton.mp hc]
            exact hcall) ⟨hroom, fun call hc => absurd hc List.not_mem_nil⟩ hmeets
    exact ⟨2 ^ 32, _, t, by rw [hread, ht, Option.map_some], hbounded⟩

/-- A drive whose root directory, in cluster 2, has one file `A` with one byte of data in
cluster 5, and whose FAT links cluster 5 to itself. -/
def selfLinkDisk : Mem := fun a =>
  if a = 143380 then 5
  else if a = 196608 then 0x85
  else if a = 196609 then 2
  else if a = 196643 then 1
  else if a = 196660 then 5
  else if a = 196664 then 1
  else if a = 196674 then 65
  else 0

/-- A file whose entries lead on forever is never loaded. -/
theorem loadFile_eq_none {disk : Mem} {e : Extension} (hid : 0 < v.idPerCluster)
    (hne : fatNext v disk e.firstCluster ≠ some 0)
    (hnever : ∀ n, ¬ chainEnds v disk n e.firstCluster) (stack m : Mem) (dest fuel : ℕ) :
    loadFile v disk stack fuel m dest e = none := by
  rw [loadFile_eq hid, Option.bind_eq_none_iff]
  intro d hnext
  have hzero : d ≠ 0 := fun h0 => hne (h0 ▸ hnext)
  rw [if_neg hzero]
  refine Option.eq_none_iff_forall_ne_some.mpr fun r hr => ?_
  exact hnever r.loaded.length (chainEnds_of_linkLoop hid
    (holdsEntry_start hid disk stack m e.firstCluster) (Option.join_eq_some_iff.mp hr)
    (Nat.le_add_left _ _))

/-- **A cluster linked to itself**: reading the file never ends. -/
theorem readFile_selfLink : ¬ ∃ fuel n s, readFileExfat (smallVolume 0) 2 selfLinkDisk
    (fun _ _ => 0) (fun x => x) fuel (fun _ => 0) [65] 0x100000 = some (n, s) := by
  rintro ⟨fuel, n, s, hrun⟩
  have hfound : findFile (smallVolume 0) (fun x => x) (biosExtRead (smallVolume 0) selfLinkDisk
      (fun _ => 0) 0x100000 ((smallVolume 0).getHeapLba 2) ((smallVolume 0).getClusterSize 1))
      (blockCall 0x100000 [65] 1) = some (some ⟨5, 1⟩) := by decide +kernel
  have hnext : fatNext (smallVolume 0) selfLinkDisk 5 = some 5 := by decide +kernel
  have hnever : ∀ n, ¬ chainEnds (smallVolume 0) selfLinkDisk n 5 := by
    intro n
    induction n with
    | zero => exact id
    | succ n ih =>
        rintro ⟨d, hd, hends⟩
        obtain rfl := Option.some.inj (hnext.symm.trans hd)
        exact hends.elim (by decide) ih
  -- the loop over the path comes to the call for the only block
  have hiter := Option.join_eq_some_iff.mp hrun
  rw [pathLoop_eq_exec Nat.one_ne_zero (Nat.lt_succ_self _)] at hiter
  obtain ⟨t, ht, -⟩ := Option.map_eq_some_iff.mp (Option.some.inj hiter)
  obtain ⟨s', hstep, -⟩ := exec_cons_inv ht
  rw [blockStep, if_neg Nat.one_ne_zero, readBlock] at hstep
  obtain ⟨r, hhelper, -⟩ := Option.map_eq_some_iff.mp hstep
  rw [readFileExfatHelper] at hhelper
  obtain ⟨found, hfound', hload⟩ := Option.bind_eq_some_iff.mp hhelper
  obtain rfl := Option.some.inj (hfound.symm.trans hfound')
  obtain ⟨file, hfile, -⟩ := Option.map_eq_some_iff.mp hload
  rw [loadFile_eq_none (by decide) (by rw [hnext]; decide) hnever] at hfile
  cases hfile

end LoofOS
