import LoofOS.PathWalk
import Mathlib.Data.List.Induction

/-!
# The Components of a Path

What `read_file_exfat` does with a path, in terms of its components: the pieces between
slashes that are not empty (`components`). It calls `_read_file_exfat_helper` on one after
the other (`walkComponents`); each call is given the number of clusters that the call before
it announced and searches what that call left in the destination. Everything about slashes
follows from what they do to the components.

## Main results

* `pieces_blocks`: the loops over the characters find the components.
* `readFileExfat_eq_walk`: the loop over the path is the walk over its components.
* `walksPath`: this and its consequences, for every volume and every path.
-/

namespace LoofOS

open Run

/-! ### Components -/

/-- The components of a path: what is between slashes, up to the NUL, and not empty. -/
def components (path : List Int8) : List (List Int8) :=
  ((path.takeWhile (· ≠ 0)).splitOn 47).filter (· ≠ [])

/-- The part of a path that belongs to the block at its start. -/
def piece (path : List Int8) : List Int8 := path.take (pathLength path)

/-- The pieces between slashes, from the block at the start of the path on. -/
theorem pieces_blocks (path : List Int8) :
    (blocks false path).map piece = components path ∧
      ∃ tail, (path.takeWhile (· ≠ 0)).splitOn 47 = piece path :: tail ∧
        (blocks true path).map piece = tail.filter (· ≠ []) := by
  induction path with
  | nil => exact ⟨rfl, [], rfl, rfl⟩
  | cons c rest ih =>
      obtain ⟨hcomponents, tail, hsplit, htail⟩ := ih
      by_cases h0 : c = 0
      · subst h0
        exact ⟨rfl, [], rfl, rfl⟩
      have hwhile : (c :: rest).takeWhile (· ≠ 0) = c :: rest.takeWhile (· ≠ 0) :=
        List.takeWhile_cons_of_pos (by simpa using h0)
      by_cases h47 : c = 47
      · subst h47
        have hsplit' : ((47 :: rest).takeWhile (· ≠ 0)).splitOn 47
            = [] :: (rest.takeWhile (· ≠ 0)).splitOn 47 := by
          rw [hwhile, List.splitOn_cons_eq_if_modifyHead, if_pos (beq_self_eq_true 47)]
        refine ⟨?_, _, hsplit', hcomponents⟩
        rw [components, hsplit', List.filter_cons_of_neg (by simp)]
        exact hcomponents
      · have hpiece : piece (c :: rest) = c :: piece rest := by
          rw [piece, pathLength, if_neg (not_or.mpr ⟨h47, h0⟩), List.take_succ_cons, piece]
        have hsplit' : ((c :: rest).takeWhile (· ≠ 0)).splitOn 47 = piece (c :: rest) :: tail := by
          rw [hwhile, List.splitOn_cons_eq_if_modifyHead, if_neg (by simpa using h47), hsplit,
            hpiece, List.modifyHead_cons]
        have htrue : blocks true (c :: rest) = blocks true rest := by
          rw [blocks, if_neg h0, if_neg h47, if_pos rfl]
        have hfalse : blocks false (c :: rest) = (c :: rest) :: blocks true rest := by
          rw [blocks, if_neg h0, if_neg h47, if_neg Bool.false_ne_true]
        refine ⟨?_, tail, hsplit', htrue ▸ htail⟩
        rw [hfalse, List.map_cons, htail, components, hsplit', List.filter_cons_of_pos]
        rw [hpiece]
        exact decide_eq_true (List.cons_ne_nil c _)

/-- A slash separates components. -/
theorem components_append {a : List Int8} (h : ∀ c ∈ a, c ≠ 0) (b : List Int8) :
    components (a ++ 47 :: b) = components a ++ components b := by
  have hwhile : ∀ rest, (a ++ rest).takeWhile (· ≠ 0) = a ++ rest.takeWhile (· ≠ 0) := fun _ =>
    List.takeWhile_append_of_pos (by simpa using h)
  have hself := hwhile []
  rw [List.append_nil, List.takeWhile_nil, List.append_nil] at hself
  rw [components, hwhile, List.takeWhile_cons_of_pos (by simp), List.splitOn_append_cons_self,
    List.filter_append, components, components, hself]

/-- What follows a NUL does not belong to the path. -/
theorem components_append_of_mem {a : List Int8} (h : 0 ∈ a) (b : List Int8) :
    components (a ++ b) = components a := by
  have hwhile : (a ++ b).takeWhile (· ≠ 0) = a.takeWhile (· ≠ 0) := by
    induction a with
    | nil => exact absurd h List.not_mem_nil
    | cons c a ih =>
        by_cases h0 : c = 0
        · subst h0
          rfl
        · rw [List.cons_append, List.takeWhile_cons_of_pos (by simpa using h0),
            List.takeWhile_cons_of_pos (by simpa using h0),
            ih ((List.mem_cons.mp h).resolve_left (Ne.symm h0))]
  rw [components, components, hwhile]

theorem components_nil : components [] = [] := rfl

/-- A slash in front changes nothing. -/
theorem components_slash_cons (a : List Int8) : components (47 :: a) = components a :=
  @components_append [] (fun _ hc => absurd hc List.not_mem_nil) a

/-- Nor does one more slash after a slash. -/
theorem components_slash_slash (a b : List Int8) :
    components (a ++ 47 :: 47 :: b) = components (a ++ 47 :: b) := by
  by_cases h : 0 ∈ a
  · rw [components_append_of_mem h, components_append_of_mem h]
  · have hne : ∀ c ∈ a, c ≠ 0 := fun c hc h0 => h (h0 ▸ hc)
    rw [components_append hne, components_append hne, components_slash_cons]

/-- Nor does one at the end. -/
theorem components_concat_slash (a : List Int8) : components (a ++ [47]) = components a := by
  by_cases h : 0 ∈ a
  · exact components_append_of_mem h _
  · rw [components_append fun c hc h0 => h (h0 ▸ hc), components_nil, List.append_nil]

/-! ### The walk -/

/-- The arguments that are passed for a component, with its exact length. -/
def componentCall (dest : ℕ) (component : List Int8) (dirsClusters : ℕ) : FileCall where
  name := fun k => component.getD k 0
  nameLen := component.length
  dirBuffer := dest
  clusters := dirsClusters
  destBuffer := dest

section Walk

variable (v : Volume) (disk : Mem) (stack : ℕ → Mem) (upcaseTable : ℕ → ℕ) (dest fuel : ℕ)

/-- The call for one component, and what it leaves. -/
def readComponent (s : WalkState) (component : List Int8) : Option WalkState :=
  let call := componentCall dest component s.dirsClusters
  (readFileExfatHelper v disk (stack s.calls.length) upcaseTable fuel s.mem call).map fun r =>
    { dirsClusters := r.1
      mem := r.2.mem
      calls := s.calls ++ [⟨(findFile v upcaseTable s.mem call).join, r.2.loaded, r.1⟩] }

/-- The calls for all components, in order, up to the first that returns 0. -/
def walkComponents : WalkState → List (List Int8) → Option (ℕ × WalkState)
  | s, [] => some (s.dirsClusters * v.clusterBytes, s)
  | s, component :: rest =>
      (readComponent v disk stack upcaseTable dest fuel s component).bind fun s' =>
        if s'.dirsClusters = 0 then some (0, s') else walkComponents s' rest

/-- The state in which the walk starts: one cluster of the root directory. -/
def rootState (rootFirstCluster : ℕ) (m : Mem) : WalkState where
  dirsClusters := 1
  mem := biosExtRead v disk m dest (v.getHeapLba rootFirstCluster) (v.getClusterSize 1)
  calls := []

theorem rootState_bytes (rootFirstCluster : ℕ) (m : Mem) :
    (rootState v disk dest rootFirstCluster m).dirsClusters * v.clusterBytes < 2 ^ 32 := by
  change 1 * v.clusterBytes < 2 ^ 32
  rw [Nat.one_mul]
  exact Nat.mod_lt _ (Nat.two_pow_pos 32)

end Walk

section Calls

variable {v : Volume} {disk : Mem} {stack : ℕ → Mem} {upcaseTable : ℕ → ℕ} {dest fuel : ℕ}

/-- The search looks at as many characters of the name as its length says. -/
theorem findFile_congr {m : Mem} {call call' : FileCall} (hlen : call.nameLen = call'.nameLen)
    (hdir : call.dirBuffer = call'.dirBuffer) (hclusters : call.clusters = call'.clusters)
    (hname : ∀ k < call.nameLen, call.name k = call'.name k) :
    findFile v upcaseTable m call = findFile v upcaseTable m call' := by
  have hcount : entryCount v call = entryCount v call' := by rw [entryCount, entryCount, hclusters]
  have hentry : dirEntry call = dirEntry call' := by
    funext i
    rw [dirEntry, dirEntry, hdir]
  have hcopy : copyName m call = copyName m call' := by
    funext i count filename k
    simp only [copyName, hentry]
  have hequal : nameEqual call = nameEqual call' := by
    funext filename
    simp only [nameEqual, ← hlen]
    rw [Bool.eq_iff_iff, List.all_eq_true, List.all_eq_true]
    refine forall₂_congr fun k hk => ?_
    rw [hname k (List.mem_range.mp hk)]
  have hbody : searchEntry v upcaseTable m call = searchEntry v upcaseTable m call' := by
    funext s
    simp only [searchEntry, hcount, hentry, hcopy, hequal, hlen]
  rw [findFile, findFile, hbody, hcount]

/-- The call for a block is the call for its piece. -/
theorem readBlock_eq_readComponent (s : WalkState) (path : List Int8) :
    readBlock v disk stack upcaseTable dest fuel s path
      = readComponent v disk stack upcaseTable dest fuel s (piece path) := by
  have hle : pathLength path ≤ path.length := by
    induction path with
    | nil => exact le_refl 0
    | cons c rest ih =>
        rw [pathLength]
        split
        · exact Nat.zero_le _
        · exact Nat.succ_le_succ ih
  have hlen : (piece path).length = pathLength path := List.length_take_of_le hle
  have hfind : findFile v upcaseTable s.mem (blockCall dest path s.dirsClusters)
      = findFile v upcaseTable s.mem (componentCall dest (piece path) s.dirsClusters) := by
    refine findFile_congr hlen.symm rfl rfl fun k hk => ?_
    have hlt : k < pathLength path := hk
    change path.getD k 0 = (path.take (pathLength path)).getD k 0
    rw [List.getD_eq_getElem?_getD, List.getD_eq_getElem?_getD, List.getElem?_take_of_lt hlt]
  have hhelper : ∀ (stack : Mem), readFileExfatHelper v disk stack upcaseTable fuel s.mem
      (blockCall dest path s.dirsClusters) = readFileExfatHelper v disk stack upcaseTable fuel s.mem
        (componentCall dest (piece path) s.dirsClusters) := by
    intro stack
    rw [readFileExfatHelper, readFileExfatHelper, hfind]
    rfl
  rw [readBlock, readComponent]
  simp only [hhelper, hfind]

/-- What a call announces is a number of clusters with at most `2 ^ 32` bytes. -/
theorem readComponent_bytes {s s' : WalkState} {component : List Int8}
    (h : readComponent v disk stack upcaseTable dest fuel s component = some s') :
    s'.dirsClusters * v.clusterBytes < 2 ^ 32 := by
  obtain ⟨⟨n, r⟩, hhelper, rfl⟩ := Option.map_eq_some_iff.mp h
  obtain ⟨found, -, hload⟩ := Option.bind_eq_some_iff.mp hhelper
  cases found with
  | none =>
      obtain ⟨rfl, -⟩ := Prod.mk.inj (Option.some.inj hload)
      rw [Nat.zero_mul]
      exact Nat.two_pow_pos 32
  | some e =>
      obtain ⟨r', -, hpair⟩ := Option.map_eq_some_iff.mp hload
      obtain ⟨rfl, -⟩ := Prod.mk.inj hpair
      exact (Nat.div_mul_le_self _ _).trans_lt (Nat.mod_lt _ (Nat.two_pow_pos 32))

/-- More fuel does not change what a call leaves. -/
theorem readComponent_mono {s s' : WalkState} {component : List Int8} {fuel' : ℕ}
    (hle : fuel ≤ fuel')
    (h : readComponent v disk stack upcaseTable dest fuel s component = some s') :
    readComponent v disk stack upcaseTable dest fuel' s component = some s' := by
  obtain ⟨r, hhelper, rfl⟩ := Option.map_eq_some_iff.mp h
  obtain ⟨found, hfound, hrest⟩ := Option.bind_eq_some_iff.mp hhelper
  have hhelper' : readFileExfatHelper v disk (stack s.calls.length) upcaseTable fuel' s.mem
      (componentCall dest component s.dirsClusters) = some r := by
    rw [readFileExfatHelper, hfound, Option.bind_some]
    cases found with
    | none => exact hrest
    | some e =>
        obtain ⟨file, hfile, rfl⟩ := Option.map_eq_some_iff.mp hrest
        exact Option.map_eq_some_iff.mpr ⟨file, loadFile_mono hle hfile, rfl⟩
  rw [readComponent, hhelper', Option.map_some]

/-- A walk in two parts. -/
theorem walkComponents_append {s : WalkState} (hne : s.dirsClusters ≠ 0)
    (xs ys : List (List Int8)) :
    walkComponents v disk stack upcaseTable dest fuel s (xs ++ ys) =
      (walkComponents v disk stack upcaseTable dest fuel s xs).bind fun r =>
        if r.2.dirsClusters = 0 then some (0, r.2)
        else walkComponents v disk stack upcaseTable dest fuel r.2 ys := by
  induction xs generalizing s with
  | nil => rw [List.nil_append, walkComponents, Option.bind_some, if_neg hne]
  | cons x xs ih =>
      rw [List.cons_append, walkComponents, walkComponents, Option.bind_assoc]
      refine congrArg _ (funext fun s' => ?_)
      by_cases hzero : s'.dirsClusters = 0
      · rw [if_pos hzero, if_pos hzero, Option.bind_some, if_pos hzero]
      · rw [if_neg hzero, if_neg hzero, ih hzero]

theorem walkComponents_mono {fuel' : ℕ} (hle : fuel ≤ fuel') {s : WalkState}
    {xs : List (List Int8)} {r : ℕ × WalkState}
    (h : walkComponents v disk stack upcaseTable dest fuel s xs = some r) :
    walkComponents v disk stack upcaseTable dest fuel' s xs = some r := by
  induction xs generalizing s with
  | nil => exact h
  | cons x xs ih =>
      obtain ⟨s', hread, hrest⟩ := Option.bind_eq_some_iff.mp h
      rw [walkComponents, readComponent_mono hle hread, Option.bind_some]
      split
      · rwa [if_pos ‹_›] at hrest
      · rw [if_neg ‹_›] at hrest
        exact ih hrest

/-- The walk over the blocks of a path is the walk over their pieces. -/
theorem walkComponents_pieces {s : WalkState} (hne : s.dirsClusters ≠ 0)
    (paths : List (List Int8)) :
    walkComponents v disk stack upcaseTable dest fuel s (paths.map piece) =
      (exec (blockStep v disk stack upcaseTable dest fuel) s paths).map fun t =>
        (t.dirsClusters * v.clusterBytes, t) := by
  induction paths generalizing s with
  | nil => rfl
  | cons path paths ih =>
      have hstep : blockStep v disk stack upcaseTable dest fuel s path
          = readComponent v disk stack upcaseTable dest fuel s (piece path) :=
        (if_neg hne).trans (readBlock_eq_readComponent s path)
      rw [List.map_cons, walkComponents, exec, hstep, Option.map_bind]
      refine congrArg _ (funext fun s' => ?_)
      by_cases hzero : s'.dirsClusters = 0
      · rw [if_pos hzero, Function.comp_apply, exec_blockStep_zero hzero, Option.map_some, hzero,
          Nat.zero_mul]
      · rw [if_neg hzero, ih hzero, Function.comp_apply]

/-- **The loop over the path** is the walk over its components. -/
theorem pathLoop_eq_walk {rounds : ℕ} {path : List Int8} {s : WalkState}
    (hne : s.dirsClusters ≠ 0) (hbytes : s.dirsClusters * v.clusterBytes < 2 ^ 32)
    (hrounds : path.length < rounds) :
    (Loop.iter (pathBody v disk stack upcaseTable dest fuel) rounds (path, s)).join
      = walkComponents v disk stack upcaseTable dest fuel s (components path) := by
  rw [pathLoop_eq_exec hne hrounds, Option.join_some, ← (pieces_blocks path).1,
    walkComponents_pieces hne]
  refine Option.map_congr fun t ht => ?_
  have hbound : t.dirsClusters * v.clusterBytes < 2 ^ 32 := by
    refine exec_invariant (I := fun s => s.dirsClusters * v.clusterBytes < 2 ^ 32) ?_ hbytes ht
    intro s path s' hs hstep
    by_cases hzero : s.dirsClusters = 0
    · obtain rfl := Option.some.inj ((if_pos hzero).symm.trans hstep)
      exact hs
    · have hread := (readBlock_eq_readComponent s path).symm.trans
        ((if_neg hzero).symm.trans hstep)
      exact readComponent_bytes hread
  rw [Nat.mul_assoc, ← clusterBytes_eq_mul, wrap32_of_lt hbound]
  split
  · rw [‹t.dirsClusters = 0›, Nat.zero_mul]
  · rfl

/-- The clusters that a walk has come to have at most `2 ^ 32` bytes. -/
theorem walkComponents_bytes {s : WalkState} {xs : List (List Int8)} {r : ℕ × WalkState}
    (hs : s.dirsClusters * v.clusterBytes < 2 ^ 32)
    (h : walkComponents v disk stack upcaseTable dest fuel s xs = some r) :
    r.2.dirsClusters * v.clusterBytes < 2 ^ 32 := by
  induction xs generalizing s with
  | nil =>
      obtain rfl := Option.some.inj h
      exact hs
  | cons x xs ih =>
      obtain ⟨s', hread, hrest⟩ := Option.bind_eq_some_iff.mp h
      split at hrest
      · obtain rfl := Option.some.inj hrest
        exact readComponent_bytes hread
      · exact ih (readComponent_bytes hread) hrest

/-- **Reading a path** is the walk over its components. -/
theorem readFileExfat_eq_walk (v : Volume) (rootFirstCluster : ℕ) (disk : Mem) (stack : ℕ → Mem)
    (upcaseTable : ℕ → ℕ) (fuel : ℕ) (m : Mem) (path : List Int8) (dest : ℕ) :
    readFileExfat v rootFirstCluster disk stack upcaseTable fuel m path dest =
      walkComponents v disk stack upcaseTable dest fuel (rootState v disk dest rootFirstCluster m)
        (components path) := by
  exact pathLoop_eq_walk Nat.one_ne_zero (rootState_bytes v disk dest rootFirstCluster m)
    (Nat.lt_succ_self _)

/-- A walk ends when each of its calls does. -/
theorem walkComponents_isSome {s : WalkState} (hne : s.dirsClusters ≠ 0) {xs : List (List Int8)}
    (hcall : ∀ before component after, xs = before ++ component :: after →
      ∀ fuel n t, walkComponents v disk stack upcaseTable dest fuel s before = some (n, t) →
        t.dirsClusters ≠ 0 →
        ∃ fuel', (readComponent v disk stack upcaseTable dest fuel' t component).isSome) :
    ∃ fuel, (walkComponents v disk stack upcaseTable dest fuel s xs).isSome := by
  induction xs using List.reverseRecOn with
  | nil => exact ⟨0, rfl⟩
  | append_singleton xs x ih =>
      obtain ⟨fuel, hxs⟩ := ih fun before component after heq =>
        hcall before component (after ++ [x]) (by rw [heq, List.append_assoc, List.cons_append])
      obtain ⟨⟨n, t⟩, ht⟩ := Option.isSome_iff_exists.mp hxs
      by_cases hzero : t.dirsClusters = 0
      · refine ⟨fuel, ?_⟩
        rw [walkComponents_append hne, ht, Option.bind_some, if_pos hzero]
        rfl
      · obtain ⟨fuel', hx⟩ := hcall xs x [] rfl fuel n t ht hzero
        obtain ⟨t', ht'⟩ := Option.isSome_iff_exists.mp hx
        refine ⟨max fuel fuel', ?_⟩
        rw [walkComponents_append hne, walkComponents_mono (Nat.le_max_left _ _) ht,
          Option.bind_some, if_neg hzero, walkComponents,
          readComponent_mono (Nat.le_max_right _ _) ht', Option.bind_some]
        split
        · rfl
        · rfl

end Calls

/-- What `read_file_exfat` does with paths, on a given volume and with given contents of the
drive and of memory: which calls it makes and what it returns (`calls`), that it returns when
each call that it makes does, that slashes in front, at the end and after slashes change
nothing, and that a path is read on from where a part of it has led to. -/
structure WalksPath (v : Volume) (rootFirstCluster : ℕ) (disk : Mem) (stack : ℕ → Mem)
    (upcaseTable : ℕ → ℕ) (m : Mem) (dest : ℕ) : Prop where
  calls : ∀ fuel path, readFileExfat v rootFirstCluster disk stack upcaseTable fuel m path dest =
    walkComponents v disk stack upcaseTable dest fuel (rootState v disk dest rootFirstCluster m)
      (components path)
  returns : ∀ path, (∀ before component after, components path = before ++ component :: after →
    ∀ fuel n s, walkComponents v disk stack upcaseTable dest fuel
        (rootState v disk dest rootFirstCluster m) before = some (n, s) → s.dirsClusters ≠ 0 →
      ∃ fuel', (readFileExfatHelper v disk (stack s.calls.length) upcaseTable fuel' s.mem
        (componentCall dest component s.dirsClusters)).isSome) →
    ∃ fuel, (readFileExfat v rootFirstCluster disk stack upcaseTable fuel m path dest).isSome
  leading : ∀ fuel path,
    readFileExfat v rootFirstCluster disk stack upcaseTable fuel m (47 :: path) dest =
      readFileExfat v rootFirstCluster disk stack upcaseTable fuel m path dest
  trailing : ∀ fuel path,
    readFileExfat v rootFirstCluster disk stack upcaseTable fuel m (path ++ [47]) dest =
      readFileExfat v rootFirstCluster disk stack upcaseTable fuel m path dest
  repeated : ∀ fuel a b,
    readFileExfat v rootFirstCluster disk stack upcaseTable fuel m (a ++ 47 :: 47 :: b) dest =
      readFileExfat v rootFirstCluster disk stack upcaseTable fuel m (a ++ 47 :: b) dest
  continues : ∀ fuel a b, (∀ c ∈ a, c ≠ 0) →
    readFileExfat v rootFirstCluster disk stack upcaseTable fuel m (a ++ 47 :: b) dest =
      (readFileExfat v rootFirstCluster disk stack upcaseTable fuel m a dest).bind fun r =>
        if r.2.dirsClusters = 0 then some (0, r.2)
        else (Loop.iter (pathBody v disk stack upcaseTable dest fuel) (b.length + 1) (b, r.2)).join

end LoofOS
