import DynamicExtension.Conservation
set_option autoImplicit false

namespace De
variable {R : Type} [DecidableEq R] {T : ShardType R}

namespace ExtensionStructure
variable {s : ExtensionStructure T .bsm}

theorem gatherDown_task (b : Nat) (task : ReconstructionTask) (n : Nat) (state : List LevelState)
    (h : task.reccnt = none) :
    (gatherDown 0 b (task, n, state)).1 =
      ⟨task.sources ++ (List.range b).reverse, task.target, none⟩ := by
  induction b generalizing task n state with
  | zero =>
    obtain ⟨sources, target, reccnt⟩ := task
    obtain rfl : reccnt = none := h
    simp [gatherDown]
  | succ b ih =>
    rw [gatherDown, if_pos (Nat.succ_pos b), ih _ _ _ (by simp [ReconstructionTask.addSource, h])]
    simp [ReconstructionTask.addSource, List.range_succ]

/-- The record counts of the state vector are those of the levels. -/
def Counted (s : ExtensionStructure T .bsm) : Prop :=
  ∀ i : Nat, s.currentState[i]?.map LevelState.reccnt =
    s.levels[i]?.map InternalLevel.getRecordCount

/-- What `f` reads in the entries of the state vector is what `g` reads in the levels. -/
def Mirrors {α : Type} (f : LevelState → α) (g : InternalLevel T → α)
    (s : ExtensionStructure T .bsm) : Prop :=
  ∀ i : Nat, s.currentState[i]?.map f = s.levels[i]?.map g

/-- `f` and `g` agree on the entries that the BSM code writes. -/
structure Projects {α : Type} (f : LevelState → α) (g : InternalLevel T → α) : Prop where
  empty : ∀ cap n c m, f ⟨0, cap, 0, c⟩ = g (.new T n m)
  merged : ∀ cap n x, f ⟨(InternalLevel.ofSlots T n [x] 0 none).getRecordCount, cap, 1, 1⟩ =
    g (.ofSlots T n [x] 0 none)
  flushed : ∀ (st : LevelState) (l : InternalLevel T),
    f { st with reccnt := l.getRecordCount, shardcnt := l.getShardCount } = g l
  clone : ∀ l, g l.clone = g l

theorem projects_reccnt : Projects (T := T) LevelState.reccnt InternalLevel.getRecordCount where
  empty _ _ _ _ := by simp [InternalLevel.getRecordCount_eq]
  merged _ _ _ := rfl
  flushed _ _ := rfl
  clone l := by simp [InternalLevel.getRecordCount_eq]

theorem projects_counts : Projects (T := T) (fun st => (st.reccnt, st.shardcnt))
    (fun l => (l.getRecordCount, l.getShardCount)) where
  empty _ _ _ _ := by
    simp [InternalLevel.getRecordCount_eq, InternalLevel.getShardCount, ← InternalLevel.length_live]
  merged _ _ _ := rfl
  flushed _ _ := rfl
  clone l := by
    simp [InternalLevel.getRecordCount_eq, InternalLevel.getShardCount, ← InternalLevel.length_live]

/-- What holds of every structure of a run under BSM whose shards all found a slot -/
structure SoundBSM (s : ExtensionStructure T .bsm) : Prop where
  counts : s.Counted
  noPending : ∀ i, (s.levelAt i).pendingShard = none

theorem Mirrors.length {α : Type} {f : LevelState → α} {g : InternalLevel T → α}
    (hs : Mirrors f g s) : s.currentState.length = s.levels.length := by
  have hmap : s.currentState.map f = s.levels.map g := by
    apply List.ext_getElem?
    intro i
    rw [List.getElem?_map, List.getElem?_map, hs]
  simpa using congrArg List.length hmap

theorem length_counts (hs : s.Counted) : s.currentState.length = s.levels.length :=
  Mirrors.length (f := LevelState.reccnt) (g := InternalLevel.getRecordCount) hs

theorem canReconstructWith_bsm (hs : s.Counted) (i n : Nat) :
    canReconstructWith .bsm i n s.currentState = true ↔
      i < s.levels.length ∧ (s.levelAt i).getRecordCount = 0 := by
  have hcount := hs i
  by_cases hi : i < s.levels.length
  · rw [levels_getElem? hi] at hcount
    obtain ⟨st, hst, hreccnt⟩ := Option.map_eq_some_iff.mp hcount
    simp [canReconstructWith, hst, hi, hreccnt]
  · have hst : s.currentState[i]? = none := by
      rw [List.getElem?_eq_none]
      rw [length_counts hs]
      omega
    simp [canReconstructWith, hst, hi]

/-- Under BSM the planner merges level 0 and those below it into a level without
records, unless level 0 has none itself. -/
theorem planTarget_bsm (hs : s.Counted) (hwm : Nat) :
    s.planTarget hwm ≤ s.levels.length ∧ (s.levelAt (s.planTarget hwm)).getRecordCount = 0 ∧
      (s.planTarget hwm = 0 ↔ (s.levelAt 0).getRecordCount = 0) := by
  have hcan := canReconstructWith_bsm hs 0 hwm
  have hnew : (s.levelAt s.levels.length).getRecordCount = 0 := by
    simp [levelAt, InternalLevel.getRecordCount_eq]
  unfold planTarget
  split
  · rename_i h0
    have h0 := (hcan.mp h0).2
    exact ⟨Nat.zero_le _, h0, by simp [h0]⟩
  · rename_i h0
    rw [hcan] at h0
    cases hfind : findReconstructionTarget .bsm 0 s.currentState with
    | none =>
      refine ⟨le_rfl, hnew, ?_⟩
      rw [Option.getD_none]
      constructor
      · intro hlen
        exact hlen ▸ hnew
      · intro hcount
        by_contra hlen
        exact h0 ⟨by omega, hcount⟩
    | some i =>
      obtain ⟨hpos, hi, hcan', -⟩ := findReconstructionTarget_some hfind
      rw [length_counts hs] at hi
      refine ⟨hi.le, ((canReconstructWith_bsm hs i _).mp hcan').2, ?_⟩
      rw [Option.getD_some]
      constructor
      · omega
      · intro hcount
        exact absurd ⟨by omega, hcount⟩ h0

theorem roundTasks_bsm (s : ExtensionStructure T .bsm) (hwm : Nat) :
    s.roundTasks hwm = if s.planTarget hwm = 0 then []
      else [⟨(List.range (s.planTarget hwm)).reverse, s.planTarget hwm, none⟩] := by
  have hlen : s.copy.levels.length = s.levels.length := by simp [copy]
  have hstate : s.copy.currentState = s.currentState := rfl
  rw [roundTasks, jobTasks, getReconstructionTasks]
  simp only [List.length_nil, if_true, hstate]
  unfold planTarget
  split
  · rfl
  · rw [getReconstructionTasksFromLevel]
    cases hfind : findReconstructionTarget .bsm 0 s.currentState with
    | none =>
      by_cases h0 : s.levels.length = 0
      · simp [grow, hlen, h0, ReconstructionVector.empty]
      · simp [grow, hlen, h0, ReconstructionVector.addTask, ReconstructionVector.empty,
          gatherDown_task]
    | some i =>
      have hpos := (findReconstructionTarget_some hfind).1.ne'
      simp [hpos, ReconstructionVector.addTask, ReconstructionVector.empty, gatherDown_task]

theorem drops_of_count_zero {l : InternalLevel T} (h : l.getRecordCount = 0) :
    Regroup T ↑l.live 0 := by
  rw [InternalLevel.getRecordCount_eq, List.sum_eq_zero_iff] at h
  exact .drops fun x hx => h _ (List.mem_map_of_mem (Multiset.mem_coe.mp hx))

section ClearSource
variable {t i : Nat}

theorem levels_clearSource (hi : i < s.levels.length) (j : Nat) :
    (s.clearSource t i).levels[j]? =
      if j = i then some (InternalLevel.new T j 1) else s.levels[j]? := by
  rw [clearSource, List.getElem?_set]
  by_cases hij : i = j
  · subst hij
    rw [if_pos rfl, if_pos hi, if_pos rfl]
  · rw [if_neg hij, if_neg (Ne.symm hij)]

theorem currentState_clearSource (hi : i < s.currentState.length) (j : Nat) :
    (s.clearSource t i).currentState[j]? =
      if j = i then some ⟨0, s.calcLevelRecordCapacity t, 0, 1⟩ else s.currentState[j]? := by
  rw [clearSource, List.getElem?_set]
  by_cases hij : i = j
  · subst hij
    rw [if_pos rfl, if_pos hi, if_pos rfl]
  · rw [if_neg hij, if_neg (Ne.symm hij)]

theorem shards_clearSource (hi : i < s.levels.length) :
    (s.clearSource t i).shards + ↑(s.levelAt i).live = s.shards := by
  have hset := sum_map_set (fun l => (l.live : Multiset T.Shard)) _ _ _ (InternalLevel.new T i 1)
    (levels_getElem? hi)
  rw [InternalLevel.live_new, Multiset.coe_nil, add_zero] at hset
  exact hset

end ClearSource

/-- All sources of a task cleared, the lowest level last -/
def clearBelow (t : Nat) (b : Nat) (s : ExtensionStructure T .bsm) : ExtensionStructure T .bsm :=
  (List.range b).reverse.foldl (fun s i => s.clearSource t i) s

theorem clearBelow_succ (t b : Nat) (s : ExtensionStructure T .bsm) :
    clearBelow t (b + 1) s = clearBelow t b (s.clearSource t b) := by
  simp [clearBelow, List.range_succ]

/-- What is left when the levels above `b` have been cleared -/
structure Cleared (s : ExtensionStructure T .bsm) (t b : Nat) (s' : ExtensionStructure T .bsm) :
    Prop where
  levels : ∀ j : Nat, s'.levels[j]? =
    if j < b then some (InternalLevel.new T j 1) else s.levels[j]?
  state : ∀ j : Nat, s'.currentState[j]? =
    if j < b then some ⟨0, s.calcLevelRecordCapacity t, 0, 1⟩ else s.currentState[j]?
  shards : s'.shards + ((List.range b).map fun i => ((s.levelAt i).live : Multiset T.Shard)).sum =
    s.shards
  scaleFactor : s'.scaleFactor = s.scaleFactor
  bufferSize : s'.bufferSize = s.bufferSize
  flushSeq : s'.flushSeq = s.flushSeq
  length : s'.levels.length = s.levels.length
  stateLength : s'.currentState.length = s.currentState.length

theorem clearBelow_spec (t b : Nat) (s : ExtensionStructure T .bsm) (hb : b ≤ s.levels.length)
    (hlen : s.currentState.length = s.levels.length) : Cleared s t b (clearBelow t b s) := by
  induction b generalizing s with
  | zero =>
    exact ⟨by simp [clearBelow], by simp [clearBelow], by simp [clearBelow], rfl,
      rfl, rfl, rfl, rfl⟩
  | succ b ih =>
    rw [clearBelow_succ]
    have hc := ih (s.clearSource t b) (by simp [clearSource]; omega) (by simp [clearSource, hlen])
    have hbelow : ∀ i ∈ List.range b, (((s.clearSource t b).levelAt i).live : Multiset T.Shard) =
        ↑(s.levelAt i).live := by
      intro i hi
      have hne : i ≠ b := by
        have := List.mem_range.mp hi
        omega
      rw [levelAt, levels_clearSource hb, if_neg hne]
      rfl
    refine ⟨fun j => ?_, fun j => ?_, ?_, hc.scaleFactor, hc.bufferSize, hc.flushSeq,
      hc.length.trans (by simp [clearSource]), hc.stateLength.trans (by simp [clearSource])⟩
    · rw [hc.levels, levels_clearSource hb]
      grind
    · have hcap : (s.clearSource t b).calcLevelRecordCapacity t = s.calcLevelRecordCapacity t := rfl
      rw [hc.state, currentState_clearSource (by omega), hcap]
      grind
    · have hsum := hc.shards
      rw [List.map_congr_left hbelow] at hsum
      rw [List.range_succ, List.map_append, List.sum_append, ← add_assoc, hsum]
      simpa using shards_clearSource hb

theorem Cleared.counts {s s' : ExtensionStructure T .bsm} {t b : Nat} (h : Cleared s t b s')
    (j : Nat) : s'.currentState[j]?.map LevelState.reccnt =
      if j < b then some 0 else s.currentState[j]?.map LevelState.reccnt := by
  rw [h.state]
  split <;> rfl

/-- The structure with the merged shard at its target, before the sources are
cleared -/
def placeTarget (s : ExtensionStructure T .bsm) (b : Nat) (l : InternalLevel T) :
    ExtensionStructure T .bsm :=
  let st : LevelState := ⟨l.getRecordCount, s.calcLevelRecordCapacity b, 1, 1⟩
  if b ≥ s.levels.length then
    { s with levels := s.levels ++ [l], currentState := s.currentState ++ [st] }
  else
    { s with levels := s.levels.set b l, currentState := s.currentState.set b st }

section PlaceTarget
variable {b : Nat} {l : InternalLevel T}

theorem getElem?_append_singleton {α : Type} (xs : List α) (x : α) (j : Nat) :
    (xs ++ [x])[j]? = if j = xs.length then some x else xs[j]? := by
  rw [List.getElem?_append]
  split
  · rw [if_neg (by omega)]
  · by_cases hj : j = xs.length
    · simp [hj]
    · rw [if_neg hj, List.getElem?_eq_none (by simp; omega), List.getElem?_eq_none (by omega)]

theorem getElem?_set_of_lt {α : Type} {xs : List α} {b : Nat} (hb : b < xs.length) (x : α)
    (j : Nat) : (xs.set b x)[j]? = if j = b then some x else xs[j]? := by
  rw [List.getElem?_set]
  by_cases hj : b = j
  · rw [if_pos hj, if_pos hb, if_pos hj.symm]
  · rw [if_neg hj, if_neg (Ne.symm hj)]

theorem levels_placeTarget (hb : b ≤ s.levels.length) (j : Nat) :
    (s.placeTarget b l).levels[j]? = if j = b then some l else s.levels[j]? := by
  unfold placeTarget
  split
  · obtain rfl : b = s.levels.length := by omega
    exact getElem?_append_singleton ..
  · exact getElem?_set_of_lt (by omega) ..

theorem currentState_placeTarget (hb : b ≤ s.levels.length)
    (hlen : s.currentState.length = s.levels.length) (j : Nat) :
    (s.placeTarget b l).currentState[j]? =
      if j = b then some ⟨l.getRecordCount, s.calcLevelRecordCapacity b, 1, 1⟩
      else s.currentState[j]? := by
  unfold placeTarget
  split
  · obtain rfl : b = s.currentState.length := by omega
    exact getElem?_append_singleton ..
  · exact getElem?_set_of_lt (by omega) ..

theorem stateLength_placeTarget (hlen : s.currentState.length = s.levels.length) :
    (s.placeTarget b l).currentState.length = (s.placeTarget b l).levels.length := by
  unfold placeTarget
  split <;> simp [hlen]

theorem shards_placeTarget (hb : b ≤ s.levels.length) :
    (s.placeTarget b l).shards + ↑(s.levelAt b).live = s.shards + ↑l.live := by
  unfold placeTarget
  split
  · obtain rfl : b = s.levels.length := by omega
    simp [shards, levelAt]
  · have hlt : b < s.levels.length := by omega
    exact sum_map_set (fun l => (l.live : Multiset T.Shard)) _ _ _ l (levels_getElem? hlt)

@[simp] theorem scaleFactor_placeTarget : (s.placeTarget b l).scaleFactor = s.scaleFactor := by
  unfold placeTarget
  split <;> rfl

@[simp] theorem bufferSize_placeTarget : (s.placeTarget b l).bufferSize = s.bufferSize := by
  unfold placeTarget
  split <;> rfl

@[simp] theorem flushSeq_placeTarget : (s.placeTarget b l).flushSeq = s.flushSeq := by
  unfold placeTarget
  split <;> rfl

theorem length_placeTarget (hb : b ≤ s.levels.length) :
    (s.placeTarget b l).levels.length = max s.levels.length (b + 1) := by
  unfold placeTarget
  split
  · simp
    omega
  · rw [List.length_set]
    omega

end PlaceTarget

theorem mapM_levels (is : List Nat) (hlt : ∀ i ∈ is, i < s.levels.length) :
    is.mapM (s.levels[·]?) = some (is.map s.levelAt) := by
  induction is with
  | nil => rfl
  | cons i is ih =>
    rw [List.mapM_cons, levels_getElem? (hlt i List.mem_cons_self),
      ih fun k hk => hlt k (List.mem_cons_of_mem _ hk)]
    rfl

theorem coe_flatMap_live (ls : List (InternalLevel T)) :
    (ls.flatMap InternalLevel.live : Multiset T.Shard) =
      (ls.map fun l => (l.live : Multiset T.Shard)).sum := by
  induction ls with
  | nil => rfl
  | cons l ls ih => simp [← ih]

/-- What a BSM reconstruction leaves -/
structure MergedDown (s s' : ExtensionStructure T .bsm) : Prop where
  sound : s'.SoundBSM
  regroup : Regroup T s.shards s'.shards
  emptied : s'.levelAt 0 = InternalLevel.new T 0 1

def mergedShards (s : ExtensionStructure T .bsm) (b : Nat) : List T.Shard :=
  ((List.range b).reverse.map s.levelAt).flatMap InternalLevel.live

/-- What a BSM task leaves once the merged shard is known -/
def placeMerged (s : ExtensionStructure T .bsm) (b : Nat) (x : T.Shard) :
    ExtensionStructure T .bsm :=
  clearBelow b b (s.placeTarget b (.ofSlots T b [x] 0 none))

theorem reconstructionTask_eq {b : Nat} (hb : b ≤ s.levels.length) :
    s.reconstructionTask ⟨(List.range b).reverse, b, none⟩ =
      (T.ofShards (s.mergedShards b)).map (s.placeMerged b) := by
  have hlt : ∀ i ∈ (List.range b).reverse, i < s.levels.length := by
    intro i hi
    have := List.mem_range.mp (List.mem_reverse.mp hi)
    omega
  simp only [reconstructionTask, mapM_levels _ hlt, InternalLevel.reconstructionAll,
    Option.bind_eq_bind, Option.bind_some, mergedShards]
  cases h : T.ofShards (((List.range b).reverse.map s.levelAt).flatMap InternalLevel.live) with
  | none => rfl
  | some x => rfl

theorem cleared_placeMerged {b : Nat} (hb : b ≤ s.levels.length)
    (hlen : s.currentState.length = s.levels.length) (x : T.Shard) :
    Cleared (s.placeTarget b (.ofSlots T b [x] 0 none)) b b (s.placeMerged b x) := by
  apply clearBelow_spec
  · rw [length_placeTarget hb]
    omega
  · exact stateLength_placeTarget hlen

section Mirrors
variable {α : Type} {f : LevelState → α} {g : InternalLevel T → α}

theorem Mirrors.placeMerged (hf : Projects f g) (hs : Mirrors f g s) {b : Nat}
    (hb : b ≤ s.levels.length) (x : T.Shard) : Mirrors f g (s.placeMerged b x) := by
  have hc := cleared_placeMerged hb hs.length x
  intro j
  rw [hc.state, hc.levels, currentState_placeTarget hb hs.length, levels_placeTarget hb]
  split
  · exact congrArg some (hf.empty ..)
  · split
    · exact congrArg some (hf.merged ..)
    · exact hs j

theorem Mirrors.placeFirst (hf : Projects f g) (hs : Mirrors f g s) (l : InternalLevel T) :
    Mirrors f g (s.placeFirst l) := by
  intro j
  have hlen := hs.length
  have hensure : Mirrors f g (s.ensure 0) := by
    intro j
    unfold ensure
    split
    · rename_i hnil
      have hl : s.levels = [] := List.eq_nil_of_length_eq_zero (by omega)
      have hc : s.currentState = [] := List.eq_nil_of_length_eq_zero (by omega)
      cases j with
      | zero => simp [addLevel, hl, hc, hf.empty _ 0 _ s.shardCapacity]
      | succ j => simp [addLevel, hl, hc]
    · exact hs j
  simp only [ExtensionStructure.placeFirst, List.getElem?_set, List.getElem?_modify]
  cases j with
  | zero =>
    have h0 := hensure 0
    rw [s.levels_ensure 0 (Nat.zero_le _)] at h0
    obtain ⟨st, hst, -⟩ := Option.map_eq_some_iff.mp h0
    simp [hst, length_ensure_zero, hf.flushed]
  | succ j => simpa using hensure (j + 1)

theorem Mirrors.copy (hf : Projects f g) (hs : Mirrors f g s) : Mirrors f g s.copy := by
  intro i
  have hi := hs i
  simp only [ExtensionStructure.copy, List.getElem?_map, hi, Option.map_map, Function.comp_def,
    hf.clone]

end Mirrors

theorem counted_placeMerged (hs : s.Counted) {b : Nat} (hb : b ≤ s.levels.length) (x : T.Shard) :
    (s.placeMerged b x).Counted := Mirrors.placeMerged projects_reccnt hs hb x

theorem levelAt_placeMerged {b : Nat} (hb : b ≤ s.levels.length)
    (hlen : s.currentState.length = s.levels.length) (x : T.Shard) (j : Nat) :
    (s.placeMerged b x).levelAt j =
      if j < b then .new T j 1 else if j = b then .ofSlots T b [x] 0 none else s.levelAt j := by
  have hc := cleared_placeMerged hb hlen x
  have hcap : (s.placeMerged b x).shardCapacity = s.shardCapacity :=
    shardCapacity_congr (hc.scaleFactor.trans scaleFactor_placeTarget)
  rw [levelAt, hc.levels, levels_placeTarget hb, hcap]
  split
  · rfl
  · split
    · rfl
    · rfl

theorem mergedShards_ne_nil {b : Nat} (h0 : 0 < b) (hfirst : (s.levelAt 0).getRecordCount ≠ 0) :
    s.mergedShards b ≠ [] := by
  intro hnil
  rw [mergedShards, List.flatMap_eq_nil_iff] at hnil
  exact live_ne_nil hfirst (hnil (s.levelAt 0)
    (List.mem_map_of_mem (by rw [List.mem_reverse, List.mem_range]; exact h0)))

theorem mergedDown_placeMerged (hs : s.SoundBSM) {b : Nat} (hb : b ≤ s.levels.length)
    (h0 : 0 < b) (hfirst : (s.levelAt 0).getRecordCount ≠ 0)
    (hcount : (s.levelAt b).getRecordCount = 0) {x : T.Shard}
    (hx : T.ofShards (s.mergedShards b) = some x) : MergedDown s (s.placeMerged b x) := by
  have hlen := length_counts hs.counts
  have hc := cleared_placeMerged hb hlen x
  set l := InternalLevel.ofSlots T b [x] 0 none with hl
  refine ⟨⟨counted_placeMerged hs.counts hb x, fun j => ?_⟩, ?_, ?_⟩
  · rw [levelAt_placeMerged hb hlen]
    split
    · rfl
    · split
      · rfl
      · exact hs.noPending j
  · have hbelow : ∀ i ∈ List.range b,
        (((s.placeTarget b l).levelAt i).live : Multiset T.Shard) = ↑(s.levelAt i).live := by
      intro i hi
      have hib := List.mem_range.mp hi
      rw [levelAt, levels_placeTarget hb, if_neg (by omega), levels_getElem? (by omega)]
      rfl
    have hmerged : ((List.range b).map fun i => ((s.levelAt i).live : Multiset T.Shard)).sum =
        ↑(s.mergedShards b) := by
      rw [mergedShards, coe_flatMap_live, List.map_map, ((List.reverse_perm _).map _).sum_eq]
      rfl
    have hsum := hc.shards
    have hput := shards_placeTarget (l := l) hb
    rw [List.map_congr_left hbelow, hmerged] at hsum
    rw [← hsum] at hput
    have hle := live_le_shards (s.placeMerged b x) b
    rw [levelAt_placeMerged hb hlen, if_neg (lt_irrefl b), if_pos rfl] at hle
    obtain ⟨rest, hrest⟩ := Multiset.le_iff_exists_add.mp hle
    -- the sources, the old target and the rest are all there was
    have hall : s.shards = ↑(s.mergedShards b) + (↑(s.levelAt b).live + rest) := by
      rw [hrest, ← hl, add_assoc, add_assoc, add_comm s.shards, add_right_inj] at hput
      rw [← hput, add_left_comm, add_comm rest]
    have hdrop := (drops_of_count_zero hcount).add_right rest
    rw [hall, hrest, InternalLevel.live_ofSlots, Multiset.coe_singleton]
    refine .merge (mergedShards_ne_nil h0 hfirst) hx (.trans (hdrop.add_left {x}) ?_)
    rw [zero_add]
    exact .refl _
  · rw [levelAt_placeMerged hb hlen, if_pos h0]

/-- The assertion of `flush_buffer` on a level 0 without records -/
theorem canFlush_bsm (hs : s.Counted) (h0 : (s.levelAt 0).getRecordCount = 0) (n : Nat) :
    canReconstructWith .bsm 0 n s.flushState = true := by
  unfold flushState
  split
  · rename_i hnil
    simp [List.eq_nil_of_length_eq_zero hnil, canReconstructWith, grow]
  · rw [canReconstructWith_bsm hs, ← length_counts hs]
    exact ⟨by omega, h0⟩

theorem flushBuffer_bsm (hs : s.Counted) (h0 : (s.levelAt 0).getRecordCount = 0)
    (v : BufferView R) :
    s.flushBuffer v = ((s.levelAt 0).appendBuffer v).map s.placeFirst := by
  rw [flushBuffer_eq_guard, if_pos (canFlush_bsm hs h0 _)]
  rfl

theorem counted_placeFirst (hs : s.Counted) (l : InternalLevel T) : (s.placeFirst l).Counted :=
  Mirrors.placeFirst projects_reccnt hs l

theorem sound_placeFirst_bsm (hs : s.SoundBSM) {l : InternalLevel T} (hp : l.pendingShard = none) :
    (s.placeFirst l).SoundBSM where
  counts := counted_placeFirst hs.counts l
  noPending j := by
    rw [levelAt_placeFirst]
    split
    · exact hp
    · exact hs.noPending j

/-- A round keeps the records: it completes, adds the flushed view to the signed
multiset, and its flush puts the view's shard into a slot of level 0. -/
def RoundKeeps (s : ExtensionStructure T .bsm) (hwm : Nat) (v : BufferView R) : Prop :=
  ∃ s₁ s', s.copy.reconstructTasks (s.roundTasks hwm) = some s₁ ∧ s₁.flushBuffer v = some s' ∧
    s'.net = s.net + De.net v.records ∧
    (s'.levelAt 0).live = (s₁.levelAt 0).live ++ [T.ofBuffer v]

/-- Level 0 holds a record, so that the planner empties it, or it has a free slot. -/
def HasSlot (s : ExtensionStructure T .bsm) : Prop :=
  (s.levelAt 0).getRecordCount ≠ 0 ∨ (s.levelAt 0).free ≠ 0

theorem flush_slot (hs : s.SoundBSM) (h0 : (s.levelAt 0).getRecordCount = 0)
    (hfree : (s.levelAt 0).free ≠ 0) (v : BufferView R) :
    ∃ s', s.flushBuffer v = some s' ∧ s'.SoundBSM ∧
      Regroup T (s.shards + {T.ofBuffer v}) s'.shards ∧
      (s'.levelAt 0).live = (s.levelAt 0).live ++ [T.ofBuffer v] := by
  refine ⟨s.placeFirst ((s.levelAt 0).put (T.ofBuffer v)), ?_,
    sound_placeFirst_bsm hs (hs.noPending 0), regroup_placeFirst ?_, ?_⟩
  · rw [flushBuffer_bsm hs.counts h0, InternalLevel.appendBuffer_free hfree]
    rfl
  · rw [InternalLevel.live_put, ← Multiset.coe_add, Multiset.coe_singleton]
    exact .refl _
  · rw [levelAt_placeFirst, if_pos rfl, InternalLevel.live_put]

def roundMergesBSM (s : ExtensionStructure T .bsm) (hwm : Nat) : List (List T.Shard) :=
  if s.planTarget hwm = 0 then [] else [s.mergedShards (s.planTarget hwm)]

theorem reconstructTasks_bsm (hs : s.SoundBSM) {hwm : Nat}
    (hm : ∀ xs ∈ s.roundMergesBSM hwm, (T.ofShards xs).isSome) :
    ∃ s₁, s.copy.reconstructTasks (s.roundTasks hwm) = some s₁ ∧
      if (s.levelAt 0).getRecordCount = 0 then s₁ = s else MergedDown s s₁ := by
  obtain ⟨hb, hcount, hzero⟩ := planTarget_bsm hs.counts hwm
  rw [copy_eq hs.noPending, roundTasks_bsm]
  by_cases h0 : s.planTarget hwm = 0
  · rw [if_pos h0]
    exact ⟨s, rfl, by rw [if_pos (hzero.mp h0)]⟩
  · obtain ⟨x, hx⟩ := Option.isSome_iff_exists.mp
      (hm (s.mergedShards (s.planTarget hwm)) (by simp [roundMergesBSM, h0]))
    rw [if_neg h0]
    refine ⟨s.placeMerged (s.planTarget hwm) x, ?_, ?_⟩
    · simp [reconstructTasks, reconstructTask, reconstructionTask_eq hb, hx]
    · rw [if_neg fun h => h0 (hzero.mpr h)]
      exact mergedDown_placeMerged hs hb (Nat.pos_of_ne_zero h0) (fun h => h0 (hzero.mpr h))
        hcount hx

theorem round_slot (hs : s.SoundBSM) {hwm : Nat}
    (hm : ∀ xs ∈ s.roundMergesBSM hwm, (T.ofShards xs).isSome) (hslot : s.HasSlot)
    (v : BufferView R) :
    ∃ s₁ s', s.copy.reconstructTasks (s.roundTasks hwm) = some s₁ ∧ s₁.flushBuffer v = some s' ∧
      s'.SoundBSM ∧ Regroup T (s.shards + {T.ofBuffer v}) s'.shards ∧
      (s'.levelAt 0).live = (s₁.levelAt 0).live ++ [T.ofBuffer v] := by
  obtain ⟨s₁, hs₁, hcase⟩ := reconstructTasks_bsm hs hm
  have hsound : s₁.SoundBSM ∧ Regroup T s.shards s₁.shards ∧
      (s₁.levelAt 0).getRecordCount = 0 ∧ (s₁.levelAt 0).free ≠ 0 := by
    split at hcase
    · rename_i h0
      subst hcase
      exact ⟨hs, .refl _, h0, hslot.resolve_left (not_not_intro h0)⟩
    · refine ⟨hcase.sound, hcase.regroup, ?_, ?_⟩
      · simp [hcase.emptied, InternalLevel.getRecordCount_eq]
      · simp [hcase.emptied]
  obtain ⟨hs₁', hr₁, h0, hfree⟩ := hsound
  obtain ⟨s', hflush, hs', hr, hlive⟩ := flush_slot hs₁' h0 hfree v
  exact ⟨s₁, s', hs₁, hflush, hs', (hr₁.add_right _).trans hr, hlive⟩

theorem not_roundKeeps (hs : s.SoundBSM) {hwm : Nat}
    (hm : ∀ xs ∈ s.roundMergesBSM hwm, (T.ofShards xs).isSome) (hno : ¬ s.HasSlot)
    (v : BufferView R) : ¬ s.RoundKeeps hwm v := by
  obtain ⟨s₁, hs₁, hcase⟩ := reconstructTasks_bsm hs hm
  rintro ⟨s₂, s', hs₂, hflush, -, hlive⟩
  rw [hs₁, Option.some.injEq] at hs₂
  subst hs₂
  simp only [HasSlot, not_or, not_not] at hno
  rw [if_pos hno.1] at hcase
  subst hcase
  rw [flushBuffer_bsm hs.counts hno.1, InternalLevel.appendBuffer_full hno.2 (hs.noPending 0),
    Option.map_some, Option.some.injEq] at hflush
  rw [← hflush, levelAt_placeFirst, if_pos rfl, InternalLevel.live_ofSlots] at hlive
  simp at hlive

theorem levelAt_copy {L : LayoutPolicy} (s : ExtensionStructure T L) (i : Nat) :
    s.copy.levelAt i = (s.levelAt i).clone := by
  have hcap : s.copy.shardCapacity = s.shardCapacity := shardCapacity_congr rfl
  simp only [levelAt, hcap]
  simp only [copy, List.getElem?_map]
  cases s.levels[i]? with
  | none =>
    have hp : (InternalLevel.new T i s.shardCapacity).pendingShard = none := rfl
    exact (clone_eq hp).symm
  | some l => rfl

theorem sound_copy (hs : s.Counted) : s.copy.SoundBSM where
  counts := Mirrors.copy projects_reccnt hs
  noPending i := by
    rw [levelAt_copy]
    rfl

theorem reconstructTasks_copy (hs : s.Counted) (hwm : Nat) {s₁ : ExtensionStructure T .bsm}
    (hrun : s.copy.reconstructTasks (s.roundTasks hwm) = some s₁) :
    (s.copy.planTarget hwm = 0 ∧ s₁ = s.copy) ∨
      (s.copy.planTarget hwm ≠ 0 ∧
        ∃ x, T.ofShards (s.copy.mergedShards (s.copy.planTarget hwm)) = some x ∧
          s₁ = s.copy.placeMerged (s.copy.planTarget hwm) x) := by
  have hb := (planTarget_bsm (sound_copy hs).counts hwm).1
  rw [roundTasks_bsm, ← planTarget_copy] at hrun
  split at hrun
  · rename_i h0
    exact .inl ⟨h0, (Option.some.inj hrun).symm⟩
  · rename_i h0
    simp only [reconstructTasks, List.foldlM_cons, List.foldlM_nil, reconstructTask,
      reconstructionTask_eq hb] at hrun
    obtain ⟨s₂, hs₂, hpure⟩ := Option.bind_eq_some_iff.mp hrun
    obtain ⟨x, hx, hplace⟩ := Option.map_eq_some_iff.mp hs₂
    exact .inr ⟨h0, x, hx, by rw [hplace]; exact (Option.some.inj hpure).symm⟩

section Mirrors
variable {α : Type} {f : LevelState → α} {g : InternalLevel T → α}

theorem Mirrors.reconstructTasks (hf : Projects f g) (hs : Mirrors f g s) (hc : s.Counted)
    (hwm : Nat) {s₁ : ExtensionStructure T .bsm}
    (hrun : s.copy.reconstructTasks (s.roundTasks hwm) = some s₁) : Mirrors f g s₁ := by
  rcases reconstructTasks_copy hc hwm hrun with ⟨-, rfl⟩ | ⟨-, x, -, rfl⟩
  · exact hs.copy hf
  · exact (hs.copy hf).placeMerged hf (planTarget_bsm (sound_copy hc).counts hwm).1 x

theorem Mirrors.round (hf : Projects f g) (hs : Mirrors f g s) (hc : s.Counted) {hwm : Nat}
    {v : BufferView R} {s' : ExtensionStructure T .bsm} (hrun : s.round hwm v = some s') :
    Mirrors f g s' := by
  obtain ⟨s₁, hs₁, hflush⟩ := Option.bind_eq_some_iff.mp hrun
  rw [flushBuffer_eq_guard] at hflush
  split at hflush
  · obtain ⟨l, -, rfl⟩ := Option.map_eq_some_iff.mp hflush
    exact (hs.reconstructTasks hf hc hwm hs₁).placeFirst hf l
  · cases hflush

end Mirrors

theorem Reachable.counted {hwm scale : Nat} (hs : Reachable T .bsm hwm scale s) : s.Counted := by
  induction hs with
  | new => exact fun i => by simp [ExtensionStructure.new]
  | round _ _ hrun ih => exact Mirrors.round projects_reccnt ih ih hrun

theorem Reachable.mirrors {α : Type} {f : LevelState → α} {g : InternalLevel T → α}
    (hf : Projects f g) {hwm scale : Nat} (hs : Reachable T .bsm hwm scale s) : Mirrors f g s := by
  induction hs with
  | new => exact fun i => by simp [ExtensionStructure.new]
  | round hs _ hrun ih => exact Mirrors.round hf ih hs.counted hrun

/-- The runs of BSM rounds before each of which level 0 holds a record or has a
free slot -/
inductive SlottedRun (T : ShardType R) (hwm scale : Nat) : ExtensionStructure T .bsm → Prop
  | new : SlottedRun T hwm scale (new T .bsm hwm scale)
  | round {s s' : ExtensionStructure T .bsm} {v : BufferView R} (hs : SlottedRun T hwm scale s)
      (hslot : s.HasSlot) (hv : v.getRecordCount ≤ hwm) (hrun : s.round hwm v = some s') :
      SlottedRun T hwm scale s'

theorem sound_new_bsm (T : ShardType R) (hwm scale : Nat) : (new T .bsm hwm scale).SoundBSM where
  counts i := by simp [new]
  noPending _ := rfl

theorem SlottedRun.sound (hT : T.Total) {hwm scale : Nat} (hs : SlottedRun T hwm scale s) :
    s.SoundBSM := by
  induction hs with
  | new => exact sound_new_bsm T hwm scale
  | @round s s' v _ hslot _ hrun ih =>
    obtain ⟨s₁, s'', hs₁, hflush, hs'', -, -⟩ := round_slot ih (fun xs _ => hT xs) hslot v
    have hround : s.round hwm v = some s'' := by
      rw [ExtensionStructure.round, hs₁]
      exact hflush
    rw [hround, Option.some.injEq] at hrun
    exact hrun ▸ hs''

/-- In a run in which every round found a slot, the next round keeps the records
exactly when it finds one too. -/
theorem roundKeeps_iff (hT : T.Total) {hwm scale : Nat} (hs : SlottedRun T hwm scale s)
    (v : BufferView R) : s.RoundKeeps hwm v ↔ s.HasSlot := by
  have hsound := hs.sound hT
  refine ⟨fun hk => by_contra fun hno => not_roundKeeps hsound (fun xs _ => hT xs) hno v hk, ?_⟩
  intro hslot
  obtain ⟨s₁, s', hs₁, hflush, -, hr, hlive⟩ := round_slot hsound (fun xs _ => hT xs) hslot v
  exact ⟨s₁, s', hs₁, hflush, net_regroup hr, hlive⟩

theorem roundKeeps_iff_sample :
    ∃ s : ExtensionStructure (ShardType.lists Nat) .bsm,
      (new _ .bsm 2 2).round 2 (sampleView [(1, false), (1, true)]) = some s ∧
      (s.RoundKeeps 2 (sampleView [(2, false)]) ↔ s.HasSlot) := by
  have h : ((new (ShardType.lists Nat) .bsm 2 2).round 2
      (sampleView [(1, false), (1, true)])).isSome := by decide
  obtain ⟨s, hs⟩ := Option.isSome_iff_exists.mp h
  have hrun : SlottedRun (ShardType.lists Nat) 2 2 s :=
    SlottedRun.new.round (.inr (by decide)) (by decide) hs
  exact ⟨s, hs, roundKeeps_iff (ShardType.total_lists Nat) hrun _⟩

/-- Two flushes that cancel fill both slots of level 0 with shards without a
record; the flush of the next round finds none. -/
theorem not_roundKeeps_cancelled :
    ∃ s : ExtensionStructure (ISAMTree.shardType NodeLayout.words (StdLib.sorted _)) .bsm,
      Reachable _ .bsm 2 2 s ∧
        ¬ s.RoundKeeps 2 (BufferView.ofList [Wrapped.fresh (⟨7, 7⟩ : Record Nat Nat) false]) := by
  set T := ISAMTree.shardType NodeLayout.words (StdLib.sorted (Record Nat Nat))
  set v : BufferView (Record Nat Nat) :=
    BufferView.ofList [Wrapped.fresh ⟨1, 5⟩ false, Wrapped.fresh ⟨1, 5⟩ true]
  have h : ((new T .bsm 2 2).rounds 2 [v, v]).isSome := by decide +kernel
  obtain ⟨s, hs⟩ := Option.isSome_iff_exists.mp h
  refine ⟨s, Reachable.new.rounds (by decide) hs, ?_⟩
  rintro ⟨s₁, s', hs₁, hflush, -, hlive⟩
  -- level 0 has two shards before the flush and after it
  have hlengths : ((new T .bsm 2 2).rounds 2 [v, v]).bind (fun s =>
      (s.copy.reconstructTasks (s.roundTasks 2)).bind fun s₁ =>
        (s₁.flushBuffer (BufferView.ofList [Wrapped.fresh (⟨7, 7⟩ : Record Nat Nat) false])).map
          fun s' => ((s₁.levelAt 0).live.length, (s'.levelAt 0).live.length)) = some (2, 2) := by
    decide +kernel
  rw [hs, Option.bind_some, hs₁, Option.bind_some, hflush, Option.map_some, Option.some.injEq,
    Prod.mk.injEq] at hlengths
  have := congrArg List.length hlive
  rw [List.length_append, List.length_singleton, hlengths.1, hlengths.2] at this
  omega

end ExtensionStructure

end De
