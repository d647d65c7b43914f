import DynamicExtension.Conservation
import DynamicExtension.TombstoneProportion
set_option autoImplicit false

namespace De
variable {R : Type} [DecidableEq R] {T : ShardType R} {L : LayoutPolicy}

namespace ExtensionStructure
namespace Compaction

section Defs
variable (maxDeleteProp : ℚ) (tombstoneCount : T.Shard → BitVec 64)

/-- The first level to violate the invariant -/
def violationIdx (s : ExtensionStructure T L) : Option Nat :=
  (List.range s.levels.length).find? fun i => !validateLevel maxDeleteProp tombstoneCount s i

/-- `base_level`, with the scratch state that it is found in -/
def baseLevel (s : ExtensionStructure T L) (violation : Nat) : Nat × List LevelState :=
  match findReconstructionTarget L violation s.currentState with
  | some i => (i, s.currentState)
  | none => s.grow s.currentState

/-- The `reccnt` of the task for level `i`; reading a level that is not there has no defined
result. -/
def taskReccnt (s : ExtensionStructure T L) (scratch : List LevelState) (i : Nat) : Option Nat := do
  let above ← s.levels[i - 1]?
  if L = .leveling ∧ canReconstructWith L i above.getRecordCount scratch then
    (s.levels[i]?).map fun l => above.getRecordCount + l.getRecordCount
  else some above.getRecordCount

/-- `for (i = base_level; i > 0; i--)`. The source level is `i - i`. -/
def compactDown (s : ExtensionStructure T L) (scratch : List LevelState) :
    Nat → ReconstructionVector → Option ReconstructionVector
  | 0, tasks => some tasks
  | i + 1, tasks => do
    let reccnt ← taskReccnt s scratch (i + 1)
    compactDown s scratch i (tasks.addReconstruction ((i + 1) - (i + 1)) (i + 1) reccnt)

def getCompactionTasks (s : ExtensionStructure T L) : Option ReconstructionVector := do
  if validateTombstoneProportion maxDeleteProp tombstoneCount s then
    return .empty
  let violation ← violationIdx maxDeleteProp tombstoneCount s
  let (base, scratch) := baseLevel s violation
  compactDown s scratch base .empty

/-- What a list of compaction tasks is for: each moves a level into the one below, from the base
level up to the violating one, which gives up its records and none of them are lost. -/
structure Cascade (s : ExtensionStructure T L) (violation base : Nat)
    (tasks : List ReconstructionTask) : Prop where
  adjacent : tasks.map ReconstructionTask.shape =
    (List.range' violation (base - violation)).reverse.map fun i => ([i], i + 1)
  keeps : ∀ s', s.reconstructTasks tasks = some s' →
    s'.net = s.net ∧ (s'.levelAt violation).live = []
  runs : T.Total → (s.reconstructTasks tasks).isSome

end Defs

theorem compactDown_shapes (s : ExtensionStructure T L) (scratch : List LevelState) (b : Nat)
    {tasks rv : ReconstructionVector} (h : compactDown s scratch b tasks = some rv) :
    rv.tasks.map ReconstructionTask.shape = tasks.tasks.map ReconstructionTask.shape ++
      (List.range b).reverse.map fun i => ([0], i + 1) := by
  induction b generalizing tasks with
  | zero =>
    obtain rfl := Option.some.inj h
    simp
  | succ b ih =>
    obtain ⟨reccnt, -, h⟩ := Option.bind_eq_some_iff.mp h
    rw [ih h, List.range_succ]
    simp [ReconstructionVector.addReconstruction, ReconstructionTask.shape]

theorem adjacent_iff {violation base : Nat} (hlt : violation < base) :
    ((List.range base).reverse.map fun i => ([0], i + 1)) =
      ((List.range' violation (base - violation)).reverse.map fun i =>
        ([i], i + 1)) ↔ base = 1 := by
  constructor
  · intro h
    have hlen := congrArg List.length h
    simp only [List.length_map, List.length_reverse, List.length_range, List.length_range'] at hlen
    obtain rfl : violation = 0 := by omega
    obtain ⟨b, rfl⟩ : ∃ b, base = b + 1 := ⟨base - 1, by omega⟩
    rw [Nat.sub_zero, ← List.range_eq_range', List.range_succ, List.reverse_append] at h
    have hhead := (List.cons.inj h).1
    have hzero : ([0], b + 1) = ([b], b + 1) := hhead
    have hb : 0 = b := by simpa using congrArg (fun p => p.1.head?) hzero
    omega
  · rintro rfl
    obtain rfl : violation = 0 := by omega
    rfl

theorem lt_of_findReconstructionTarget {idx i : Nat} {state : List LevelState}
    (h : findReconstructionTarget L idx state = some i) : idx < i := by
  unfold findReconstructionTarget at h
  split at h
  · cases h
  · have hmem := List.mem_of_find?_eq_some h
    rw [List.mem_range'_1] at hmem
    omega

theorem lt_baseLevel {s : ExtensionStructure T L} {violation : Nat}
    (hlt : violation < s.levels.length) : violation < (baseLevel s violation).1 := by
  unfold baseLevel
  cases hfind : findReconstructionTarget L violation s.currentState with
  | some i => exact lt_of_findReconstructionTarget hfind
  | none => exact hlt

variable {maxDeleteProp : ℚ} {tombstoneCount : T.Shard → BitVec 64}

theorem lt_of_violationIdx {s : ExtensionStructure T L} {violation : Nat}
    (h : violationIdx maxDeleteProp tombstoneCount s = some violation) :
    violation < s.levels.length :=
  List.mem_range.mp (List.mem_of_find?_eq_some h)

theorem violationIdx_isSome {s : ExtensionStructure T L}
    (h : validateTombstoneProportion maxDeleteProp tombstoneCount s = false) :
    (violationIdx maxDeleteProp tombstoneCount s).isSome := by
  obtain ⟨⟨l, i⟩, hmem, hbad⟩ := List.all_eq_false.mp h
  obtain ⟨hi, hl⟩ := List.mem_zipIdx' hmem
  rw [violationIdx, List.find?_isSome]
  refine ⟨i, List.mem_range.mpr hi, ?_⟩
  have hat : s.levelAt i = l := by rw [levelAt, List.getElem?_eq_getElem hi, ← hl]; rfl
  have habove : tsPropAbove maxDeleteProp (l.getTombstoneCount tombstoneCount).toNat
      (s.calcLevelRecordCapacity i) = true := by simpa using hbad
  rw [validateLevel, hat, tsPropWithin_of_above habove]
  rfl

/-- A sound structure whose level 0, under LEVELING, holds a shard if it is the one to violate
the maximum -/
structure Compactable (maxDeleteProp : ℚ) (tombstoneCount : T.Shard → BitVec 64)
    (s : ExtensionStructure T L) : Prop where
  sound : s.Sound
  first : L = .leveling → violationIdx maxDeleteProp tombstoneCount s = some 0 →
    (s.levelAt 0).live ≠ []

theorem compactable_of_settled {s : ExtensionStructure T L} (h : s.Settled) :
    Compactable maxDeleteProp tombstoneCount s :=
  ⟨h.sound, fun hL hv => h.nonempty hL 0 (lt_of_violationIdx hv)⟩

theorem compactable_of_sound {s : ExtensionStructure T L} (h : s.Sound) (hmax : 0 ≤ maxDeleteProp)
    (hcap : 0 < s.calcLevelRecordCapacity 0) : Compactable maxDeleteProp tombstoneCount s := by
  refine ⟨h, fun _ hv hnil => ?_⟩
  have hbad := List.find?_some hv
  simp [validateLevel, InternalLevel.getTombstoneCount_eq, hnil,
    tsPropWithin_zero hmax hcap] at hbad

theorem Compactable.fits (h : L ≠ .bsm) {s : ExtensionStructure T L}
    (hs : Compactable maxDeleteProp tombstoneCount s)
    (hv : violationIdx maxDeleteProp tombstoneCount s = some 0) (hbase : (baseLevel s 0).1 = 1) :
    Fits L (s.levelAt 1) (s.levelAt 0) := by
  have hlt := lt_of_violationIdx hv
  cases L with
  | leveling => exact .inr (hs.first rfl hv)
  | teiring =>
    unfold baseLevel at hbase
    cases hfind : findReconstructionTarget .teiring 0 s.currentState with
    | some i =>
      obtain rfl : i = 1 := by rwa [hfind] at hbase
      have hcan := (findReconstructionTarget_some hfind).2.2.1
      rw [canReconstructWith_iff hs.sound.real] at hcan
      have hfree : (s.levelAt 1).live.length < s.shardCapacity := hcan.2
      have hslots := hs.sound.slots 1
      show (s.levelAt 1).free ≠ 0
      omega
    | none =>
      have hlen : s.levels.length = 1 := by rwa [hfind] at hbase
      have hnew : s.levelAt 1 = InternalLevel.new T 1 s.shardCapacity := by
        rw [levelAt, List.getElem?_eq_none (by omega)]
        rfl
      rw [hnew]
      exact fits_new (by decide) hs.sound 1 (List.ne_nil_of_length_pos hlt) _
  | bsm => exact absurd rfl h

theorem baseLevel_grow {s : ExtensionStructure T L} (hs : s.Real) (hlen : s.levels.length = 1)
    (hbase : (baseLevel s 0).1 = 1) : baseLevel s 0 = s.grow s.currentState := by
  unfold baseLevel at hbase ⊢
  cases hfind : findReconstructionTarget L 0 s.currentState with
  | none => rfl
  | some i =>
    rw [hfind] at hbase
    obtain rfl : i = 1 := hbase
    have hi := (findReconstructionTarget_some hfind).2.1
    rw [length_state hs] at hi
    omega

theorem canReconstructWith_grow {s : ExtensionStructure T .leveling} (hs : s.Real)
    (hlen : s.levels.length = 1) (n : Nat) :
    canReconstructWith .leveling 1 n (s.grow s.currentState).2 = true ↔
      n ≤ s.calcLevelRecordCapacity 1 := by
  have hstate : (s.grow s.currentState).2[1]? =
      some ⟨0, s.calcLevelRecordCapacity 1, 0, s.shardCapacity⟩ := by
    have hlen' := length_state hs
    rw [grow, List.getElem?_append_right (by omega), hlen', hlen]
    rfl
  rw [canReconstructWith, hstate]
  simp

/-- Under LEVELING a base level that has yet to be added is read all the same if its
capacity is enough for level 0. -/
theorem taskReccnt_isSome_iff {s : ExtensionStructure T L} (hs : s.Real)
    (hpos : 0 < s.levels.length) (hbase : (baseLevel s 0).1 = 1) :
    (taskReccnt s (baseLevel s 0).2 1).isSome ↔
      (L = .leveling → (s.levelAt 0).getRecordCount ≤ s.calcLevelRecordCapacity 1 →
        1 < s.levels.length) := by
  have hat : s.levels[0]? = some (s.levelAt 0) := levels_getElem? hpos
  simp only [taskReccnt, Nat.sub_self, hat, Option.bind_eq_bind, Option.bind_some]
  by_cases hlen : 1 < s.levels.length
  · simp only [levels_getElem? hlen, hlen, Option.map_some]
    split <;> simp
  · have hone : s.levels.length = 1 := by omega
    rw [baseLevel_grow hs hone hbase]
    by_cases hL : L = .leveling
    · subst hL
      simp only [canReconstructWith_grow hs hone, hlen, List.getElem?_eq_none hone.le,
        true_and, true_implies, Option.map_none]
      split <;> simp_all
    · simp [hL]

theorem cascade_single (h : L ≠ .bsm) {s : ExtensionStructure T L} (hs : s.Sound)
    (hpos : 0 < s.levels.length) (hfits : Fits L (s.levelAt 1) (s.levelAt 0)) (reccnt : Nat) :
    Cascade s 0 1 [⟨[0], 1, some reccnt⟩] := by
  have hrun : s.reconstructTasks [⟨[0], 1, some reccnt⟩] = s.reconstruction 1 0 := by
    rw [reconstructTasks_eq h 1 s _ rfl, runDown]
    cases s.reconstruction 1 0 with
    | none => rfl
    | some s' => rfl
  obtain ⟨hstep, hsome⟩ := reconstruction_spec h hs hpos hfits
  refine ⟨rfl, fun s' hs' => ?_, fun htotal => ?_⟩
  · have hst := hstep s' (hrun ▸ hs')
    refine ⟨?_, ?_⟩
    · rw [net_eq, net_eq, hst.rearranged.regroup.net]
    · rw [hst.emptied, InternalLevel.live_new]
  · rw [hrun]
    exact hsome fun xs _ => htotal xs

/-- The compaction tasks are a cascade exactly if level 0 is the violating level, level 1 the
base level and, under LEVELING, there already or too small for level 0. -/
theorem compaction_iff (h : L ≠ .bsm) {s : ExtensionStructure T L}
    (hs : Compactable maxDeleteProp tombstoneCount s)
    (hbad : validateTombstoneProportion maxDeleteProp tombstoneCount s = false) :
    (∃ tasks violation, getCompactionTasks maxDeleteProp tombstoneCount s = some tasks ∧
      violationIdx maxDeleteProp tombstoneCount s = some violation ∧
      Cascade s violation (baseLevel s violation).1 tasks.tasks) ↔
    violationIdx maxDeleteProp tombstoneCount s = some 0 ∧ (baseLevel s 0).1 = 1 ∧
      (L = .leveling → (s.levelAt 0).getRecordCount ≤ s.calcLevelRecordCapacity 1 →
        1 < s.levels.length) := by
  obtain ⟨violation, hv⟩ := Option.isSome_iff_exists.mp (violationIdx_isSome hbad)
  have hlt := lt_of_violationIdx hv
  have htasks : getCompactionTasks maxDeleteProp tombstoneCount s =
      compactDown s (baseLevel s violation).2 (baseLevel s violation).1 .empty := by
    simp [getCompactionTasks, hbad, hv]
  constructor
  · rintro ⟨tasks, violation', hget, hv', hcascade⟩
    obtain rfl : violation = violation' := Option.some.inj (hv.symm.trans hv')
    rw [htasks] at hget
    have hshapes := compactDown_shapes s _ _ hget
    rw [hcascade.adjacent] at hshapes
    have hbase := (adjacent_iff (lt_baseLevel hlt)).mp hshapes.symm
    obtain rfl : violation = 0 := by
      have hless := lt_baseLevel hlt
      omega
    refine ⟨hv, hbase, (taskReccnt_isSome_iff hs.sound.real hlt hbase).mp ?_⟩
    rw [hbase, compactDown] at hget
    obtain ⟨reccnt, hreccnt, -⟩ := Option.bind_eq_some_iff.mp hget
    exact Option.isSome_of_eq_some hreccnt
  · rintro ⟨hv', hbase, hread⟩
    obtain rfl : violation = 0 := Option.some.inj (hv.symm.trans hv')
    obtain ⟨reccnt, hreccnt⟩ := Option.isSome_iff_exists.mp
      ((taskReccnt_isSome_iff hs.sound.real hlt hbase).mpr hread)
    refine ⟨ReconstructionVector.empty.addReconstruction 0 1 reccnt, 0, ?_, hv, ?_⟩
    · rw [htasks, hbase, compactDown, hreccnt]
      rfl
    · rw [hbase]
      exact cascade_single h hs.sound hlt (hs.fits h hv hbase) reccnt

/-- The tombstones of a shard that keeps a list -/
def countTombstones (x : (ShardType.lists Nat).Shard) : BitVec 64 :=
  BitVec.ofNat 64 (((ShardType.lists Nat).records x).countP Wrapped.isTombstone)

/-- Rounds of one record each, TEIRING with two shards to a level -/
def oneByOne (l : List (Nat × Bool)) : Option (ExtensionStructure (ShardType.lists Nat) .teiring) :=
  (new _ .teiring 1 2).rounds 1 (l.map fun c => sampleView [c])

theorem reachable_oneByOne {l : List (Nat × Bool)}
    {s : ExtensionStructure (ShardType.lists Nat) .teiring} (h : oneByOne l = some s) :
    Reachable (ShardType.lists Nat) .teiring 1 2 s := by
  refine Reachable.new.rounds (fun v hv => ?_) h
  obtain ⟨c, -, rfl⟩ := List.mem_map.mp hv
  rfl

/-- Two tombstones in level 0, and room in level 1 -/
theorem compaction_iff_sample :
    ∃ s, oneByOne [(1, false), (2, false), (3, true), (4, true)] = some s ∧
      ∃ tasks violation, getCompactionTasks (1 / 2) countTombstones s = some tasks ∧
        violationIdx (1 / 2) countTombstones s = some violation ∧
        Cascade s violation (baseLevel s violation).1 tasks.tasks := by
  have hrun : ((oneByOne [(1, false), (2, false), (3, true), (4, true)]).map fun s =>
      (validateTombstoneProportion (1 / 2) countTombstones s,
        violationIdx (1 / 2) countTombstones s, (baseLevel s 0).1)) = some (false, some 0, 1) := by
    decide +kernel
  obtain ⟨s, hs, hfacts⟩ := Option.map_eq_some_iff.mp hrun
  simp only [Prod.mk.injEq] at hfacts
  obtain ⟨hbad, hv, hbase⟩ := hfacts
  have hsettled := ((reachable_oneByOne hs).settled (by decide)).1
  exact ⟨s, hs, (compaction_iff (by decide) (compactable_of_settled hsettled) hbad).mpr
    ⟨hv, hbase, fun h => by cases h⟩⟩

/-- Two tombstones in level 1: both tasks take the records of level 0, and the tombstones stay. -/
theorem not_compaction : ∃ s tasks s', oneByOne [(1, true), (2, true), (3, false)] = some s ∧
    validateTombstoneProportion 0 countTombstones s = false ∧
    violationIdx 0 countTombstones s = some 1 ∧ (baseLevel s 1).1 = 2 ∧
    getCompactionTasks 0 countTombstones s = some tasks ∧
    tasks.tasks.map ReconstructionTask.shape = [([0], 2), ([0], 1)] ∧
    s.reconstructTasks tasks.tasks = some s' ∧
    (s'.levelAt 1).getTombstoneCount countTombstones = 2 ∧ ¬ Cascade s 1 2 tasks.tasks := by
  have hrun : ((oneByOne [(1, true), (2, true), (3, false)]).bind fun s =>
      (getCompactionTasks 0 countTombstones s).bind fun tasks =>
        (s.reconstructTasks tasks.tasks).map fun s' =>
          ((validateTombstoneProportion 0 countTombstones s, violationIdx 0 countTombstones s),
            ((baseLevel s 1).1, (s'.levelAt 1).getTombstoneCount countTombstones),
            tasks.tasks.map ReconstructionTask.shape)) =
      some ((false, some 1), (2, 2), [([0], 2), ([0], 1)]) := by
    decide +kernel
  obtain ⟨s, hs, hrun⟩ := Option.bind_eq_some_iff.mp hrun
  obtain ⟨tasks, htasks, hrun⟩ := Option.bind_eq_some_iff.mp hrun
  obtain ⟨s', hs', hfacts⟩ := Option.map_eq_some_iff.mp hrun
  simp only [Prod.mk.injEq] at hfacts
  obtain ⟨⟨hbad, hv⟩, ⟨hbase, hcount⟩, hshapes⟩ := hfacts
  refine ⟨s, tasks, s', hs, hbad, hv, hbase, htasks, hshapes, hs', hcount, fun h => ?_⟩
  rw [InternalLevel.getTombstoneCount_eq, (h.keeps s' hs').2] at hcount
  cases hcount

end Compaction
end ExtensionStructure
end De
