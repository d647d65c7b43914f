import DynamicExtension.Library.Rounding
import DynamicExtension.Regroup
set_option autoImplicit false

namespace De
open Rounding
variable {R : Type} [DecidableEq R] {T : ShardType R}

inductive LayoutPolicy where
  | leveling
  | teiring
  | bsm
  deriving DecidableEq, Repr

/-- The planner's summary of a level -/
structure LevelState where
  reccnt : Nat
  reccap : Nat
  shardcnt : Nat
  shardcap : Nat
  deriving DecidableEq, Repr

/-- `reccnt` is `none` where the source adds to an uninitialised counter. -/
structure ReconstructionTask where
  sources : List Nat
  target : Nat
  reccnt : Option Nat
  deriving DecidableEq, Repr

def ReconstructionTask.addSource (t : ReconstructionTask) (source cnt : Nat) :
    ReconstructionTask :=
  { t with sources := t.sources ++ [source], reccnt := t.reccnt.map (· + cnt) }

structure ReconstructionVector where
  tasks : List ReconstructionTask
  totalReccnt : Nat
  deriving DecidableEq, Repr

namespace ReconstructionVector

def empty : ReconstructionVector := ⟨[], 0⟩

def addReconstruction (rv : ReconstructionVector) (source target reccnt : Nat) :
    ReconstructionVector :=
  ⟨rv.tasks ++ [⟨[source], target, some reccnt⟩], rv.totalReccnt + reccnt⟩

/-- The overload for a whole task leaves the total alone. -/
def addTask (rv : ReconstructionVector) (task : ReconstructionTask) : ReconstructionVector :=
  ⟨rv.tasks ++ [task], rv.totalReccnt⟩

end ReconstructionVector

structure ExtensionStructure (T : ShardType R) (L : LayoutPolicy) where
  scaleFactor : Nat
  bufferSize : Nat
  flushSeq : Nat
  levels : List (InternalLevel T)
  currentState : List LevelState

/-- What `save_checkpoint` writes: the files of every level, and the sequence. -/
structure Checkpoint (T : ShardType R) where
  flushSeq : Nat
  levels : List (List T.File)

namespace ExtensionStructure
variable {L : LayoutPolicy}

/-- The constructor with `skip_checkpoint` -/
def new (T : ShardType R) (L : LayoutPolicy) (bufferSize scaleFactor : Nat) :
    ExtensionStructure T L :=
  ⟨scaleFactor, bufferSize, 0, [], []⟩

def shardCapacity (s : ExtensionStructure T L) : Nat :=
  match L with
  | .leveling => 1
  | _ => s.scaleFactor

/-- `pow` and the product are doubles, and so are its operands. A product that is no
`size_t` becomes 0, as the conversion does on x86-64. -/
def calcLevelRecordCapacity (s : ExtensionStructure T L) (idx : Nat) : Nat :=
  let power := roundBits 53 (roundBits 53 s.scaleFactor ^ (idx + 1))
  let product := roundBits 53 (roundBits 53 s.bufferSize * power)
  if product < 2 ^ 64 then product else 0

def copy (s : ExtensionStructure T L) : ExtensionStructure T L :=
  { s with levels := s.levels.map InternalLevel.clone }

def getRecordCount (s : ExtensionStructure T L) : Nat :=
  (s.levels.map InternalLevel.getRecordCount).sum

def canReconstructWith (L : LayoutPolicy) (idx incomingRecCnt : Nat)
    (state : List LevelState) : Bool :=
  match state[idx]? with
  | none => false
  | some st =>
    match L with
    | .leveling => st.reccnt + incomingRecCnt ≤ st.reccap
    | .bsm => st.reccnt = 0
    | .teiring => st.shardcnt < st.shardcap

/-- The new index is taken from the levels, not from the scratch state. -/
def grow (s : ExtensionStructure T L) (scratch : List LevelState) : Nat × List LevelState :=
  (s.levels.length,
    scratch ++ [⟨0, s.calcLevelRecordCapacity s.levels.length, 0, s.shardCapacity⟩])

def reccntAt (state : List LevelState) (idx : Nat) : Nat :=
  (state[idx]?.map LevelState.reccnt).getD 0

/-- `none` is the level index `-1`. The incoming count is always that of `idx`. -/
def findReconstructionTarget (L : LayoutPolicy) (idx : Nat) (state : List LevelState) :
    Option Nat :=
  if idx = 0 ∧ state.length = 0 then
    none
  else
    (List.range' (idx + 1) (state.length - (idx + 1))).find? fun i =>
      canReconstructWith L i (reccntAt state idx) state

/-- One turn of the planner's loop for LEVELING and TEIRING -/
def planLevel (L : LayoutPolicy) (i : Nat) (p : ReconstructionVector × List LevelState) :
    ReconstructionVector × List LevelState :=
  let baseReccnt := reccntAt p.2 (i - 1)
  let reconReccnt :=
    if L = .leveling ∧ canReconstructWith L i baseReccnt p.2 then
      baseReccnt + reccntAt p.2 i
    else
      baseReccnt
  let state := p.2.modify (i - 1) fun st => { st with reccnt := 0, shardcnt := 0 }
  let state := state.modify i fun st =>
    { st with
      reccnt := st.reccnt + baseReccnt
      shardcnt := if L = .teiring ∨ st.shardcnt = 0 then st.shardcnt + 1 else st.shardcnt }
  (p.1.addReconstruction (i - 1) i reconReccnt, state)

/-- `for (i = base_level; i > source_level; i--)` -/
def planDown (L : LayoutPolicy) (source : Nat) :
    Nat → ReconstructionVector × List LevelState → ReconstructionVector × List LevelState
  | 0, p => p
  | i + 1, p => if i + 1 > source then planDown L source i (planLevel L (i + 1) p) else p

/-- The planner's loop for BSM, which puts every level in one task -/
def gatherDown (source : Nat) :
    Nat → ReconstructionTask × Nat × List LevelState → ReconstructionTask × Nat × List LevelState
  | 0, p => p
  | i + 1, (task, baseReccnt, state) =>
    if i + 1 > source then
      let reconReccnt := reccntAt state i
      gatherDown source i (task.addSource i reconReccnt, baseReccnt + reconReccnt,
        state.modify i fun st => { st with reccnt := 0, shardcnt := 0 })
    else
      (task, baseReccnt, state)

def getReconstructionTasksFromLevel (s : ExtensionStructure T L) (source : Nat)
    (scratch : List LevelState) : ReconstructionVector × List LevelState :=
  let (base, state) :=
    match findReconstructionTarget L source scratch with
    | some i => (i, scratch)
    | none => s.grow scratch
  match L with
  | .bsm =>
    if base = 0 then
      (.empty, state)
    else
      let (task, baseReccnt, state) := gatherDown source base (⟨[], base, none⟩, 0, state)
      (ReconstructionVector.empty.addTask task,
        state.modify base fun st => { st with reccnt := baseReccnt, shardcnt := 1 })
  | _ => planDown L source base (.empty, state)

/-- The lookahead loop of the source runs once. -/
def getReconstructionTasks (s : ExtensionStructure T L) (bufferReccnt : Nat)
    (scratch : List LevelState) : ReconstructionVector :=
  let scratch := if scratch.length = 0 then s.currentState else scratch
  if canReconstructWith L 0 bufferReccnt scratch then
    .empty
  else
    (s.getReconstructionTasksFromLevel 0 scratch).1

/-- The level and the state entry that a missing base level is given -/
def addLevel (s : ExtensionStructure T L) (idx : Nat) : ExtensionStructure T L :=
  { s with
    levels := s.levels ++ [InternalLevel.new T idx s.shardCapacity]
    currentState := s.currentState ++ [⟨0, s.calcLevelRecordCapacity idx, 0, s.shardCapacity⟩] }

/-- What becomes of the base level: LEVELING merges into it or moves the
incoming level there, TEIRING appends the incoming level's shards as one. -/
def combine (L : LayoutPolicy) (base incoming : InternalLevel T) : Option (InternalLevel T) :=
  match L with
  | .leveling =>
    if base.getShardCount > 0 then InternalLevel.reconstruction base incoming else some incoming
  | _ => (base.appendLevel incoming).bind InternalLevel.finalize

/-- `reconstruction(base_level, incoming_level)`, LEVELING and TEIRING -/
def reconstruction (s : ExtensionStructure T L) (baseLevel incomingLevel : Nat) :
    Option (ExtensionStructure T L) := do
  let s := if baseLevel ≥ s.levels.length then s.addLevel baseLevel else s
  let base ← s.levels[baseLevel]?
  let incoming ← s.levels[incomingLevel]?
  let base ← combine L base incoming
  return { s with
    levels := (s.levels.set baseLevel base).set incomingLevel
      (InternalLevel.new T incomingLevel s.shardCapacity)
    currentState := (s.currentState.set baseLevel
      ⟨base.getRecordCount, s.calcLevelRecordCapacity baseLevel, base.getShardCount,
        s.shardCapacity⟩).set incomingLevel
      ⟨0, s.calcLevelRecordCapacity incomingLevel, 0, s.shardCapacity⟩ }

/-- A merged source level is replaced by an empty one with a single slot; its
state entry gets the target's record capacity. -/
def clearSource (s : ExtensionStructure T L) (target source : Nat) : ExtensionStructure T L :=
  { s with
    levels := s.levels.set source (InternalLevel.new T source 1)
    currentState := s.currentState.set source ⟨0, s.calcLevelRecordCapacity target, 0, 1⟩ }

/-- `reconstruction(task)`, BSM -/
def reconstructionTask (s : ExtensionStructure T L) (task : ReconstructionTask) :
    Option (ExtensionStructure T L) := do
  let levels ← task.sources.mapM (s.levels[·]?)
  let newLevel ← InternalLevel.reconstructionAll levels task.target
  let st : LevelState :=
    ⟨newLevel.getRecordCount, s.calcLevelRecordCapacity task.target, 1, 1⟩
  let s :=
    if task.target ≥ s.levels.length then
      { s with levels := s.levels ++ [newLevel], currentState := s.currentState ++ [st] }
    else
      { s with
        levels := s.levels.set task.target newLevel
        currentState := s.currentState.set task.target st }
  return task.sources.foldl (fun s i => s.clearSource task.target i) s

/-- Level 0 after the buffer: LEVELING puts the buffer in a level of its own and
merges that one with the old level 0 if there is something to merge. -/
def flushLevel (L : LayoutPolicy) (old : InternalLevel T) (buffer : BufferView R) :
    Option (InternalLevel T) :=
  match L with
  | .leveling => do
    let temp ← (InternalLevel.new T 0 1).appendBuffer buffer
    if old.getShardCount > 0 then InternalLevel.reconstruction old temp else some temp
  | _ => old.appendBuffer buffer

def flushBufferIntoL0 (s : ExtensionStructure T L) (buffer : BufferView R) :
    Option (ExtensionStructure T L) := do
  let s := if s.levels.length = 0 then s.addLevel 0 else s
  let old ← s.levels[0]?
  let level ← flushLevel L old buffer
  return { s with
    levels := s.levels.set 0 level
    currentState := s.currentState.modify 0 fun st =>
      { st with reccnt := level.getRecordCount, shardcnt := level.getShardCount } }

/-- A failed assertion is `none`. -/
def flushBuffer (s : ExtensionStructure T L) (buffer : BufferView R) :
    Option (ExtensionStructure T L) := do
  let tmp := if s.currentState.length = 0 then (s.grow s.currentState).2 else s.currentState
  guard (canReconstructWith L 0 buffer.getRecordCount tmp)
  let s ← s.flushBufferIntoL0 buffer
  return { s with flushSeq := s.flushSeq + 1 }

def checkpoint (s : ExtensionStructure T L) : Checkpoint T :=
  ⟨s.flushSeq, s.levels.map fun l => l.live.map T.file⟩

/-- One task as the framework's reconstruction job hands it over -/
def reconstructTask (s : ExtensionStructure T L) (task : ReconstructionTask) :
    Option (ExtensionStructure T L) :=
  match L with
  | .bsm => s.reconstructionTask task
  | _ => do
    let source ← task.sources[0]?
    s.reconstruction task.target source

/-- The tasks the reconstruction job runs: under BSM the first one only -/
def jobTasks (L : LayoutPolicy) (merges : ReconstructionVector) : List ReconstructionTask :=
  match L with
  | .bsm => merges.tasks.take 1
  | _ => merges.tasks

def reconstructTasks (s : ExtensionStructure T L) (tasks : List ReconstructionTask) :
    Option (ExtensionStructure T L) :=
  tasks.foldlM reconstructTask s

def roundTasks (s : ExtensionStructure T L) (hwm : Nat) : List ReconstructionTask :=
  jobTasks L (s.copy.getReconstructionTasks hwm [])

/-- From one epoch to the next: copy, plan, reconstruct, flush -/
def round (s : ExtensionStructure T L) (hwm : Nat) (buffer : BufferView R) :
    Option (ExtensionStructure T L) := do
  let vers ← s.copy.reconstructTasks (s.roundTasks hwm)
  vers.flushBuffer buffer

def rounds (s : ExtensionStructure T L) (hwm : Nat) (buffers : List (BufferView R)) :
    Option (ExtensionStructure T L) :=
  buffers.foldlM (fun s buffer => s.round hwm buffer) s

def shards (s : ExtensionStructure T L) : Multiset T.Shard :=
  (s.levels.map fun l => (l.live : Multiset T.Shard)).sum

/-- The signed multiset over all levels -/
def net (s : ExtensionStructure T L) : R → ℤ := (s.levels.map InternalLevel.net).sum

end ExtensionStructure

end De
