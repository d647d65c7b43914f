import DynamicExtension.Library.Traced
import DynamicExtension.SerialRun
set_option autoImplicit false

namespace De
variable {R : Type} [DecidableEq R] {T : ShardType R} {L : LayoutPolicy}

/-- A write that outlives the process. Shard files are left out: each gets a name of
its own, which a start looks up only once a checkpoint lists it. -/
inductive DurableStep (T : ShardType R) where
  | saveCheckpoint (checkpoint : Checkpoint T)
  | pwrite (lsn : Nat) (entry : WALEntry R)
  | ftruncate

/-- The files that a start reads -/
structure Disk (T : ShardType R) where
  checkpoint : Option (Checkpoint T)
  log : List (WALEntry R)

namespace Disk

def empty : Disk T := ⟨none, []⟩

def step [Zero R] (disk : Disk T) : DurableStep T → Disk T
  | .saveCheckpoint c => { disk with checkpoint := some c }
  | .pwrite lsn entry => { disk with log := WriteAheadLogger.pwrite disk.log lsn entry }
  | .ftruncate => { disk with log := [] }

def after [Zero R] (disk : Disk T) (steps : List (DurableStep T)) : Disk T :=
  steps.foldl step disk

theorem after_append [Zero R] (disk : Disk T) (as bs : List (DurableStep T)) :
    disk.after (as ++ bs) = (disk.after as).after bs := List.foldl_append

end Disk

/-! The calls once more, with their durable steps in program order. -/

namespace WriteAheadLogger
variable [Zero R]

def writeTraced (w : WriteAheadLogger R) (entry : WALEntry R) :
    Traced (DurableStep T) (WriteAheadLogger R) := do
  .step (.pwrite w.lsn entry)
  return w.write entry

def truncateTraced (w : WriteAheadLogger R) : Traced (DurableStep T) (WriteAheadLogger R) := do
  .step .ftruncate
  return w.truncate

def flushBeginTraced (w : WriteAheadLogger R) : Traced (DurableStep T) (WriteAheadLogger R) :=
  w.writeTraced ⟨.flushB, 0⟩

def flushCompleteTraced (w : WriteAheadLogger R) :
    Traced (DurableStep T) (WriteAheadLogger R) := do
  let w ← w.writeTraced ⟨.flushC, 0⟩
  let truncated ← w.truncateTraced
  (remaining false w.file).foldlM writeTraced truncated

end WriteAheadLogger

namespace ExtensionStructure

def reconstructTaskTraced (s : ExtensionStructure T L) (task : ReconstructionTask) :
    Traced (DurableStep T) (ExtensionStructure T L) := do
  let s ← .ofOption (s.reconstructTask task)
  .step (.saveCheckpoint s.checkpoint)
  return s

def flushBufferTraced (s : ExtensionStructure T L) (buffer : BufferView R) :
    Traced (DurableStep T) (ExtensionStructure T L) := do
  let s ← .ofOption (s.flushBuffer buffer)
  .step (.saveCheckpoint s.checkpoint)
  return s

end ExtensionStructure

namespace MutableBuffer
variable [Zero R]

def appendTraced (b : MutableBuffer R) (rec : R) (tombstone logging : Bool) :
    Traced (DurableStep T) (Nat × MutableBuffer R) :=
  match b.tryAdvanceTail with
  | none => pure (0, b)
  | some (tail, b) =>
    if toInt32 tail = -1#32 then pure (0, b)
    else do
      let wal ←
        if logging then .onSome (·.writeTraced ⟨.insert, Wrapped.fresh rec tombstone⟩) b.wal
        else pure b.wal
      let pos := b.slot tail
      return (1, { b with
        wal := wal
        data := Function.update b.data pos (slotContent rec tombstone pos)
        tscnt := if tombstone then b.tscnt + 1 else b.tscnt })

def advanceHeadTraced (b : MutableBuffer R) (newHead : Nat) :
    Traced (DurableStep T) (Bool × MutableBuffer R) := do
  .ofOption (guard (newHead > b.head.headIdx))
  .ofOption (guard (newHead ≤ b.tail))
  if b.oldHead.refcnt > 0 then
    return (false, b)
  else
    let wal ← .onSome (fun w => do (← w.flushBeginTraced).flushCompleteTraced) b.wal
    return (true, { b with
      head := ⟨newHead, 0⟩
      oldHead := b.head
      wal := wal })

end MutableBuffer

namespace DynamicExtension
variable [Zero R]

def advanceEpochTraced (d : DynamicExtension T L) (bufferHead : Nat) :
    Traced (DurableStep T) (DynamicExtension T L) := do
  let d ← .ofOption d.retireEpoch
  let d := { d with currentEpoch := ⟨none, 0⟩, previousEpoch := d.currentEpoch }
  let next ← .ofOption d.nextEpoch.epoch
  let (advanced, buffer) ← d.buffer.advanceHeadTraced bufferHead
  .ofOption (guard advanced)
  return { d with
    buffer := buffer
    currentEpoch := ⟨some { next with bufferHead := bufferHead }, d.nextEpoch.refcnt⟩
    nextEpoch := ⟨none, 0⟩ }

def reconstructionTraced (d : DynamicExtension T L) (merges : ReconstructionVector) :
    Traced (DurableStep T) (DynamicExtension T L) := do
  let epoch ← .ofOption d.nextEpoch.epoch
  let vers ← (ExtensionStructure.jobTasks L merges).foldlM
    ExtensionStructure.reconstructTaskTraced epoch.vers
  let (bufferView, buffer) ← .ofOption (d.buffer.getBufferView epoch.bufferHead)
  let newHead := bufferView.tail
  let vers ← vers.flushBufferTraced bufferView
  let buffer ← .ofOption (buffer.releaseHeadReference bufferView.head)
  let d := { d with
    buffer := buffer
    nextEpoch := ⟨some { epoch with vers := vers }, d.nextEpoch.refcnt⟩ }
  let d ← d.advanceEpochTraced newHead
  return { d with reconstructionScheduled := false }

def scheduleReconstructionTraced (d : DynamicExtension T L) :
    Traced (DurableStep T) (DynamicExtension T L) := do
  let d ← .ofOption d.createNewEpoch
  let epoch ← .ofOption d.nextEpoch.epoch
  d.reconstructionTraced (epoch.vers.getReconstructionTasks d.buffer.getHighWatermark [])

def internalAppendTraced (d : DynamicExtension T L) (rec : R) (ts logging : Bool) :
    Traced (DurableStep T) (Nat × DynamicExtension T L) := do
  let d ←
    if d.buffer.isAtLowWatermark ∧ d.reconstructionScheduled = false then
      scheduleReconstructionTraced { d with reconstructionScheduled := true }
    else
      pure d
  let (ret, buffer) ← d.buffer.appendTraced rec ts logging
  return (ret, { d with buffer := buffer })

def callTraced (logging : Bool) (d : DynamicExtension T L) (c : Call R) :
    Traced (DurableStep T) (Nat × DynamicExtension T L) :=
  d.internalAppendTraced c.record c.tombstone logging

def runTraced (logging : Bool) (d : DynamicExtension T L) (calls : List (Call R)) :
    Traced (DurableStep T) (DynamicExtension T L) :=
  calls.foldlM (fun d c => do return (← d.callTraced logging c).2) d

end DynamicExtension

/-! Without the steps these are the calls. -/

namespace WriteAheadLogger
variable [Zero R] (w : WriteAheadLogger R)

@[simp] theorem result_writeTraced (entry : WALEntry R) :
    (w.writeTraced entry : Traced (DurableStep T) _).result = some (w.write entry) := rfl

@[simp] theorem result_flushBeginTraced :
    (w.flushBeginTraced : Traced (DurableStep T) _).result = some w.flushBegin := rfl

@[simp] theorem result_flushCompleteTraced :
    (w.flushCompleteTraced : Traced (DurableStep T) _).result = some w.flushComplete := by
  simp only [flushCompleteTraced, Traced.result_bind, result_writeTraced, Option.bind_some,
    Traced.result_foldlM]
  exact List.foldlM_pure

end WriteAheadLogger

namespace ExtensionStructure

@[simp] theorem result_reconstructTaskTraced (s : ExtensionStructure T L)
    (task : ReconstructionTask) : (s.reconstructTaskTraced task).result =
    s.reconstructTask task := by
  simp [reconstructTaskTraced]

@[simp] theorem result_reconstructTasksTraced (s : ExtensionStructure T L)
    (tasks : List ReconstructionTask) :
    (tasks.foldlM reconstructTaskTraced s).result = s.reconstructTasks tasks := by
  simp only [Traced.result_foldlM, result_reconstructTaskTraced]
  rfl

@[simp] theorem result_flushBufferTraced (s : ExtensionStructure T L) (buffer : BufferView R) :
    (s.flushBufferTraced buffer).result = s.flushBuffer buffer := by
  simp [flushBufferTraced]

end ExtensionStructure

namespace MutableBuffer
variable [Zero R] (b : MutableBuffer R)

@[simp] theorem result_appendTraced (rec : R) (tombstone logging : Bool) :
    (b.appendTraced rec tombstone logging : Traced (DurableStep T) _).result =
      some (b.append rec tombstone logging) := by
  unfold appendTraced append
  cases b.tryAdvanceTail with
  | none => rfl
  | some p =>
    by_cases hfull : toInt32 p.1 = -1#32
    · simp only [if_pos hfull, Traced.result_pure]
    · cases logging with
      | false => simp only [if_neg hfull, Bool.false_eq_true, if_false, Traced.result_bind,
          Traced.result_pure, Option.bind_some]
      | true =>
        have hwal := Traced.result_onSome
          (fun w => WriteAheadLogger.result_writeTraced (T := T) w
            ⟨.insert, Wrapped.fresh rec tombstone⟩)
          p.2.wal
        simp only [if_neg hfull, if_true, Traced.result_bind, hwal]
        rfl

@[simp] theorem result_advanceHeadTraced (newHead : Nat) :
    (b.advanceHeadTraced newHead : Traced (DurableStep T) _).result = b.advanceHead newHead := by
  have hwal : (Traced.onSome (fun w => do (← w.flushBeginTraced).flushCompleteTraced) b.wal :
      Traced (DurableStep T) _).result = some (b.wal.map fun w => w.flushBegin.flushComplete) :=
    Traced.result_onSome (fun w => w.flushBegin.result_flushCompleteTraced) b.wal
  unfold advanceHeadTraced advanceHead
  split <;> simp [hwal]

end MutableBuffer

namespace DynamicExtension
variable [Zero R] (d : DynamicExtension T L)

@[simp] theorem result_advanceEpochTraced (bufferHead : Nat) :
    (d.advanceEpochTraced bufferHead).result = d.advanceEpoch bufferHead := by
  simp [advanceEpochTraced, advanceEpoch]

@[simp] theorem result_reconstructionTraced (merges : ReconstructionVector) :
    (d.reconstructionTraced merges).result = d.reconstruction merges := by
  simp [reconstructionTraced, reconstruction]

@[simp] theorem result_scheduleReconstructionTraced :
    d.scheduleReconstructionTraced.result = d.scheduleReconstruction := by
  simp [scheduleReconstructionTraced, scheduleReconstruction]

@[simp] theorem result_internalAppendTraced (rec : R) (ts logging : Bool) :
    (d.internalAppendTraced rec ts logging).result = d.internalAppend rec ts logging := by
  unfold internalAppendTraced internalAppend
  split <;> simp

theorem result_callTraced (logging : Bool) (c : Call R) :
    (d.callTraced logging c).result = d.call logging c := by
  rw [callTraced, result_internalAppendTraced, call_eq]

theorem result_runTraced (logging : Bool) (calls : List (Call R)) :
    (d.runTraced logging calls).result = d.run logging calls := by
  rw [runTraced, Traced.result_foldlM, run]
  congr 1
  funext d c
  rw [Traced.result_bind, result_callTraced, Option.map_eq_bind]
  rfl

theorem steps_runTraced_append (logging : Bool) {pre : List (Call R)} {d' : DynamicExtension T L}
    (hrun : d.run logging pre = some d') (post : List (Call R)) :
    (d.runTraced logging (pre ++ post)).steps =
      (d.runTraced logging pre).steps ++ (d'.runTraced logging post).steps :=
  Traced.foldlM_append _ pre post ((d.result_runTraced logging pre).trans hrun)

theorem steps_runTraced_singleton (logging : Bool) (c : Call R) :
    (d.runTraced logging [c]).steps = (d.callTraced logging c).steps := by
  rw [runTraced, List.foldlM_cons]
  cases h : (d.callTraced logging c).result with
  | none =>
    rw [Traced.steps_bind_none (by rw [Traced.result_bind, h]; rfl), Traced.steps_bind_none h]
  | some p =>
    rw [Traced.steps_bind_some (by rw [Traced.result_bind, h]; rfl), Traced.steps_bind_some h]
    simp

end DynamicExtension

end De
