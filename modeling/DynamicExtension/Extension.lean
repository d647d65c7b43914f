import DynamicExtension.Reload
import DynamicExtension.MutableBuffer
set_option autoImplicit false

namespace De
variable {R : Type} [DecidableEq R] {T : ShardType R} {L : LayoutPolicy}

structure Epoch (T : ShardType R) (L : LayoutPolicy) where
  number : Nat
  vers : ExtensionStructure T L
  bufferHead : Nat

def Epoch.clone (e : Epoch T L) (number : Nat) : Epoch T L :=
  ⟨number, e.vers.copy, e.bufferHead⟩

/-- The view that `get_buffer` takes -/
def Epoch.view (e : Epoch T L) (b : MutableBuffer R) : BufferView R := b.viewFrom e.bufferHead

/-- `epoch_ptr`; epochs are told apart by their numbers instead of their addresses. -/
structure EpochPtr (T : ShardType R) (L : LayoutPolicy) where
  epoch : Option (Epoch T L)
  refcnt : Nat

/-- The framework under the serial scheduler, which runs a job where it is
scheduled. `none` as a result is a failed assertion or an endless wait. -/
structure DynamicExtension (T : ShardType R) (L : LayoutPolicy) where
  buffer : MutableBuffer R
  reconstructionScheduled : Bool
  epochCnt : Nat
  nextEpoch : EpochPtr T L
  currentEpoch : EpochPtr T L
  previousEpoch : EpochPtr T L

namespace DynamicExtension

section Defs
variable [Zero R]

/-- The constructor on the checkpoint and the log that it finds -/
def new (T : ShardType R) (L : LayoutPolicy) (lwm hwm scale : Nat)
    (checkpoint : Option (Checkpoint T)) (log : Option (List (WALEntry R))) :
    Option (DynamicExtension T L) := do
  let buffer ← MutableBuffer.new lwm hwm log
  guard (L = .bsm → scale = 2)
  let vers ← ExtensionStructure.ofCheckpoint T L hwm scale checkpoint
  return ⟨buffer, false, 0, ⟨none, 0⟩, ⟨some ⟨0, vers, 0⟩, 0⟩, ⟨none, 0⟩⟩

omit [Zero R] in
def getActiveEpoch (d : DynamicExtension T L) : Option (Epoch T L × DynamicExtension T L) :=
  match d.currentEpoch.epoch with
  | none => d.previousEpoch.epoch.map fun e =>
      (e, { d with previousEpoch := ⟨some e, d.previousEpoch.refcnt + 1⟩ })
  | some e => some (e, { d with currentEpoch := ⟨some e, d.currentEpoch.refcnt + 1⟩ })

omit [Zero R] in
def endJob (d : DynamicExtension T L) (epoch : Epoch T L) : Option (DynamicExtension T L) := do
  if d.previousEpoch.epoch.map Epoch.number = some epoch.number then
    guard (d.previousEpoch.refcnt > 0)
    return { d with previousEpoch := { d.previousEpoch with refcnt := d.previousEpoch.refcnt - 1 } }
  else
    guard d.currentEpoch.epoch.isSome
    guard (d.currentEpoch.refcnt > 0)
    return { d with currentEpoch := { d.currentEpoch with refcnt := d.currentEpoch.refcnt - 1 } }

omit [Zero R] in
def createNewEpoch (d : DynamicExtension T L) : Option (DynamicExtension T L) := do
  guard d.nextEpoch.epoch.isNone
  let (current, d) ← d.getActiveEpoch
  let d := { d with epochCnt := d.epochCnt + 1 }
  let d := { d with nextEpoch := ⟨some (current.clone d.epochCnt), 0⟩ }
  d.endJob current

omit [Zero R] in
/-- `retire_epoch` of the previous epoch -/
def retireEpoch (d : DynamicExtension T L) : Option (DynamicExtension T L) := do
  if d.previousEpoch.epoch.isNone then
    return d
  guard (d.previousEpoch.refcnt = 0)
  return { d with previousEpoch := ⟨none, 0⟩ }

def advanceEpoch (d : DynamicExtension T L) (bufferHead : Nat) :
    Option (DynamicExtension T L) := do
  let d ← d.retireEpoch
  let d := { d with currentEpoch := ⟨none, 0⟩, previousEpoch := d.currentEpoch }
  let next ← d.nextEpoch.epoch
  let (advanced, buffer) ← d.buffer.advanceHead bufferHead
  guard advanced
  return { d with
    buffer := buffer
    currentEpoch := ⟨some { next with bufferHead := bufferHead }, d.nextEpoch.refcnt⟩
    nextEpoch := ⟨none, 0⟩ }

/-- The reconstruction job, on the next epoch -/
def reconstruction (d : DynamicExtension T L) (merges : ReconstructionVector) :
    Option (DynamicExtension T L) := do
  let epoch ← d.nextEpoch.epoch
  let vers ← epoch.vers.reconstructTasks (ExtensionStructure.jobTasks L merges)
  let (bufferView, buffer) ← d.buffer.getBufferView epoch.bufferHead
  let newHead := bufferView.tail
  let vers ← vers.flushBuffer bufferView
  let buffer ← buffer.releaseHeadReference bufferView.head
  let d := { d with
    buffer := buffer
    nextEpoch := ⟨some { epoch with vers := vers }, d.nextEpoch.refcnt⟩ }
  let d ← d.advanceEpoch newHead
  return { d with reconstructionScheduled := false }

def scheduleReconstruction (d : DynamicExtension T L) : Option (DynamicExtension T L) := do
  let d ← d.createNewEpoch
  let epoch ← d.nextEpoch.epoch
  d.reconstruction (epoch.vers.getReconstructionTasks d.buffer.getHighWatermark [])

def internalAppend (d : DynamicExtension T L) (rec : R) (ts logging : Bool) :
    Option (Nat × DynamicExtension T L) := do
  let d ←
    if d.buffer.isAtLowWatermark ∧ d.reconstructionScheduled = false then
      scheduleReconstruction { d with reconstructionScheduled := true }
    else
      some d
  let (ret, buffer) := d.buffer.append rec ts logging
  return (ret, { d with buffer := buffer })

def insert (d : DynamicExtension T L) (rec : R) (logging : Bool) :
    Option (Nat × DynamicExtension T L) := d.internalAppend rec false logging

/-- `erase` under the TOMBSTONE policy -/
def erase (d : DynamicExtension T L) (rec : R) (logging : Bool) :
    Option (Nat × DynamicExtension T L) := d.internalAppend rec true logging

end Defs

/-- Between two calls: `e` is the active epoch, held `pins` times, the epoch
before it is held `oldPins` times, and nobody holds a view. -/
structure Idle (d : DynamicExtension T L) (e : Epoch T L) (pins oldPins : Nat) : Prop where
  next : d.nextEpoch = ⟨none, 0⟩
  current : d.currentEpoch = ⟨some e, pins⟩
  previous : d.previousEpoch.refcnt = oldPins
  number : ∀ p, d.previousEpoch.epoch = some p → p.number < e.number
  number_le : e.number ≤ d.epochCnt
  head : d.buffer.head = ⟨e.bufferHead, 0⟩
  oldHead : d.buffer.oldHead.refcnt = 0
  apart : d.buffer.oldHead.headIdx ≠ e.bufferHead
  formed : d.buffer.Formed

/-- The state after a reconstruction that made the structure `s` -/
def flushed [Zero R] (d : DynamicExtension T L) (e : Epoch T L) (s : ExtensionStructure T L) :
    DynamicExtension T L where
  buffer := { d.buffer with
    head := ⟨d.buffer.tail, 0⟩
    oldHead := ⟨e.bufferHead, 0⟩
    wal := d.buffer.wal.map fun w => w.flushBegin.flushComplete }
  reconstructionScheduled := false
  epochCnt := d.epochCnt + 1
  nextEpoch := ⟨none, 0⟩
  currentEpoch := ⟨some ⟨d.epochCnt + 1, s, d.buffer.tail⟩, 0⟩
  previousEpoch := d.currentEpoch

section Serial
variable {d : DynamicExtension T L} {e : Epoch T L} {pins oldPins : Nat}

theorem Idle.getActiveEpoch (h : Idle d e pins oldPins) :
    d.getActiveEpoch = some (e, { d with currentEpoch := ⟨some e, pins + 1⟩ }) := by
  simp [DynamicExtension.getActiveEpoch, h.current]

theorem Idle.previous_ne (h : Idle d e pins oldPins) :
    d.previousEpoch.epoch.map Epoch.number ≠ some e.number := by
  intro hn
  obtain ⟨p, hp, hpn⟩ := Option.map_eq_some_iff.mp hn
  have := h.number p hp
  omega

theorem Idle.endJob (h : Idle d e pins oldPins) {x : DynamicExtension T L}
    (hp : x.previousEpoch = d.previousEpoch) {n : Nat} (hc : x.currentEpoch = ⟨some e, n + 1⟩) :
    x.endJob e = some { x with currentEpoch := ⟨some e, n⟩ } := by
  have hne : x.previousEpoch.epoch.map Epoch.number ≠ some e.number := hp ▸ h.previous_ne
  simp only [DynamicExtension.endJob, if_neg hne, hc, guard]
  rfl

theorem Idle.endJob_active (h : Idle d e pins oldPins) :
    DynamicExtension.endJob { d with currentEpoch := ⟨some e, pins + 1⟩ } e = some d := by
  rw [h.endJob (x := { d with currentEpoch := ⟨some e, pins + 1⟩ }) rfl rfl]
  simp only [← h.current]

theorem endJob_previous {p : Epoch T L} {n : Nat} (hp : d.previousEpoch = ⟨some p, n + 1⟩) :
    d.endJob p = some { d with previousEpoch := ⟨some p, n⟩ } := by
  simp [DynamicExtension.endJob, hp, guard]

theorem createNewEpoch_eq {n : Nat} (hn : d.nextEpoch.epoch = none)
    (hc : d.currentEpoch = ⟨some e, n⟩)
    (hp : d.previousEpoch.epoch.map Epoch.number ≠ some e.number) :
    d.createNewEpoch = some { d with
      epochCnt := d.epochCnt + 1
      nextEpoch := ⟨some (e.clone (d.epochCnt + 1)), 0⟩ } := by
  have hactive : d.getActiveEpoch = some (e, { d with currentEpoch := ⟨some e, n + 1⟩ }) := by
    simp [DynamicExtension.getActiveEpoch, hc]
  have hend : ∀ x : DynamicExtension T L, x.previousEpoch = d.previousEpoch →
      x.currentEpoch = ⟨some e, n + 1⟩ →
      x.endJob e = some { x with currentEpoch := d.currentEpoch } := by
    intro x hxp hxc
    rw [← hxp] at hp
    simp only [DynamicExtension.endJob, if_neg hp, hxc, hc, guard]
    rfl
  simp only [DynamicExtension.createNewEpoch, hactive, hn, guard, Option.isNone_none, if_true,
    Option.bind_eq_bind, Option.pure_def, Option.bind_some]
  exact hend _ rfl rfl

theorem Idle.createNewEpoch (h : Idle d e pins oldPins) :
    d.createNewEpoch = some { d with
      epochCnt := d.epochCnt + 1
      nextEpoch := ⟨some (e.clone (d.epochCnt + 1)), 0⟩ } :=
  createNewEpoch_eq (by rw [h.next]) h.current h.previous_ne

theorem Idle.getBufferView (h : Idle d e pins oldPins) :
    d.buffer.getBufferView e.bufferHead =
      some (e.view d.buffer, { d.buffer with head := ⟨e.bufferHead, 1⟩ }) := by
  simp [MutableBuffer.getBufferView, MutableBuffer.getHead, h.apart, h.head, Epoch.view,
    MutableBuffer.viewFrom]

theorem Idle.releaseHeadReference (h : Idle d e pins oldPins) :
    MutableBuffer.releaseHeadReference { d.buffer with head := ⟨e.bufferHead, 1⟩ } e.bufferHead =
      some d.buffer := by
  have hb : ({ d.buffer with head := ⟨e.bufferHead, 0⟩ } : MutableBuffer R) = d.buffer := by
    rw [← h.head]
  simp [MutableBuffer.releaseHeadReference, h.apart, guard, hb]

theorem Idle.retireEpoch (h : Idle d e pins 0) (n : Nat) (next : EpochPtr T L) :
    ∃ d', DynamicExtension.retireEpoch { d with epochCnt := n, nextEpoch := next } = some d' ∧
      d' = { d with epochCnt := n, nextEpoch := next, previousEpoch := d'.previousEpoch } := by
  by_cases hp : d.previousEpoch.epoch.isNone
  · exact ⟨_, if_pos hp, rfl⟩
  · refine ⟨{ d with epochCnt := n, nextEpoch := next, previousEpoch := ⟨none, 0⟩ }, ?_, rfl⟩
    simp [DynamicExtension.retireEpoch, hp, h.previous, guard]

theorem Idle.advanceEpoch [Zero R] (h : Idle d e pins 0) (hpos : 0 < d.buffer.getRecordCount)
    (n : Nat) (next : Epoch T L) :
    DynamicExtension.advanceEpoch
        { d with epochCnt := n, nextEpoch := ⟨some next, 0⟩ } d.buffer.tail =
      some { d.flushed e next.vers with
        epochCnt := n
        reconstructionScheduled := d.reconstructionScheduled
        currentEpoch := ⟨some ⟨next.number, next.vers, d.buffer.tail⟩, 0⟩ } := by
  obtain ⟨d', hd', heq⟩ := h.retireEpoch n ⟨some next, 0⟩
  rw [DynamicExtension.advanceEpoch, hd', heq]
  simp [MutableBuffer.advanceHead_tail hpos h.oldHead, h.current, h.head, flushed, guard]

theorem Idle.scheduleReconstruction_eq [Zero R] (h : Idle d e pins oldPins) :
    DynamicExtension.scheduleReconstruction d =
      (e.vers.round d.buffer.hwm (e.view d.buffer)).bind fun v =>
        (DynamicExtension.advanceEpoch { d with
          epochCnt := d.epochCnt + 1
          nextEpoch := ⟨some ⟨d.epochCnt + 1, v, e.bufferHead⟩, 0⟩ } d.buffer.tail).map
          fun d => { d with reconstructionScheduled := false } := by
  have htasks : ExtensionStructure.jobTasks L
      ((e.clone (d.epochCnt + 1)).vers.getReconstructionTasks d.buffer.getHighWatermark []) =
      e.vers.roundTasks d.buffer.hwm := rfl
  have hround : e.vers.round d.buffer.hwm (e.view d.buffer) =
      ((e.clone (d.epochCnt + 1)).vers.reconstructTasks (e.vers.roundTasks d.buffer.hwm)).bind
        fun v => v.flushBuffer (e.view d.buffer) := rfl
  simp only [DynamicExtension.scheduleReconstruction, h.createNewEpoch, reconstruction, htasks,
    Option.bind_eq_bind, Option.pure_def, Option.bind_some, hround]
  cases (e.clone (d.epochCnt + 1)).vers.reconstructTasks (e.vers.roundTasks d.buffer.hwm) with
  | none => rfl
  | some v =>
    have hview : d.buffer.getBufferView (e.clone (d.epochCnt + 1)).bufferHead = _ :=
      h.getBufferView
    simp only [Option.bind_some, hview]
    cases v.flushBuffer (e.view d.buffer) with
    | none => rfl
    | some v =>
      have hrel : MutableBuffer.releaseHeadReference
          { d.buffer with head := ⟨e.bufferHead, 1⟩ } (e.view d.buffer).head = _ :=
        h.releaseHeadReference
      simp only [Option.bind_some, hrel]
      rw [Option.map_eq_bind]
      rfl

theorem Idle.scheduleReconstruction [Zero R] (h : Idle d e pins 0)
    (hpos : 0 < d.buffer.getRecordCount) :
    DynamicExtension.scheduleReconstruction d =
      (e.vers.round d.buffer.hwm (e.view d.buffer)).map (d.flushed e) := by
  rw [h.scheduleReconstruction_eq]
  cases e.vers.round d.buffer.hwm (e.view d.buffer) with
  | none => rfl
  | some v =>
    rw [Option.bind_some, h.advanceEpoch hpos, Option.map_some, Option.map_some]
    rfl

theorem Idle.scheduleReconstruction_held [Zero R] (h : Idle d e pins oldPins)
    (hp : d.previousEpoch.epoch.isSome) (hheld : 0 < oldPins) :
    DynamicExtension.scheduleReconstruction d = none := by
  have hret : ∀ n next, DynamicExtension.retireEpoch
      { d with epochCnt := n, nextEpoch := next } = none := by
    intro n next
    have hnone : d.previousEpoch.epoch.isNone = false := by
      simpa [Option.isNone_iff_eq_none, Option.isSome_iff_ne_none] using hp
    have hne : ¬ d.previousEpoch.refcnt = 0 := by
      rw [h.previous]
      omega
    simp [DynamicExtension.retireEpoch, hnone, hne, guard]
  rw [h.scheduleReconstruction_eq]
  cases e.vers.round d.buffer.hwm (e.view d.buffer) with
  | none => rfl
  | some v =>
    rw [Option.bind_some, DynamicExtension.advanceEpoch, hret]
    rfl

theorem Idle.flushed [Zero R] (h : Idle d e pins oldPins) (hpos : 0 < d.buffer.getRecordCount)
    (s : ExtensionStructure T L) :
    Idle (d.flushed e s) ⟨d.epochCnt + 1, s, d.buffer.tail⟩ 0 pins := by
  have hhead : d.buffer.head.headIdx = e.bufferHead := by rw [h.head]
  have hlt : e.bufferHead < d.buffer.tail := by
    simp only [MutableBuffer.getRecordCount, hhead] at hpos
    omega
  refine ⟨rfl, rfl, ?_, fun p hp => ?_, le_rfl, rfl, rfl, hlt.ne, ?_⟩
  · simp [DynamicExtension.flushed, h.current]
  · simp only [DynamicExtension.flushed, h.current] at hp
    obtain rfl : e = p := Option.some.inj hp
    exact Nat.lt_succ_of_le h.number_le
  · refine ⟨le_rfl, ?_, h.formed.hwm_lt_cap⟩
    simp [MutableBuffer.getRecordCount, DynamicExtension.flushed]

theorem Idle.schedule (h : Idle d e pins oldPins) (b : Bool) :
    Idle { d with reconstructionScheduled := b } e pins oldPins :=
  ⟨h.next, h.current, h.previous, h.number, h.number_le, h.head, h.oldHead, h.apart, h.formed⟩

theorem Idle.append [Zero R] (h : Idle d e pins oldPins)
    (hroom : d.buffer.getRecordCount < d.buffer.hwm)
    (hs : d.buffer.SlotOk) (rec : R) (ts logging : Bool) :
    ∃ b, d.buffer.append rec ts logging = (1, b) ∧ Idle { d with buffer := b } e pins oldPins ∧
      d.buffer.Appended rec ts logging b := by
  obtain ⟨b, hb, ha⟩ := MutableBuffer.append_spec h.formed hroom hs rec ts logging
  exact ⟨b, hb, ⟨h.next, h.current, h.previous, h.number, h.number_le, ha.head.trans h.head,
    ha.oldHead ▸ h.oldHead, ha.oldHead ▸ h.apart, ha.formed⟩, ha⟩

theorem internalAppend_low [Zero R] (hlow : d.buffer.getRecordCount < d.buffer.lwm) (rec : R)
    (ts logging : Bool) :
    d.internalAppend rec ts logging = some ((d.buffer.append rec ts logging).1,
      { d with buffer := (d.buffer.append rec ts logging).2 }) := by
  have hat : ¬ (d.buffer.isAtLowWatermark ∧ d.reconstructionScheduled = false) := by
    simp only [MutableBuffer.isAtLowWatermark, decide_eq_true_eq]
    omega
  simp [internalAppend, if_neg hat]

theorem Idle.internalAppend_flush [Zero R] (h : Idle d e pins 0)
    (hsch : d.reconstructionScheduled = false) (hpos : 0 < d.buffer.lwm)
    (hlow : d.buffer.lwm ≤ d.buffer.getRecordCount) (rec : R) (ts logging : Bool) :
    d.internalAppend rec ts logging =
      (((e.vers.round d.buffer.hwm (e.view d.buffer)).map (d.flushed e)).map fun d =>
        ((d.buffer.append rec ts logging).1,
          { d with buffer := (d.buffer.append rec ts logging).2 })) := by
  have hat : d.buffer.isAtLowWatermark ∧ d.reconstructionScheduled = false := by
    simp [MutableBuffer.isAtLowWatermark, hlow, hsch]
  have hround := (h.schedule true).scheduleReconstruction (hpos.trans_le hlow)
  simp only [internalAppend, if_pos hat, hround, Option.map_map]
  cases e.vers.round d.buffer.hwm (e.view d.buffer) <;> rfl

theorem Idle.flushed_room [Zero R] (h : Idle d e pins oldPins)
    (hpos : 0 < d.buffer.getRecordCount) (s : ExtensionStructure T L) :
    (d.flushed e s).buffer.getRecordCount < (d.flushed e s).buffer.hwm := by
  have hhwm : 0 < d.buffer.hwm := hpos.trans_le h.formed.count_le
  simpa [MutableBuffer.getRecordCount, DynamicExtension.flushed] using hhwm

theorem Idle.internalAppend_below [Zero R] (h : Idle d e pins oldPins)
    (hlow : d.buffer.getRecordCount < d.buffer.lwm) (hle : d.buffer.lwm ≤ d.buffer.hwm)
    (hs : d.buffer.SlotOk) (rec : R) (ts logging : Bool) :
    ∃ b, d.internalAppend rec ts logging = some (1, { d with buffer := b }) ∧
      Idle { d with buffer := b } e pins oldPins ∧ d.buffer.Appended rec ts logging b := by
  obtain ⟨b, hb, hi, ha⟩ := h.append (by omega) hs rec ts logging
  exact ⟨b, by rw [internalAppend_low hlow, hb], hi, ha⟩

theorem Idle.internalAppend_at [Zero R] (h : Idle d e pins 0)
    (hsch : d.reconstructionScheduled = false) (hpos : 0 < d.buffer.lwm)
    (hlow : d.buffer.lwm ≤ d.buffer.getRecordCount)
    (hs : d.buffer.SlotOk) (rec : R) (ts logging : Bool) :
    (e.vers.round d.buffer.hwm (e.view d.buffer) = none →
      d.internalAppend rec ts logging = none) ∧
    ∀ s, e.vers.round d.buffer.hwm (e.view d.buffer) = some s →
      ∃ b, d.internalAppend rec ts logging = some (1, { d.flushed e s with buffer := b }) ∧
        Idle { d.flushed e s with buffer := b } ⟨d.epochCnt + 1, s, d.buffer.tail⟩ 0 pins ∧
        (d.flushed e s).buffer.Appended rec ts logging b := by
  have hrun := h.internalAppend_flush hsch hpos hlow rec ts logging
  have hpos' : 0 < d.buffer.getRecordCount := by omega
  refine ⟨fun hnone => by simp [hrun, hnone], fun s hs' => ?_⟩
  obtain ⟨b, hb, hi, ha⟩ := (h.flushed hpos' s).append (h.flushed_room hpos' s) hs rec ts logging
  exact ⟨b, by simp [hrun, hs', hb], hi, ha⟩

theorem Idle.internalAppend_held [Zero R] (h : Idle d e pins oldPins)
    (hsch : d.reconstructionScheduled = false) (hat : d.buffer.isAtLowWatermark)
    (hp : d.previousEpoch.epoch.isSome) (hheld : 0 < oldPins) (rec : R) (ts logging : Bool) :
    d.internalAppend rec ts logging = none := by
  have hfail := (h.schedule true).scheduleReconstruction_held hp hheld
  simp [internalAppend, hat, hsch, hfail]

end Serial

end DynamicExtension

end De
