import DynamicExtension.DurableSteps
import DynamicExtension.WriteAheadLogging
set_option autoImplicit false

namespace De
variable {R : Type} [DecidableEq R] {T : ShardType R} {L : LayoutPolicy}

namespace ExtensionStructure

theorem net_reloaded (s : ExtensionStructure T L) : s.reloaded.net = s.net := by
  have hlevels : s.reloaded.levels.map InternalLevel.net = s.levels.map InternalLevel.net := by
    apply List.ext_getElem?
    intro i
    rw [List.getElem?_map, levels_reloaded, List.getElem?_map, Option.map_map]
    congr 1
    funext l
    exact InternalLevel.net_congr (files_loadedLevel i l.files)
  rw [net, net, hlevels]

theorem ofCheckpoint_net (s : ExtensionStructure T L) (hwm scale : Nat) :
    ∃ s', ofCheckpoint T L hwm scale (some s.checkpoint) = some s' ∧ s'.net = s.net :=
  ⟨_, ofCheckpoint_eq { s with bufferSize := hwm, scaleFactor := scale }, net_reloaded _⟩

theorem Intact.net_tasks {hwm : Nat} {s s₁ : ExtensionStructure T L} (hs : s.Intact)
    {done rest : List ReconstructionTask} (htasks : s.roundTasks hwm = done ++ rest)
    (hrun : s.copy.reconstructTasks done = some s₁) : s₁.net = s.net := by
  have hr : Regroup T s.shards s₁.shards := by
    by_cases h : L = .bsm
    · subst h
      have hcopy : s.copy = s := copy_eq hs.noPending
      cases done with
      | nil =>
        obtain rfl : s.copy = s₁ := Option.some.inj hrun
        rw [hcopy]
        exact .refl _
      | cons t ts =>
        obtain rfl : rest = [] := by
          have hone := congrArg List.length (htasks.symm.trans (roundTasks_bsm s hwm))
          split at hone <;> simp at hone
          exact hone.2
        rw [← List.append_nil (t :: ts), ← htasks] at hrun
        obtain ⟨-, hcount, hzero⟩ := planTarget_bsm hs.counts hwm
        have hb := (planTarget_bsm hs.counts hwm).1
        rcases reconstructTasks_copy hs.counts hwm hrun with ⟨-, rfl⟩ | ⟨h0, x, hx, rfl⟩
        · rw [hcopy]
          exact .refl _
        · rw [hcopy] at h0 hx ⊢
          exact (mergedDown_placeMerged hs hb (Nat.pos_of_ne_zero h0) (fun hz => h0 (hzero.mpr hz))
            hcount hx).regroup
    · obtain ⟨hset, -⟩ := (intact_iff h s).mp hs
      rw [copy_eq hset.sound.noPending] at hrun
      obtain ⟨c, -, -, hd⟩ := runDown_append_spec h hset.sound (planTarget_le hset.sound hwm)
        (fun i hi => planTarget_fits h hset hwm hi)
        (by rw [← htasks]; exact roundTasks_shapes s hwm h) hrun
      exact hd.rearranged.regroup
  rw [net_eq, net_eq, hr.net]

theorem steps_reconstructTaskTraced {s s' : ExtensionStructure T L}
    {tasks : List ReconstructionTask} (hrun : s.reconstructTasks tasks = some s') :
    ∃ ss : List (ExtensionStructure T L),
      (tasks.foldlM reconstructTaskTraced s).steps =
        ss.map (fun t => .saveCheckpoint t.checkpoint) ∧ ss.length = tasks.length ∧
      ∀ t ∈ ss, ∃ done rest, tasks = done ++ rest ∧ s.reconstructTasks done = some t := by
  induction tasks generalizing s with
  | nil => exact ⟨[], rfl, rfl, by simp⟩
  | cons task tasks ih =>
    obtain ⟨s₁, hs₁, hrun⟩ := Option.bind_eq_some_iff.mp hrun
    obtain ⟨ss, hsteps, hlen, hmem⟩ := ih hrun
    have hcons : ∀ done, s.reconstructTasks (task :: done) = s₁.reconstructTasks done := by
      intro done
      rw [reconstructTasks, List.foldlM_cons, hs₁]
      rfl
    refine ⟨s₁ :: ss, ?_, by simp [hlen], fun t ht => ?_⟩
    · have htask : (s.reconstructTaskTraced task).result = some s₁ := by
        rw [result_reconstructTaskTraced, hs₁]
      have hone : (s.reconstructTaskTraced task).steps = [.saveCheckpoint s₁.checkpoint] := by
        rw [reconstructTaskTraced, hs₁]
        rfl
      rw [List.foldlM_cons, Traced.steps_bind_some htask, hone, hsteps]
      rfl
    · rcases List.mem_cons.mp ht with rfl | ht
      · exact ⟨[task], tasks, rfl, hcons []⟩
      · obtain ⟨done, rest, rfl, hdone⟩ := hmem t ht
        exact ⟨task :: done, rest, rfl, (hcons done).trans hdone⟩

end ExtensionStructure

namespace MutableBuffer
variable [Zero R] {b : MutableBuffer R} {w : WriteAheadLogger R}

theorem steps_appendTraced (hroom : b.getRecordCount < b.hwm) (hs : b.SlotOk) (hw : b.wal = some w)
    (rec : R) (tombstone : Bool) :
    (b.appendTraced rec tombstone true : Traced (DurableStep T) _).steps =
      [.pwrite w.lsn ⟨.insert, Wrapped.fresh rec tombstone⟩] := by
  have hfull : ¬ b.tail - b.head.headIdx ≥ b.hwm := not_le.mpr hroom
  simp only [appendTraced, tryAdvanceTail, if_neg hfull, if_neg hs.1, if_true, hw]
  rfl

theorem steps_advanceHeadTraced (hpos : 0 < b.getRecordCount) (href : b.oldHead.refcnt = 0)
    (hw : b.wal = some w) (hend : w.AtEnd) (hmarks : ∀ e ∈ w.file, e.type ≠ .flushB) :
    (b.advanceHeadTraced b.tail : Traced (DurableStep T) _).steps =
      [.pwrite w.lsn ⟨.flushB, 0⟩, .pwrite (w.lsn + 1) ⟨.flushC, 0⟩, .ftruncate] := by
  have hlt : b.head.headIdx < b.tail := by
    simp only [getRecordCount] at hpos
    omega
  have hnone : WriteAheadLogger.remaining false (w.flushBegin.write ⟨.flushC, 0⟩).file = [] := by
    rw [WriteAheadLogger.flushBegin, WriteAheadLogger.write_eq hend,
      WriteAheadLogger.write_eq (WriteAheadLogger.atEnd_new _)]
    show WriteAheadLogger.remaining false (w.file ++ [_] ++ [_]) = []
    rw [List.append_assoc, WriteAheadLogger.remaining_append hmarks]
    rfl
  have hflush : (w.flushBegin.flushCompleteTraced : Traced (DurableStep T) _).steps =
      [.pwrite (w.lsn + 1) ⟨.flushC, 0⟩, .ftruncate] := by
    rw [WriteAheadLogger.flushCompleteTraced,
      Traced.steps_bind_some (WriteAheadLogger.result_writeTraced ..), hnone]
    rfl
  have hguard : ¬ b.oldHead.refcnt > 0 := by omega
  rw [advanceHeadTraced, Traced.ofOption_bind (by simp [guard, hlt]; rfl),
    Traced.ofOption_bind (by simp [guard]; rfl), if_neg hguard, hw,
    Traced.steps_bind_some (Traced.result_onSome
      (fun w => w.flushBegin.result_flushCompleteTraced) _),
    Traced.steps_onSome, Traced.steps_bind_some w.result_flushBeginTraced, hflush]
  rfl

end MutableBuffer

namespace DynamicExtension

def logEntry (w : Wrapped R) : WALEntry R := ⟨.insert, Wrapped.fresh w.record w.isTombstone⟩

theorem replay_logEntry (ws : List (Wrapped R)) {marks : List (WALEntry R)}
    (hmarks : ∀ e ∈ marks, e.type ≠ .insert ∧ e.type ≠ .delete) :
    WriteAheadLogger.replay (ws.map logEntry ++ marks) =
      ws.map fun w => Wrapped.fresh w.record w.isTombstone := by
  have hdeleted : (ws.map logEntry ++ marks).filter (fun e => e.type = .delete) = [] := by
    rw [List.filter_eq_nil_iff]
    intro e he
    rcases List.mem_append.mp he with he | he
    · obtain ⟨w, -, rfl⟩ := List.mem_map.mp he
      simp [logEntry]
    · simpa using (hmarks e he).2
  have hinserted : (ws.map logEntry ++ marks).filter (fun e => e.type = .insert) =
      ws.map logEntry := by
    rw [List.filter_append, List.filter_eq_self.mpr, List.filter_eq_nil_iff.mpr, List.append_nil]
    · intro e he
      simpa using (hmarks e he).1
    · intro e he
      obtain ⟨w, -, rfl⟩ := List.mem_map.mp he
      simp [logEntry]
  simp [WriteAheadLogger.replay, hdeleted, hinserted, logEntry]

section Recovered
variable [Zero R]

/-- The net counts over the shards and the buffer, after a start on the files -/
def recovered (T : ShardType R) (L : LayoutPolicy) (lwm hwm scale : Nat) (disk : Disk T) :
    Option (R → ℤ) := do
  let d ← new T L lwm hwm scale disk.checkpoint (some disk.log)
  let e ← d.currentEpoch.epoch
  return e.vers.net + net d.buffer.records

theorem recovered_eq {lwm hwm scale : Nat} (hlwm : 0 < lwm) (hle : lwm ≤ hwm)
    (hbsm : L = .bsm → scale = 2) {disk : Disk T} {s : ExtensionStructure T L}
    (hs : ExtensionStructure.ofCheckpoint T L hwm scale disk.checkpoint = some s)
    {ws : List (Wrapped R)} {marks : List (WALEntry R)} (hlog : disk.log = ws.map logEntry ++ marks)
    (hmarks : ∀ e ∈ marks, e.type ≠ .insert ∧ e.type ≠ .delete) (hroom : ws.length ≤ hwm)
    (hslots : (MutableBuffer.empty lwm hwm none : MutableBuffer R).SlotsOk ws.length) :
    recovered T L lwm hwm scale disk = some (s.net + net ws) := by
  set b : MutableBuffer R := MutableBuffer.empty lwm hwm (some (.new disk.log)) with hb
  have hcap : 2 * hwm > hwm := by omega
  have hbuf : MutableBuffer.new lwm hwm (some disk.log) = some (b.buildBufferFromLog disk.log) := by
    simp [MutableBuffer.new, MutableBuffer.empty, guard, hcap, hle, hb]
  have hcontents : (b.buildBufferFromLog disk.log).contents =
      ws.map fun w => (w.record, w.isTombstone) := by
    have hreplay := replay_logEntry ws hmarks
    rw [← hlog] at hreplay
    have hzero : b.contents = [] := rfl
    have hformed : b.Formed := ⟨le_rfl, Nat.zero_le _, hcap⟩
    rw [MutableBuffer.buildBufferFromLog_eq, hreplay, MutableBuffer.appendAll_contents _ hformed ?_
      (by rw [List.length_map]; exact hslots), hzero, List.nil_append, List.map_map]
    · exact List.map_congr_left fun w _ => by simp
    · show 0 + (List.map _ ws).length ≤ hwm
      rw [List.length_map]
      omega
  have hnet : net (b.buildBufferFromLog disk.log).records = net ws := net_congr hcontents
  simp only [recovered, new, hbuf, hs, guard, if_pos hbsm, Option.bind_eq_bind, Option.bind_some,
    Option.pure_def, hnet]

end Recovered

section Steps
variable [Zero R] {lwm hwm scale pins oldPins : Nat} {d : DynamicExtension T L} {e : Epoch T L}
  {disk : Disk T}

theorem Idle.steps_advanceEpochTraced (h : Idle d e pins 0) (hpos : 0 < d.buffer.getRecordCount)
    {w : WriteAheadLogger R} (hw : d.buffer.wal = some w) (hend : w.AtEnd)
    (hmarks : ∀ x ∈ w.file, x.type ≠ .flushB) (n : Nat) (next : Epoch T L) :
    (advanceEpochTraced { d with epochCnt := n, nextEpoch := ⟨some next, 0⟩ } d.buffer.tail).steps =
      [.pwrite w.lsn ⟨.flushB, 0⟩, .pwrite (w.lsn + 1) ⟨.flushC, 0⟩, .ftruncate] := by
  obtain ⟨d', hd', heq⟩ := h.retireEpoch n ⟨some next, 0⟩
  have hadvance :
      (d.buffer.advanceHeadTraced d.buffer.tail : Traced (DurableStep T) _).result = _ :=
    (MutableBuffer.result_advanceHeadTraced ..).trans
      (MutableBuffer.advanceHead_tail hpos h.oldHead)
  rw [advanceEpochTraced, Traced.ofOption_bind hd', heq, Traced.ofOption_bind rfl,
    Traced.steps_bind_some hadvance,
    MutableBuffer.steps_advanceHeadTraced hpos h.oldHead hw hend hmarks]
  rfl

/-- The steps of a reconstruction: the checkpoints of its tasks, that of the flush, the
two marks, and the truncation -/
theorem Idle.steps_scheduleReconstructionTraced (h : Idle d e pins 0)
    (hpos : 0 < d.buffer.getRecordCount) {w : WriteAheadLogger R} (hw : d.buffer.wal = some w)
    (hend : w.AtEnd) (hmarks : ∀ x ∈ w.file, x.type ≠ .flushB) {v s : ExtensionStructure T L}
    (hv : e.vers.copy.reconstructTasks (e.vers.roundTasks d.buffer.hwm) = some v)
    (hs : v.flushBuffer (e.view d.buffer) = some s) :
    d.scheduleReconstructionTraced.steps =
      ((e.vers.roundTasks d.buffer.hwm).foldlM ExtensionStructure.reconstructTaskTraced
        e.vers.copy).steps ++
      [DurableStep.saveCheckpoint s.checkpoint, .pwrite w.lsn ⟨.flushB, 0⟩,
        .pwrite (w.lsn + 1) ⟨.flushC, 0⟩, .ftruncate] := by
  have htasks : ((e.vers.roundTasks d.buffer.hwm).foldlM
      ExtensionStructure.reconstructTaskTraced
        (e.clone (d.epochCnt + 1)).vers).result = some v := by
    rw [ExtensionStructure.result_reconstructTasksTraced]
    exact hv
  have hflush : (v.flushBufferTraced (e.view d.buffer)).steps = [.saveCheckpoint s.checkpoint] := by
    rw [ExtensionStructure.flushBufferTraced, hs]
    rfl
  have hview : d.buffer.getBufferView (e.clone (d.epochCnt + 1)).bufferHead = _ := h.getBufferView
  have hrel : MutableBuffer.releaseHeadReference
      { d.buffer with head := ⟨e.bufferHead, 1⟩ } (e.view d.buffer).head = _ :=
    h.releaseHeadReference
  have hadvance : ∀ next : Epoch T L, (advanceEpochTraced
      { d with epochCnt := d.epochCnt + 1, nextEpoch := ⟨some next, 0⟩ }
        d.buffer.tail).result = _ :=
    fun next => (result_advanceEpochTraced ..).trans (h.advanceEpoch hpos (d.epochCnt + 1) next)
  rw [scheduleReconstructionTraced, Traced.ofOption_bind h.createNewEpoch,
    Traced.ofOption_bind rfl, reconstructionTraced, Traced.ofOption_bind rfl]
  refine (Traced.steps_bind_some htasks _).trans (congrArg₂ (· ++ ·) rfl ?_)
  refine (congrArg Traced.steps (Traced.ofOption_bind hview _)).trans ?_
  refine (Traced.steps_bind_some ((v.result_flushBufferTraced _).trans hs) _).trans ?_
  refine congrArg₂ (· ++ ·) hflush ((congrArg Traced.steps (Traced.ofOption_bind hrel _)).trans ?_)
  refine (Traced.steps_bind_some (hadvance _) _).trans ?_
  rw [h.steps_advanceEpochTraced hpos hw hend hmarks]
  rfl

theorem steps_callTraced_below (hlow : d.buffer.getRecordCount < d.buffer.lwm) (c : Call R) :
    (d.callTraced true c).steps =
      (d.buffer.appendTraced c.record c.tombstone true : Traced (DurableStep T) _).steps := by
  have hat : ¬ (d.buffer.isAtLowWatermark ∧ d.reconstructionScheduled = false) := by
    simp only [MutableBuffer.isAtLowWatermark, decide_eq_true_eq]
    omega
  rw [callTraced, internalAppendTraced, if_neg hat, Traced.pure_bind,
    Traced.steps_bind_some (MutableBuffer.result_appendTraced ..)]
  exact List.append_nil _

theorem Idle.steps_callTraced_at (h : Idle d e pins 0) (hsch : d.reconstructionScheduled = false)
    (hpos : 0 < d.buffer.lwm) (hlow : d.buffer.lwm ≤ d.buffer.getRecordCount)
    {s : ExtensionStructure T L} (hs : e.vers.round d.buffer.hwm (e.view d.buffer) = some s)
    (c : Call R) : (d.callTraced true c).steps =
      (scheduleReconstructionTraced { d with reconstructionScheduled := true }).steps ++
      ((d.flushed e s).buffer.appendTraced c.record c.tombstone true :
        Traced (DurableStep T) _).steps := by
  have hat : d.buffer.isAtLowWatermark ∧ d.reconstructionScheduled = false := by
    simp [MutableBuffer.isAtLowWatermark, hlow, hsch]
  have hround := (h.schedule true).scheduleReconstruction (hpos.trans_le hlow)
  have hresult : (scheduleReconstructionTraced
      { d with reconstructionScheduled := true }).result = some (d.flushed e s) := by
    rw [result_scheduleReconstructionTraced, hround]
    simp only [hs, Option.map_some]
    rfl
  rw [callTraced, internalAppendTraced, if_pos hat, Traced.steps_bind_some hresult,
    Traced.steps_bind_some (MutableBuffer.result_appendTraced ..)]
  exact congrArg _ (List.append_nil _)

/-- What the files hold between two calls -/
structure Saved (lwm hwm scale : Nat) (d : DynamicExtension T L) (e : Epoch T L)
    (disk : Disk T) : Prop where
  wal : d.buffer.wal = some (.new disk.log)
  log : disk.log = d.buffer.records.map logEntry
  checkpoint : ∃ s, ExtensionStructure.ofCheckpoint T L hwm scale disk.checkpoint = some s ∧
    s.net = e.vers.net
  cap : d.buffer.cap = 2 * hwm
  slots : (MutableBuffer.empty lwm hwm none : MutableBuffer R).SlotsOk d.buffer.tail

theorem Saved.recovered_with (hlwm : 0 < lwm) (hle : lwm ≤ hwm) (hbsm : L = .bsm → scale = 2)
    (h : Saved lwm hwm scale d e disk) (hcount : d.buffer.getRecordCount ≤ hwm)
    {checkpoint : Option (Checkpoint T)} {s : ExtensionStructure T L}
    (hs : ExtensionStructure.ofCheckpoint T L hwm scale checkpoint = some s)
    {marks : List (WALEntry R)} (hmarks : ∀ e ∈ marks, e.type ≠ .insert ∧ e.type ≠ .delete) :
    recovered T L lwm hwm scale ⟨checkpoint, disk.log ++ marks⟩ =
      some (s.net + net d.buffer.records) := by
  have hlen := d.buffer.length_records
  refine recovered_eq hlwm hle hbsm hs (congrArg (· ++ marks) h.log) hmarks (by omega) ?_
  intro i hi
  refine h.slots i (hi.trans_le ?_)
  rw [hlen, MutableBuffer.getRecordCount]
  exact Nat.sub_le ..

theorem Saved.recovered (hlwm : 0 < lwm) (hle : lwm ≤ hwm) (hbsm : L = .bsm → scale = 2)
    (h : Saved lwm hwm scale d e disk) (hcount : d.buffer.getRecordCount ≤ hwm) :
    DynamicExtension.recovered T L lwm hwm scale disk =
      some (e.vers.net + net d.buffer.records) := by
  obtain ⟨s, hs, hnet⟩ := h.checkpoint
  have hnone : ∀ e ∈ ([] : List (WALEntry R)), e.type ≠ .insert ∧ e.type ≠ .delete := by simp
  rw [← hnet, ← h.recovered_with hlwm hle hbsm hcount hs hnone, List.append_nil]

theorem Saved.append (h : Saved lwm hwm scale d e disk) (hformed : d.buffer.Formed)
    (hroom : d.buffer.getRecordCount < d.buffer.hwm) (hslot : d.buffer.SlotOk)
    (rec : R) (ts : Bool) :
    Saved lwm hwm scale { d with buffer := (d.buffer.append rec ts true).2 } e
      (disk.step (.pwrite disk.log.length ⟨.insert, Wrapped.fresh rec ts⟩)) := by
  obtain ⟨-, hrecords⟩ := MutableBuffer.formed_append hformed hroom hslot rec ts true
  have heq := congrArg Prod.snd (MutableBuffer.append_eq hroom hslot rec ts true)
  have hlog : (disk.step (.pwrite disk.log.length ⟨.insert, Wrapped.fresh rec ts⟩)).log =
      disk.log ++ [⟨.insert, Wrapped.fresh rec ts⟩] := WriteAheadLogger.pwrite_end ..
  refine ⟨?_, ?_, h.checkpoint, ?_, ?_⟩
  · rw [hlog, heq]
    simp only [if_true, h.wal, Option.map_some, Option.some.injEq]
    exact WriteAheadLogger.write_eq (WriteAheadLogger.atEnd_new _) _
  · rw [hlog, hrecords, h.log]
    simp [logEntry]
  · rw [heq]
    exact h.cap
  · rw [heq]
    intro i hi
    by_cases hlast : i = d.buffer.tail
    · subst hlast
      obtain ⟨hne, hpos⟩ := hslot
      rw [MutableBuffer.slot, h.cap] at hpos
      exact ⟨by simpa [MutableBuffer.empty] using hne, by
        simpa [MutableBuffer.empty, MutableBuffer.slot] using hpos⟩
    · exact h.slots i (by simp only at hi; omega)

theorem Saved.recovered_append (hlwm : 0 < lwm) (hle : lwm ≤ hwm) (hbsm : L = .bsm → scale = 2)
    (h : Saved lwm hwm scale d e disk) (hformed : d.buffer.Formed)
    (hroom : d.buffer.getRecordCount < d.buffer.hwm) (hslot : d.buffer.SlotOk)
    (hhwm : d.buffer.hwm = hwm) (c : Call R) :
    DynamicExtension.recovered T L lwm hwm scale
        (disk.step (.pwrite disk.log.length ⟨.insert, c.wrapped⟩)) =
      some (e.vers.net + net d.buffer.records + netOf [c]) := by
  obtain ⟨b, hb, ha⟩ := MutableBuffer.append_spec hformed hroom hslot c.record c.tombstone true
  obtain ⟨pos, hrecords⟩ := ha.records
  have happend := h.append hformed hroom hslot c.record c.tombstone
  rw [hb] at happend
  have hcount : b.getRecordCount ≤ hwm := by
    rw [← hhwm, ← ha.hwm]
    exact ha.formed.count_le
  have hone : net [MutableBuffer.slotContent c.record c.tombstone pos] = netOf [c] :=
    net_payload (by simp [Wrapped.payload])
  have hrec := happend.recovered hlwm hle hbsm hcount
  rw [hrecords, net_append, hone, ← add_assoc] at hrec
  exact hrec

theorem Saved.unmarked (h : Saved lwm hwm scale d e disk) : ∀ x ∈ disk.log, x.type ≠ .flushB := by
  rw [h.log]
  intro x hx
  obtain ⟨w, -, rfl⟩ := List.mem_map.mp hx
  simp [logEntry]

theorem Saved.flushed (h : Saved lwm hwm scale d e disk) (s : ExtensionStructure T L) :
    Saved lwm hwm scale (d.flushed e s) ⟨d.epochCnt + 1, s, d.buffer.tail⟩
      ⟨some s.checkpoint, []⟩ := by
  refine ⟨?_, ?_, s.ofCheckpoint_net hwm scale, h.cap, h.slots⟩
  · simp only [DynamicExtension.flushed, h.wal, Option.map_some]
    rw [WriteAheadLogger.flushed_eq (WriteAheadLogger.atEnd_new _) h.unmarked]
  · rw [flushed_records]
    rfl

theorem Saved.steps_callTraced (hsaved : Saved lwm hwm scale d e disk) (hlwm : 0 < lwm)
    (h : Serving lwm hwm d e pins 0) (hslot : d.buffer.SlotOk)
    (hlow : d.buffer.lwm ≤ d.buffer.getRecordCount) {s : ExtensionStructure T L}
    (hs : e.vers.round hwm (e.view d.buffer) = some s) (c : Call R) :
    ∃ ss : List (ExtensionStructure T L),
      (d.callTraced true c).steps = ss.map (fun t => DurableStep.saveCheckpoint t.checkpoint) ++
        [DurableStep.saveCheckpoint s.checkpoint, .pwrite disk.log.length ⟨.flushB, 0⟩,
          .pwrite (disk.log.length + 1) ⟨.flushC, 0⟩, .ftruncate,
          .pwrite 0 ⟨.insert, c.wrapped⟩] ∧
      ss.length = (e.vers.roundTasks hwm).length ∧ ∀ t ∈ ss, t.net = e.vers.net := by
  have hl := h.lwm_eq
  have hh := h.hwm_eq
  have hpos : 0 < d.buffer.getRecordCount := by omega
  have hmarks : ∀ x ∈ (WriteAheadLogger.new disk.log).file, x.type ≠ .flushB := hsaved.unmarked
  obtain ⟨v, hv, hflush⟩ := Option.bind_eq_some_iff.mp hs
  obtain ⟨ss, hss, hlen, hmem⟩ := ExtensionStructure.steps_reconstructTaskTraced hv
  have hschedule := (h.idle.schedule true).steps_scheduleReconstructionTraced hpos hsaved.wal
    (WriteAheadLogger.atEnd_new _) hmarks (by rw [hh]; exact hv) hflush
  have happend := MutableBuffer.steps_appendTraced (T := T) (h.idle.flushed_room hpos s) hslot
    (hsaved.flushed s).wal c.record c.tombstone
  refine ⟨ss, ?_, hlen, fun t ht => ?_⟩
  · rw [h.idle.steps_callTraced_at h.scheduled (by omega) hlow (by rw [hh]; exact hs), hschedule,
      happend]
    simp only [hh, hss, List.append_assoc]
    rfl
  · obtain ⟨done, rest, htasks, hdone⟩ := hmem t ht
    exact h.intact.net_tasks htasks hdone

/-- After so many of its steps the call has written the checkpoint of its flush and has
not truncated the log. -/
def InFlush (d : DynamicExtension T L) (made : Nat) : Prop :=
  d.buffer.isAtLowWatermark ∧ ∃ e ∈ d.currentEpoch.epoch,
    (e.vers.roundTasks d.buffer.hwm).length < made ∧
      made ≤ (e.vers.roundTasks d.buffer.hwm).length + 3

/-- What a start finds after a part of a call's steps: before or after the call's
record, or, while the call is in its flush, the flushed records twice. -/
structure Crashed (lwm hwm scale : Nat) (d : DynamicExtension T L) (n : R → ℤ) (c : Call R)
    (disk : Disk T) (made : Nat) : Prop where
  outside : ¬ d.InFlush made → DynamicExtension.recovered T L lwm hwm scale disk = some n ∨
    DynamicExtension.recovered T L lwm hwm scale disk = some (n + netOf [c])
  inside : d.InFlush made →
    DynamicExtension.recovered T L lwm hwm scale disk = some (n + net d.buffer.records)

omit [Zero R] in
theorem Serving.inFlush_iff (h : Serving lwm hwm d e pins oldPins) (made : Nat) :
    d.InFlush made ↔ d.buffer.lwm ≤ d.buffer.getRecordCount ∧
      (e.vers.roundTasks hwm).length < made ∧ made ≤ (e.vers.roundTasks hwm).length + 3 := by
  simp [InFlush, MutableBuffer.isAtLowWatermark, h.idle.current, h.hwm_eq]

theorem Saved.tasks (h : Saved lwm hwm scale d e disk) {ss : List (ExtensionStructure T L)}
    (hss : ∀ t ∈ ss, t.net = e.vers.net) :
    Saved lwm hwm scale d e (disk.after (ss.map fun t => .saveCheckpoint t.checkpoint)) := by
  induction ss generalizing disk with
  | nil => exact h
  | cons t ss ih =>
    obtain ⟨s, hs, hnet⟩ := t.ofCheckpoint_net hwm scale
    have ht : Saved lwm hwm scale d e (disk.step (.saveCheckpoint t.checkpoint)) :=
      ⟨h.wal, h.log, ⟨s, hs, hnet.trans (hss t List.mem_cons_self)⟩, h.cap, h.slots⟩
    exact ih ht fun t ht => hss t (List.mem_cons_of_mem _ ht)

theorem Saved.recovered_flush (hlwm : 0 < lwm) (hle : lwm ≤ hwm) (hbsm : L = .bsm → scale = 2)
    (hsaved : Saved lwm hwm scale d e disk) (h : Idle d e pins oldPins)
    (hpos : 0 < d.buffer.getRecordCount) (hhwm : d.buffer.hwm = hwm) (hslot : d.buffer.SlotOk)
    (s : ExtensionStructure T L) (c : Call R) {steps : List (DurableStep T)}
    (hsteps : steps <+: [.saveCheckpoint s.checkpoint, .pwrite disk.log.length ⟨.flushB, 0⟩,
      .pwrite (disk.log.length + 1) ⟨.flushC, 0⟩, .ftruncate, .pwrite 0 ⟨.insert, c.wrapped⟩]) :
    DynamicExtension.recovered T L lwm hwm scale (disk.after steps) =
      [e.vers.net + net d.buffer.records, s.net + net d.buffer.records,
        s.net + net d.buffer.records, s.net + net d.buffer.records, s.net,
        s.net + netOf [c]][steps.length]? := by
  have hcount : d.buffer.getRecordCount ≤ hwm := hhwm ▸ h.formed.count_le
  have hdouble : ∀ marks : List (WALEntry R), (∀ e ∈ marks, e.type ≠ .insert ∧ e.type ≠ .delete) →
      DynamicExtension.recovered T L lwm hwm scale ⟨some s.checkpoint, disk.log ++ marks⟩ =
        some (s.net + net d.buffer.records) := by
    intro marks hmarks
    obtain ⟨s', hs', hnet'⟩ := s.ofCheckpoint_net hwm scale
    rw [hsaved.recovered_with hlwm hle hbsm hcount hs' hmarks, hnet']
  have hroom := h.flushed_room hpos s
  have hflushed := hsaved.flushed s
  have hempty : (d.flushed e s).buffer.getRecordCount ≤ hwm := by
    have hsame : (d.flushed e s).buffer.hwm = d.buffer.hwm := rfl
    omega
  have hmark : WriteAheadLogger.pwrite disk.log disk.log.length ⟨.flushB, 0⟩ =
      disk.log ++ [⟨.flushB, 0⟩] := WriteAheadLogger.pwrite_end ..
  have hmarks : WriteAheadLogger.pwrite (disk.log ++ [⟨.flushB, 0⟩]) (disk.log.length + 1)
      ⟨.flushC, 0⟩ = disk.log ++ [⟨.flushB, 0⟩, ⟨.flushC, 0⟩] := by
    have hend := WriteAheadLogger.pwrite_end (disk.log ++ [⟨.flushB, 0⟩])
      (⟨.flushC, 0⟩ : WALEntry R)
    rwa [List.length_append, List.length_singleton, List.append_assoc] at hend
  simp only [List.prefix_cons_iff, List.prefix_nil] at hsteps
  rcases hsteps with
    rfl | ⟨_, rfl, rfl | ⟨_, rfl, rfl | ⟨_, rfl, rfl | ⟨_, rfl, rfl | ⟨_, rfl, rfl⟩⟩⟩⟩⟩
  · exact hsaved.recovered hlwm hle hbsm hcount
  · have hone := hdouble [] (by simp)
    rwa [List.append_nil] at hone
  · simp only [Disk.after, List.foldl_cons, List.foldl_nil, Disk.step, hmark]
    exact hdouble _ (by simp)
  · simp only [Disk.after, List.foldl_cons, List.foldl_nil, Disk.step, hmark, hmarks]
    exact hdouble _ (by simp)
  · have hrec := hflushed.recovered hlwm hle hbsm hempty
    rw [flushed_records, net_nil, add_zero] at hrec
    exact hrec
  · have hformed := (h.flushed hpos s).formed
    have hrec := hflushed.recovered_append hlwm hle hbsm hformed hroom hslot hhwm c
    rw [flushed_records, net_nil, add_zero] at hrec
    exact hrec

theorem Saved.crashed_at (hlwm : 0 < lwm) (hle : lwm ≤ hwm) (hbsm : L = .bsm → scale = 2)
    (hsaved : Saved lwm hwm scale d e disk) (h : Serving lwm hwm d e pins 0)
    (hslot : d.buffer.SlotOk) (hlow : d.buffer.lwm ≤ d.buffer.getRecordCount)
    {s : ExtensionStructure T L} (hs : e.vers.round hwm (e.view d.buffer) = some s)
    (hnet : s.net = e.vers.net + net d.buffer.records) (c : Call R)
    {part : List (DurableStep T)} (hpart : part <+: (d.callTraced true c).steps) :
    Crashed lwm hwm scale d (e.vers.net + net d.buffer.records) c
      (disk.after part) part.length := by
  obtain ⟨ss, hsteps, hlen, hss⟩ := hsaved.steps_callTraced hlwm h hslot hlow hs c
  set cs : List (DurableStep T) := ss.map fun t => .saveCheckpoint t.checkpoint with hcs
  have hcslen : cs.length = (e.vers.roundTasks hwm).length := by rw [hcs, List.length_map, hlen]
  have hsaved₁ : Saved lwm hwm scale d e (disk.after cs) := hsaved.tasks hss
  have hlog : disk.log = (disk.after cs).log := hsaved.log.trans hsaved₁.log.symm
  rw [hsteps, hlog] at hpart
  rcases List.prefix_or_prefix_of_prefix hpart (List.prefix_append cs _) with hp | ⟨zs, rfl⟩
  · have hpart₁ : Saved lwm hwm scale d e (disk.after part) := by
      obtain ⟨ts, hts, rfl⟩ := List.prefix_map_iff.mp hp
      exact hsaved.tasks fun t ht => hss t (hts.subset ht)
    have hle' := hp.length_le
    refine ⟨fun _ => .inl (hpart₁.recovered hlwm hle hbsm h.count_le), fun hin => ?_⟩
    rw [h.inFlush_iff] at hin
    omega
  · rw [List.prefix_append_right_inj] at hpart
    have hrec := hsaved₁.recovered_flush hlwm hle hbsm h.idle (by have := h.lwm_eq; omega) h.hwm_eq
      hslot s c hpart
    have hfive := hpart.length_le
    rw [Disk.after_append, List.length_append]
    refine ⟨fun hout => ?_, fun hin => ?_⟩
    · have hcases : zs.length = 0 ∨ zs.length = 4 ∨ zs.length = 5 := by
        rw [h.inFlush_iff] at hout
        simp only [List.length_cons, List.length_nil] at hfive
        omega
      rcases hcases with hz | hz | hz
      · exact .inl (by rw [hrec, hz]; rfl)
      · exact .inl (by rw [hrec, hz, ← hnet]; rfl)
      · exact .inr (by rw [hrec, hz, ← hnet]; rfl)
    · have hcases : zs.length = 1 ∨ zs.length = 2 ∨ zs.length = 3 := by
        rw [h.inFlush_iff] at hin
        omega
      rcases hcases with hz | hz | hz <;>
      · rw [hrec, hz, ← hnet]
        rfl

theorem Saved.call_below (hlwm : 0 < lwm) (hle : lwm ≤ hwm) (hbsm : L = .bsm → scale = 2)
    (hsaved : Saved lwm hwm scale d e disk) (h : Serving lwm hwm d e pins oldPins)
    (hslot : d.buffer.SlotOk) (hlow : d.buffer.getRecordCount < d.buffer.lwm) (c : Call R) :
    (∃ d', d.call true c = some (1, d') ∧ d'.currentEpoch.epoch = some e ∧
      Saved lwm hwm scale d' e (disk.after (d.callTraced true c).steps)) ∧
    ∀ part, part <+: (d.callTraced true c).steps →
      Crashed lwm hwm scale d (e.vers.net + net d.buffer.records) c (disk.after part)
        part.length := by
  have hl := h.lwm_eq
  have hh := h.hwm_eq
  have hroom : d.buffer.getRecordCount < d.buffer.hwm := by omega
  have happend := hsaved.append h.idle.formed hroom hslot c.record c.tombstone
  obtain ⟨b, hb, -⟩ := MutableBuffer.append_spec h.idle.formed hroom hslot c.record c.tombstone true
  have hsteps : (d.callTraced true c).steps = [.pwrite disk.log.length ⟨.insert, c.wrapped⟩] :=
    (steps_callTraced_below hlow c).trans
      (MutableBuffer.steps_appendTraced hroom hslot hsaved.wal c.record c.tombstone)
  rw [hsteps]
  rw [hb] at happend
  refine ⟨⟨_, by rw [call_eq, internalAppend_low hlow, hb], ?_, happend⟩, fun part hpart => ?_⟩
  · rw [h.idle.current]
  · refine ⟨fun _ => ?_, fun hin => ?_⟩
    · simp only [List.prefix_cons_iff, List.prefix_nil] at hpart
      rcases hpart with rfl | ⟨_, rfl, rfl⟩
      · exact .inl (hsaved.recovered hlwm hle hbsm (by omega))
      · exact .inr (hsaved.recovered_append hlwm hle hbsm h.idle.formed hroom hslot hh c)
    · rw [h.inFlush_iff] at hin
      omega

theorem Saved.call_at (hlwm : 0 < lwm) (hsaved : Saved lwm hwm scale d e disk)
    (h : Serving lwm hwm d e pins 0) (hslot : d.buffer.SlotOk)
    (hlow : d.buffer.lwm ≤ d.buffer.getRecordCount) {s : ExtensionStructure T L}
    (hs : e.vers.round hwm (e.view d.buffer) = some s) (c : Call R) :
    ∃ d' e', d.call true c = some (1, d') ∧ d'.currentEpoch.epoch = some e' ∧
      Saved lwm hwm scale d' e' (disk.after (d.callTraced true c).steps) := by
  have hl := h.lwm_eq
  have hpos : 0 < d.buffer.getRecordCount := by omega
  have hroom := h.idle.flushed_room hpos s
  have hformed := (h.idle.flushed hpos s).formed
  obtain ⟨b, hb, -⟩ := MutableBuffer.append_spec hformed hroom hslot c.record c.tombstone true
  have happend := (hsaved.flushed s).append hformed hroom hslot c.record c.tombstone
  rw [hb] at happend
  obtain ⟨ss, hsteps, -⟩ := hsaved.steps_callTraced hlwm h hslot hlow hs c
  have hafter : disk.after (d.callTraced true c).steps =
      Disk.step ⟨some s.checkpoint, []⟩ (.pwrite 0 ⟨.insert, c.wrapped⟩) := by
    rw [hsteps, Disk.after_append]
    rfl
  rw [hafter]
  refine ⟨_, _, ?_, rfl, happend⟩
  rw [call_eq, h.idle.internalAppend_flush h.scheduled (by omega) hlow, h.hwm_eq, hs]
  simp only [Option.map_some, hb]

theorem Saved.call (hT : T.MergesRecords) (hlwm : 0 < lwm) (hle : lwm ≤ hwm)
    (hbsm : L = .bsm → scale = 2) (hsaved : Saved lwm hwm scale d e disk)
    (h : Serving lwm hwm d e pins 0) (hok : d.CallOk) (c : Call R) :
    (∃ d' e', d.call true c = some (1, d') ∧ d'.currentEpoch.epoch = some e' ∧
      Saved lwm hwm scale d' e' (disk.after (d.callTraced true c).steps)) ∧
    ∀ part, part <+: (d.callTraced true c).steps →
      Crashed lwm hwm scale d (e.vers.net + net d.buffer.records) c (disk.after part)
        part.length := by
  by_cases hlow : d.buffer.getRecordCount < d.buffer.lwm
  · obtain ⟨⟨d', hd', he', hsaved'⟩, hcrash⟩ :=
      hsaved.call_below hlwm hle hbsm h hok.slot hlow c
    exact ⟨⟨d', e, hd', he', hsaved'⟩, hcrash⟩
  · have hlow : d.buffer.lwm ≤ d.buffer.getRecordCount := by omega
    have hat : d.buffer.isAtLowWatermark := by simpa [MutableBuffer.isAtLowWatermark] using hlow
    have hround := hok.round hat e (by rw [h.idle.current])
    rw [h.hwm_eq] at hround
    obtain ⟨s, hs, -, hr⟩ := h.intact.round hT h.view_le hround
    have hnet : s.net = e.vers.net + net d.buffer.records := by
      rw [ExtensionStructure.net_regroup hr, h.view_records]
    exact ⟨hsaved.call_at hlwm h hok.slot hlow hs c,
      fun part hpart => hsaved.crashed_at hlwm hle hbsm h hok.slot hlow hs hnet c hpart⟩

theorem Saved.run (hT : T.MergesRecords) (hlwm : 0 < lwm) (hle : lwm ≤ hwm)
    (hbsm : L = .bsm → scale = 2) {hist calls : List (Call R)} (h : Tracks lwm hwm d e 0 0 hist)
    (hsaved : Saved lwm hwm scale d e disk) (hok : d.RunOk true calls) :
    ∃ d' e', d.run true calls = some d' ∧ Tracks lwm hwm d' e' 0 0 (hist ++ calls) ∧
      Saved lwm hwm scale d' e' (disk.after (d.runTraced true calls).steps) := by
  induction calls generalizing d e disk hist with
  | nil => exact ⟨d, e, rfl, by simpa using h, hsaved⟩
  | cons c calls ih =>
    obtain ⟨hc, hrest⟩ := (runOk_cons true d c calls).mp hok
    obtain ⟨d₁, e₁, p, o, hcall, h₁, hturn⟩ := h.call hT hlwm hle hc (fun _ => rfl) true c
    obtain ⟨rfl, rfl⟩ : p = 0 ∧ o = 0 := by
      rcases hturn with ⟨-, hp, ho, -⟩ | ⟨-, -, hp, ho, -⟩ <;> exact ⟨hp, ho⟩
    obtain ⟨⟨d₂, e₂, hcall₂, he₂, hsaved₂⟩, -⟩ :=
      hsaved.call hT hlwm hle hbsm h.serving hc c
    obtain rfl : d₁ = d₂ := (Prod.mk.inj (Option.some.inj (hcall.symm.trans hcall₂))).2
    obtain rfl : e₁ = e₂ := by
      rw [h₁.serving.idle.current] at he₂
      exact Option.some.inj he₂
    have hsteps := d.steps_runTraced_append true (run_cons hcall []) calls
    rw [steps_runTraced_singleton] at hsteps
    obtain ⟨d', e', hd', h', hsaved'⟩ := ih h₁ hsaved₂ (hrest _ hcall)
    refine ⟨d', e', by rw [run_cons hcall, hd'], by simpa using h', ?_⟩
    rw [← Disk.after_append, ← hsteps] at hsaved'
    exact hsaved'

theorem saved_new (hlwm : 0 < lwm) (hle : lwm ≤ hwm) (hscale : 0 < scale)
    (hbsm : L = .bsm → scale = 2) (hnew : new T L lwm hwm scale none (some []) = some d) :
    ∃ e, Tracks lwm hwm d e 0 0 [] ∧ Saved lwm hwm scale d e Disk.empty := by
  have hlog : ∀ file : List (WALEntry R), some [] = some file → file = [] := by simp
  obtain ⟨d', e, hd', htracks⟩ := tracks_new T L hlwm hle hscale hbsm hlog
  obtain rfl : d = d' := Option.some.inj (hnew.symm.trans hd')
  rw [new_eq T L hlwm hle hbsm hlog, Option.some.injEq] at hnew
  have hbuffer : d.buffer = MutableBuffer.empty lwm hwm (some (.new [])) := by rw [← hnew]; rfl
  have hrecords : d.buffer.records = [] := by rw [hbuffer]; rfl
  have hnet := htracks.net
  rw [hrecords, net_nil, add_zero] at hnet
  refine ⟨e, htracks, by rw [hbuffer]; rfl, by rw [hrecords]; rfl,
    ⟨_, ofCheckpoint_none T L hwm scale, hnet.symm⟩, by rw [hbuffer]; rfl, ?_⟩
  rw [hbuffer]
  exact fun i hi => absurd hi (Nat.not_lt_zero i)

/-- The process made the durable steps `written` and stopped: the calls `returned` had
returned, and the one in flight, if there was one, had made a part of its own. -/
structure Stopped (d₀ : DynamicExtension T L) (returned : List (Call R))
    (inFlight : Option (Call R)) (written : List (DurableStep T)) : Prop where
  all : (d₀.runTraced true returned).steps <+: written
  part : written <+: (d₀.runTraced true (returned ++ inFlight.toList)).steps

/-- A start on what was written counts every record as the calls that had returned leave
it, or as those and the one in flight do. -/
def Recovers (T : ShardType R) (L : LayoutPolicy) (lwm hwm scale : Nat) (returned : List (Call R))
    (inFlight : Option (Call R)) (written : List (DurableStep T)) : Prop :=
  ∃ n, recovered T L lwm hwm scale (Disk.empty.after written) = some n ∧
    (n = netOf returned ∨ n = netOf (returned ++ inFlight.toList))

/-- In a run whose calls are in order, a start after a stop at any point recovers the
calls exactly once, unless the stop was in a flush and the flushed records, which are
counted twice, neither cancel out nor count as the call in flight does. -/
theorem recovers_iff (hT : T.MergesRecords) (hlwm : 0 < lwm) (hle : lwm ≤ hwm) (hscale : 0 < scale)
    (hbsm : L = .bsm → scale = 2) {d₀ : DynamicExtension T L}
    (hnew : new T L lwm hwm scale none (some []) = some d₀) {returned : List (Call R)}
    {inFlight : Option (Call R)} (hok : d₀.RunOk true (returned ++ inFlight.toList))
    {written : List (DurableStep T)} (hstop : Stopped d₀ returned inFlight written) :
    Recovers T L lwm hwm scale returned inFlight written ↔
      ∀ d, d₀.run true returned = some d →
        d.InFlush (written.length - (d₀.runTraced true returned).steps.length) →
        net d.buffer.records = 0 ∨ net d.buffer.records = netOf inFlight.toList := by
  obtain ⟨e₀, htracks₀, hsaved₀⟩ := saved_new hlwm hle hscale hbsm hnew
  have hbefore : d₀.RunOk true returned := fun pre c post hsplit =>
    hok pre c (post ++ inFlight.toList) (by rw [hsplit, List.append_assoc, List.cons_append])
  obtain ⟨d, e, hrun, htracks, hsaved⟩ := hsaved₀.run hT hlwm hle hbsm htracks₀ hbefore
  obtain ⟨⟨part, rfl⟩, hpart⟩ := hstop
  rw [steps_runTraced_append _ _ hrun, List.prefix_append_right_inj] at hpart
  rw [Recovers, Disk.after_append, List.length_append, Nat.add_sub_cancel_left]
  simp only [hrun, Option.some.injEq, forall_eq']
  have hnet : e.vers.net + net d.buffer.records = netOf returned := by
    simpa using htracks.net
  cases inFlight with
  | none =>
    obtain rfl : part = [] := List.prefix_nil.mp hpart
    refine ⟨fun _ hin => ?_, fun _ => ⟨_, hsaved.recovered hlwm hle hbsm htracks.serving.count_le,
      .inl hnet⟩⟩
    rw [htracks.serving.inFlush_iff] at hin
    simp at hin
  | some c =>
    rw [Option.toList_some, steps_runTraced_singleton] at hpart
    have hc : d.CallOk := hok returned c [] rfl d hrun
    have hcrash := (hsaved.call hT hlwm hle hbsm htracks.serving hc c).2 part hpart
    rw [hnet] at hcrash
    rw [Option.toList_some, netOf_append]
    by_cases hin : d.InFlush part.length
    · rw [hcrash.inside hin]
      simp [hin]
    · simp only [hin, false_implies, iff_true]
      rcases hcrash.outside hin with hrec | hrec
      · exact ⟨_, hrec, .inl rfl⟩
      · exact ⟨_, hrec, .inr rfl⟩

omit [Zero R] in
instance (d : DynamicExtension T L) (made : Nat) : Decidable (d.InFlush made) :=
  inferInstanceAs (Decidable (_ ∧ _))

theorem stopped_take {d₀ d : DynamicExtension T L} {returned : List (Call R)}
    {inFlight : Option (Call R)} (hrun : d₀.run true returned = some d) {made : Nat}
    (hmade : (d₀.runTraced true returned).steps.length ≤ made) :
    Stopped d₀ returned inFlight
      ((d₀.runTraced true (returned ++ inFlight.toList)).steps.take made) where
  all := by
    rw [List.prefix_take_iff, steps_runTraced_append _ _ hrun]
    exact ⟨List.prefix_append .., hmade⟩
  part := List.take_prefix ..

end Steps

/-- A stop between the truncation of the log and the entry of the call that flushed -/
theorem recovers_iff_sample :
    let T := ISAMTree.shardType NodeLayout.words (StdLib.sorted (Record Nat Nat))
    ∃ d₀, new T .teiring 1 1 2 none (some []) = some d₀ ∧
      Recovers T .teiring 1 1 2 [.insert ⟨1, 5⟩] (some (.insert ⟨2, 6⟩))
        ((d₀.runTraced true [.insert ⟨1, 5⟩, .insert ⟨2, 6⟩]).steps.take 5) := by
  intro T
  have hsome : (new T .teiring 1 1 2 none (some [])).isSome := by decide +kernel
  obtain ⟨d₀, hnew⟩ := Option.isSome_iff_exists.mp hsome
  have hok : ∀ d₀ ∈ new T .teiring 1 1 2 none (some []),
      d₀.RunOk true [.insert ⟨1, 5⟩, .insert ⟨2, 6⟩] ∧ (d₀.run true [.insert ⟨1, 5⟩]).isSome ∧
      (d₀.runTraced true [.insert ⟨1, 5⟩]).steps.length = 1 ∧
      (d₀.runTraced true [.insert ⟨1, 5⟩, .insert ⟨2, 6⟩]).steps.length = 6 ∧
      ∀ d ∈ d₀.run true [.insert ⟨1, 5⟩], ¬ d.InFlush 4 := by decide +kernel
  obtain ⟨hok, hrun, hone, hsix, hout⟩ := hok d₀ hnew
  obtain ⟨d, hrun⟩ := Option.isSome_iff_exists.mp hrun
  have hstop : Stopped d₀ _ (some (.insert ⟨2, 6⟩)) _ := stopped_take hrun (show _ ≤ 5 by omega)
  refine ⟨d₀, hnew, (recovers_iff (ISAMTree.mergesRecords _ _) (by decide) (by decide) (by decide)
    (by decide) hnew hok hstop).mpr fun d hd hin => absurd ?_ (hout d hd)⟩
  simpa [hone, hsix] using hin

/-- The process stops behind the checkpoint of a flush: the flushed record is in the
shard and still in the log, and is counted twice. -/
theorem not_recovers :
    let T := ISAMTree.shardType NodeLayout.words (StdLib.sorted (Record Nat Nat))
    ∃ d₀, new T .teiring 1 1 2 none (some []) = some d₀ ∧
      d₀.RunOk true [.insert ⟨1, 5⟩, .insert ⟨2, 6⟩] ∧
      Stopped d₀ [.insert ⟨1, 5⟩] (some (.insert ⟨2, 6⟩))
        ((d₀.runTraced true [.insert ⟨1, 5⟩, .insert ⟨2, 6⟩]).steps.take 2) ∧
      ¬ Recovers T .teiring 1 1 2 [.insert ⟨1, 5⟩] (some (.insert ⟨2, 6⟩))
        ((d₀.runTraced true [.insert ⟨1, 5⟩, .insert ⟨2, 6⟩]).steps.take 2) := by
  intro T
  have hsome : (new T .teiring 1 1 2 none (some [])).isSome := by decide +kernel
  obtain ⟨d₀, hnew⟩ := Option.isSome_iff_exists.mp hsome
  have hok : ∀ d₀ ∈ new T .teiring 1 1 2 none (some []),
      d₀.RunOk true [.insert ⟨1, 5⟩, .insert ⟨2, 6⟩] ∧ (d₀.run true [.insert ⟨1, 5⟩]).isSome ∧
      (d₀.runTraced true [.insert ⟨1, 5⟩]).steps.length = 1 ∧
      (recovered T .teiring 1 1 2 (Disk.empty.after
        ((d₀.runTraced true [.insert ⟨1, 5⟩, .insert ⟨2, 6⟩]).steps.take 2))).map
          (fun n => n ⟨1, 5⟩) = some 2 := by decide +kernel
  obtain ⟨hok, hrun, hone, htwice⟩ := hok d₀ hnew
  obtain ⟨d, hrun⟩ := Option.isSome_iff_exists.mp hrun
  refine ⟨d₀, hnew, hok, stopped_take hrun (by omega), ?_⟩
  rintro ⟨n, hn, hcase⟩
  rw [hn, Option.map_some, Option.some.injEq] at htwice
  rcases hcase with rfl | rfl <;> exact absurd htwice (by decide)

end DynamicExtension

end De
