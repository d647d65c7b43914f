import DynamicExtension.EpochViews
import DynamicExtension.WriteAheadLogging
import DynamicExtension.Library.StepRun
set_option autoImplicit false

namespace De
open StepRun
variable {R : Type} [DecidableEq R] [Zero R] {T : ShardType R} {L : LayoutPolicy}

/-- The steps of the appending threads and of the one reconstruction job -/
inductive FlushStep (R : Type) where
  | append (rec : R) (ts : Bool)
  | capture
  | flushBuffer
  | advanceHead
  deriving DecidableEq, Repr

/-- Where the reconstruction job stands -/
inductive FlushJob (R : Type) where
  | idle
  | scheduled (merges : ReconstructionVector)
  | captured (view : BufferView R)
  | flushed (newHead : Nat)

/-- `new_head`, from the flush on -/
def FlushJob.newHead : FlushJob R → Option Nat
  | .flushed newHead => some newHead
  | _ => none

/-- The framework, its reconstruction job, and for each append that returned 1 the
buffer index and what was appended -/
structure FlushSystem (T : ShardType R) (L : LayoutPolicy) where
  ext : DynamicExtension T L
  job : FlushJob R
  appended : List (Nat × R × Bool)

namespace FlushSystem

/-- An append, and its index if it returns 1 -/
def note (p : MutableBuffer R × List (Nat × R × Bool)) (rec : R) (ts logging : Bool) :
    MutableBuffer R × List (Nat × R × Bool) :=
  ((p.1.append rec ts logging).2,
    if (p.1.append rec ts logging).1 = 1 then p.2 ++ [(p.1.tail, rec, ts)] else p.2)

/-- The constructor; the appends so far are those of the replay. -/
def new (T : ShardType R) (L : LayoutPolicy) (lwm hwm scale : Nat)
    (checkpoint : Option (Checkpoint T)) (log : List (WALEntry R)) : Option (FlushSystem T L) := do
  let ext ← DynamicExtension.new T L lwm hwm scale checkpoint (some log)
  let replayed := (WriteAheadLogger.replay log).foldl
    (fun p w => note p w.record w.isTombstone false)
    (.empty lwm hwm (some (WriteAheadLogger.new log)), [])
  return ⟨ext, .idle, replayed.2⟩

omit [Zero R] in
/-- `schedule_reconstruction`, which leaves the job to another thread -/
def scheduleJob (d : DynamicExtension T L) : Option (DynamicExtension T L × FlushJob R) := do
  let d ← d.createNewEpoch
  let epoch ← d.nextEpoch.epoch
  return (d, .scheduled (epoch.vers.getReconstructionTasks d.buffer.getHighWatermark []))

omit [Zero R] in
/-- The first half of `internal_append` -/
def trigger (s : FlushSystem T L) : Option (DynamicExtension T L × FlushJob R) :=
  if s.ext.buffer.isAtLowWatermark ∧ s.ext.reconstructionScheduled = false then
    scheduleJob { s.ext with reconstructionScheduled := true }
  else
    some (s.ext, s.job)

/-- A call of `insert` or `erase`, with logging -/
def append (s : FlushSystem T L) (rec : R) (ts : Bool) : Option (FlushSystem T L) := do
  let (ext, job) ← s.trigger
  let noted := note (ext.buffer, s.appended) rec ts true
  return ⟨{ ext with buffer := noted.1 }, job, noted.2⟩

/-- `none` is a step that is not the job's next one, or that has to wait. -/
def step (s : FlushSystem T L) : FlushStep R → Option (FlushSystem T L)
  | .append rec ts => s.append rec ts
  | .capture =>
    match s.job with
    | .scheduled merges => do
      let epoch ← s.ext.nextEpoch.epoch
      let vers ← epoch.vers.reconstructTasks (ExtensionStructure.jobTasks L merges)
      let (view, buffer) ← s.ext.buffer.getBufferView epoch.bufferHead
      let next : EpochPtr T L := ⟨some { epoch with vers := vers }, s.ext.nextEpoch.refcnt⟩
      return { s with
        ext := { s.ext with buffer := buffer, nextEpoch := next }, job := .captured view }
    | _ => none
  | .flushBuffer =>
    match s.job with
    | .captured view => do
      let epoch ← s.ext.nextEpoch.epoch
      let vers ← epoch.vers.flushBuffer { view with data := s.ext.buffer.data }
      let buffer ← s.ext.buffer.releaseHeadReference view.head
      let next : EpochPtr T L := ⟨some { epoch with vers := vers }, s.ext.nextEpoch.refcnt⟩
      return { s with
        ext := { s.ext with buffer := buffer, nextEpoch := next }, job := .flushed view.tail }
    | _ => none
  | .advanceHead =>
    match s.job with
    | .flushed newHead => do
      let ext ← s.ext.advanceEpoch newHead
      return { s with ext := { ext with reconstructionScheduled := false }, job := .idle }
    | _ => none

omit [Zero R] in
def log (s : FlushSystem T L) : List (WALEntry R) :=
  (s.ext.buffer.wal.map WriteAheadLogger.file).getD []

omit [DecidableEq R] [Zero R] in
/-- What the `INSERT` entries of a log insert -/
def inserted (log : List (WALEntry R)) : List (R × Bool) :=
  ((log.filter fun e => e.type = .insert).map WALEntry.payload).map Wrapped.payload

omit [Zero R] in
/-- The appends that returned 1 with an index at or after the head -/
def pending (s : FlushSystem T L) (head : Nat) : List (R × Bool) :=
  (s.appended.filter fun p => head ≤ p.1).map Prod.snd

omit [Zero R] in
/-- Each record whose append returned 1 and that is not before the buffer's head has
an `INSERT` entry of its own in the log. -/
def Durable (s : FlushSystem T L) : Prop :=
  (s.pending s.ext.buffer.head.headIdx).Subperm (inserted s.log)

omit [Zero R] in
/-- The head is only advanced past all appends that returned 1. -/
def Covers (s : FlushSystem T L) : FlushStep R → Prop
  | .advanceHead => ∀ newHead ∈ s.job.newHead, s.pending newHead = []
  | _ => True

omit [Zero R] in
instance (s : FlushSystem T L) (op : FlushStep R) : Decidable (s.Covers op) :=
  match op with
  | .advanceHead =>
    inferInstanceAs (Decidable (∀ newHead ∈ s.job.newHead, s.pending newHead = []))
  | .append _ _ | .capture | .flushBuffer => isTrue trivial

omit [Zero R] in
instance (s : FlushSystem T L) : Decidable s.Durable :=
  inferInstanceAs (Decidable (List.Subperm _ _))

end FlushSystem

namespace FlushSystem
variable {s s' : FlushSystem T L} {w : WriteAheadLogger R}

omit [DecidableEq R] [Zero R] in
@[simp] theorem inserted_append (l l' : List (WALEntry R)) :
    inserted (l ++ l') = inserted l ++ inserted l' := by
  simp [inserted]

/-- What a step does to the log, the head and the appends -/
inductive Effect (s : FlushSystem T L) (w : WriteAheadLogger R) :
    FlushStep R → FlushSystem T L → WriteAheadLogger R → Prop
  | append {s' : FlushSystem T L} {rec : R} {ts : Bool} (i : Nat)
      (hhead : s'.ext.buffer.head.headIdx = s.ext.buffer.head.headIdx)
      (happ : s'.appended = s.appended ++ [(i, rec, ts)]) :
      Effect s w (.append rec ts) s' (w.append (Wrapped.fresh rec ts))
  | none {op : FlushStep R} {s' : FlushSystem T L} (hop : op ≠ .advanceHead)
      (hhead : s'.ext.buffer.head.headIdx = s.ext.buffer.head.headIdx)
      (happ : s'.appended = s.appended) : Effect s w op s' w
  | advance {s' : FlushSystem T L} {newHead : Nat} (hjob : s.job = .flushed newHead)
      (hhead : s'.ext.buffer.head.headIdx = newHead) (happ : s'.appended = s.appended) :
      Effect s w .advanceHead s' w.flushBegin.flushComplete

omit [Zero R] in
theorem buffer_trigger {d : DynamicExtension T L} {job : FlushJob R}
    (h : s.trigger = some (d, job)) : d.buffer = s.ext.buffer := by
  unfold trigger at h
  split at h
  · obtain ⟨d₁, hd₁, h⟩ := Option.bind_eq_some_iff.mp h
    obtain ⟨e, -, h⟩ := Option.bind_eq_some_iff.mp h
    obtain ⟨rfl, -⟩ := Prod.mk.inj (Option.some.inj h)
    have hbuf := DynamicExtension.buffer_createNewEpoch hd₁
    exact hbuf
  · obtain ⟨rfl, -⟩ := Prod.mk.inj (Option.some.inj h)
    rfl

theorem effect_append (hw : s.ext.buffer.wal = some w) {rec : R} {ts : Bool}
    (h : s.append rec ts = some s') :
    ∃ w', s'.ext.buffer.wal = some w' ∧ Effect s w (.append rec ts) s' w' := by
  obtain ⟨⟨d, job⟩, hd, h⟩ := Option.bind_eq_some_iff.mp h
  obtain rfl := Option.some.inj h
  have hbuf := buffer_trigger hd
  rw [← hbuf] at hw
  obtain ⟨hhead, ⟨hret, hwal⟩ | ⟨hret, hwal⟩⟩ := d.buffer.append_cases rec ts true
  · rw [if_pos rfl, hw, Option.map_some] at hwal
    refine ⟨_, hwal, .append d.buffer.tail ?_ (if_pos hret)⟩
    rw [← hbuf]
    exact congrArg BufferHead.headIdx hhead
  · rw [hw] at hwal
    refine ⟨_, hwal, .none (by simp) ?_ (if_neg (by simp [hret]))⟩
    rw [← hbuf]
    exact congrArg BufferHead.headIdx hhead

theorem step_effect (hw : s.ext.buffer.wal = some w) {op : FlushStep R} (h : s.step op = some s') :
    ∃ w', s'.ext.buffer.wal = some w' ∧ Effect s w op s' w' := by
  cases op with
  | append rec ts => exact effect_append hw h
  | capture =>
    cases hjob : s.job with
    | scheduled merges =>
      simp only [step, hjob] at h
      obtain ⟨e, -, h⟩ := Option.bind_eq_some_iff.mp h
      obtain ⟨vers, -, h⟩ := Option.bind_eq_some_iff.mp h
      obtain ⟨⟨v, b⟩, hb, h⟩ := Option.bind_eq_some_iff.mp h
      obtain rfl := Option.some.inj h
      have hring := (MutableBuffer.getBufferView_cases hb).2
      exact ⟨w, hring.wal.trans hw, .none (by simp) hring.heads.1.symm rfl⟩
    | _ => simp [step, hjob] at h
  | flushBuffer =>
    cases hjob : s.job with
    | captured v =>
      simp only [step, hjob] at h
      obtain ⟨e, -, h⟩ := Option.bind_eq_some_iff.mp h
      obtain ⟨vers, -, h⟩ := Option.bind_eq_some_iff.mp h
      obtain ⟨b, hb, h⟩ := Option.bind_eq_some_iff.mp h
      obtain rfl := Option.some.inj h
      have hring := MutableBuffer.sameRing_releaseHeadReference hb
      exact ⟨w, hring.wal.trans hw, .none (by simp) hring.heads.1.symm rfl⟩
    | _ => simp [step, hjob] at h
  | advanceHead =>
    cases hjob : s.job with
    | flushed newHead =>
      simp only [step, hjob] at h
      obtain ⟨d, hd, h⟩ := Option.bind_eq_some_iff.mp h
      obtain rfl := Option.some.inj h
      obtain ⟨hhead, hwal⟩ := DynamicExtension.buffer_advanceEpoch hd
      rw [hw, Option.map_some] at hwal
      exact ⟨_, hwal, .advance hjob (congrArg BufferHead.headIdx hhead) rfl⟩
    | _ => simp [step, hjob] at h

/-- The log is written at its end, and it is durable. -/
structure Inv (s : FlushSystem T L) : Prop where
  atEnd : ∃ w, s.ext.buffer.wal = some w ∧ w.AtEnd
  durable : s.Durable

omit [Zero R] in
theorem log_eq (hw : s.ext.buffer.wal = some w) : s.log = w.file := by
  rw [log, hw]
  rfl

theorem Effect.inv {w' : WriteAheadLogger R} {op : FlushStep R} (h : Effect s w op s' w')
    (hw : s.ext.buffer.wal = some w) (hw' : s'.ext.buffer.wal = some w') (hend : w.AtEnd)
    (hdur : s.Durable) (hc : s.Covers op) : s'.Inv := by
  rw [Durable, log_eq hw] at hdur
  cases h with
  | @append _ rec ts i hhead happ =>
    have hfile := WriteAheadLogger.write_eq hend ⟨.insert, Wrapped.fresh rec ts⟩
    refine ⟨⟨_, hw', ?_⟩, ?_⟩
    · rw [WriteAheadLogger.append, hfile]
      rfl
    · rw [Durable, log_eq hw', hhead, WriteAheadLogger.append, hfile, pending, happ,
        List.filter_append, List.map_append]
      show List.Subperm _ (inserted (w.file ++ [⟨.insert, Wrapped.fresh rec ts⟩]))
      rw [inserted_append]
      refine List.Subperm.append hdur ?_
      by_cases hi : s.ext.buffer.head.headIdx ≤ i <;> simp [hi, inserted, Wrapped.payload]
  | none hop hhead happ =>
    refine ⟨⟨w, hw', hend⟩, ?_⟩
    rw [Durable, log_eq hw', hhead, pending, happ]
    exact hdur
  | advance hjob hhead happ =>
    refine ⟨⟨_, hw', WriteAheadLogger.atEnd_flushed hend⟩, ?_⟩
    have hnone : s'.pending s'.ext.buffer.head.headIdx = [] := by
      rw [hhead, pending, happ]
      exact hc _ (by rw [hjob]; rfl)
    rw [Durable, hnone]
    exact List.nil_subperm

omit [DecidableEq R] in
theorem replayed_spec (ws : List (Wrapped R)) (p : MutableBuffer R × List (Nat × R × Bool)) :
    (ws.foldl (fun b w => (b.append w.record w.isTombstone false).2) p.1).wal = p.1.wal ∧
      ∃ more, (ws.foldl (fun p w => note p w.record w.isTombstone false) p).2 = p.2 ++ more ∧
        (more.map Prod.snd).Sublist (ws.map Wrapped.payload) := by
  induction ws generalizing p with
  | nil => exact ⟨rfl, [], by simp, List.Sublist.slnil⟩
  | cons w ws ih =>
    obtain ⟨-, happend⟩ := p.1.append_cases w.record w.isTombstone false
    have hnext : (p.1.append w.record w.isTombstone false).2.wal = p.1.wal := by
      rcases happend with ⟨-, hw⟩ | ⟨-, hw⟩ <;> exact hw
    obtain ⟨hlast, more, happ, hsub⟩ := ih (note p w.record w.isTombstone false)
    refine ⟨hlast.trans hnext, ?_⟩
    rcases happend with ⟨hret, -⟩ | ⟨hret, -⟩
    · refine ⟨(p.1.tail, w.record, w.isTombstone) :: more, ?_, hsub.cons_cons _⟩
      rw [List.foldl_cons, happ, note, if_pos hret, List.append_assoc, List.singleton_append]
    · refine ⟨more, ?_, hsub.cons _⟩
      rw [List.foldl_cons, happ, note, if_neg (by simp [hret])]

theorem inv_new {lwm hwm scale : Nat} {checkpoint : Option (Checkpoint T)} {log : List (WALEntry R)}
    (h : new T L lwm hwm scale checkpoint log = some s) : s.Inv ∧ s.log = log := by
  obtain ⟨d, hd, h⟩ := Option.bind_eq_some_iff.mp h
  obtain rfl := Option.some.inj h
  obtain ⟨b, hb, hd⟩ := Option.bind_eq_some_iff.mp hd
  obtain ⟨-, -, hd⟩ := Option.bind_eq_some_iff.mp hd
  obtain ⟨vers, -, hd⟩ := Option.bind_eq_some_iff.mp hd
  obtain rfl := Option.some.inj hd
  obtain ⟨-, -, hb⟩ := Option.bind_eq_some_iff.mp hb
  obtain ⟨-, -, hb⟩ := Option.bind_eq_some_iff.mp hb
  obtain rfl := Option.some.inj hb
  obtain ⟨hwal, more, happ, hsub⟩ := replayed_spec (WriteAheadLogger.replay log)
    (.empty lwm hwm (some (WriteAheadLogger.new log)), [])
  refine ⟨⟨⟨_, hwal, rfl⟩, ?_⟩, by rw [log_eq hwal]; rfl⟩
  rw [Durable, log_eq hwal, pending, happ, List.nil_append]
  refine List.Sublist.subperm ((List.filter_sublist.map Prod.snd).trans (hsub.trans ?_))
  exact List.filter_sublist.map Wrapped.payload

/-- The log holds no `FLUSH_B`. -/
def Unmarked (s : FlushSystem T L) : Prop := ∀ e ∈ s.log, e.type ≠ .flushB

theorem Effect.unmarked {w' : WriteAheadLogger R} {op : FlushStep R} (h : Effect s w op s' w')
    (hw : s.ext.buffer.wal = some w) (hw' : s'.ext.buffer.wal = some w') (hend : w.AtEnd)
    (hm : s.Unmarked) : s'.Unmarked := by
  rw [Unmarked, log_eq hw] at hm
  rw [Unmarked, log_eq hw']
  cases h with
  | @append _ rec ts i hhead happ =>
    rw [WriteAheadLogger.append, WriteAheadLogger.write_eq hend]
    intro e he
    rcases List.mem_append.mp he with he | he
    · exact hm e he
    · rw [List.mem_singleton.mp he]
      simp
  | none hop hhead happ => exact hm
  | advance hjob hhead happ =>
    rw [WriteAheadLogger.flushed_eq hend hm]
    simp [WriteAheadLogger.new]

theorem Effect.covers {w' : WriteAheadLogger R} {op : FlushStep R} (h : Effect s w op s' w')
    (hw' : s'.ext.buffer.wal = some w') (hw : s.ext.buffer.wal = some w) (hend : w.AtEnd)
    (hm : s.Unmarked) (hdur : s'.Durable) : s.Covers op := by
  rw [Unmarked, log_eq hw] at hm
  cases h with
  | append => trivial
  | @none op _ hop =>
    cases op with
    | advanceHead => exact absurd rfl hop
    | _ => trivial
  | @advance s' newHead hjob hhead happ =>
    intro newHead' hjob'
    obtain rfl : newHead = newHead' := by simpa [hjob, FlushJob.newHead] using hjob'
    rw [Durable, log_eq hw', hhead, pending, happ, WriteAheadLogger.flushed_eq hend hm] at hdur
    exact List.subperm_nil.mp hdur

theorem step_inv {op : FlushStep R} (hi : s.Inv) (hc : s.Covers op) (h : s.step op = some s') :
    s'.Inv := by
  obtain ⟨w, hw, hend⟩ := hi.atEnd
  obtain ⟨w', hw', he⟩ := step_effect hw h
  exact he.inv hw hw' hend hi.durable hc

theorem step_covers {op : FlushStep R} (hi : s.Inv) (hm : s.Unmarked) (h : s.step op = some s')
    (hdur : s'.Durable) : s.Covers op ∧ s'.Inv ∧ s'.Unmarked := by
  obtain ⟨w, hw, hend⟩ := hi.atEnd
  obtain ⟨w', hw', he⟩ := step_effect hw h
  have hc := he.covers hw' hw hend hm hdur
  exact ⟨hc, step_inv hi hc h, he.unmarked hw hw' hend hm⟩

theorem reconstruction_eq (d : DynamicExtension T L) (merges : ReconstructionVector)
    (appended : List (Nat × R × Bool)) :
    d.reconstruction merges =
      (run step ⟨d, .scheduled merges, appended⟩ [.capture, .flushBuffer, .advanceHead]).map
        FlushSystem.ext := by
  rw [DynamicExtension.reconstruction, run_cons, step]
  cases he : d.nextEpoch.epoch with
  | none => simp
  | some e =>
    cases hv : e.vers.reconstructTasks (ExtensionStructure.jobTasks L merges) with
    | none => simp [hv]
    | some vers =>
      cases hb : d.buffer.getBufferView e.bufferHead with
      | none => simp [hv, hb]
      | some p =>
        obtain ⟨v, b⟩ := p
        have hdata : { v with data := b.data } = v := by
          obtain ⟨rfl, hring⟩ := MutableBuffer.getBufferView_cases hb
          rw [hring.data]
          rfl
        simp only [hv, hb, Option.bind_eq_bind, Option.bind_some, Option.pure_def, run_cons, step,
          hdata, run_nil]
        cases hf : vers.flushBuffer v with
        | none => simp
        | some vers' =>
          cases hr : b.releaseHeadReference v.head with
          | none => simp
          | some b' => simp [Option.map_bind]

/-- From a start on any log, a run in which the head is only advanced past all appends
that returned 1 is durable in the state that it reaches. Without a `FLUSH_B` in the log
there is no other run that is durable in all its states. -/
theorem durable_iff {lwm hwm scale : Nat} {checkpoint : Option (Checkpoint T)}
    {log : List (WALEntry R)} {s₀ : FlushSystem T L}
    (h : new T L lwm hwm scale checkpoint log = some s₀) (ops : List (FlushStep R)) :
    (Always step Covers s₀ ops → ∀ s, run step s₀ ops = some s → s.Durable) ∧
    ((∀ e ∈ log, e.type ≠ .flushB) → (run step s₀ ops).isSome →
      (∀ pre, pre <+: ops → ∀ s, run step s₀ pre = some s → s.Durable) →
        Always step Covers s₀ ops) := by
  obtain ⟨hi, hlog⟩ := inv_new h
  refine ⟨fun hops s hs => ?_, fun hm hrun hdur => ?_⟩
  · exact (inv_of_run (fun _ _ _ => step_inv) hi hops hs).durable
  · have hstep : ∀ (s : FlushSystem T L) op s', s.Inv ∧ s.Unmarked → step s op = some s' →
        s'.Durable → s.Covers op ∧ s'.Inv ∧ s'.Unmarked :=
      fun _ _ _ hs => step_covers hs.1 hs.2
    exact always_of_good hstep ⟨hi, by rwa [Unmarked, hlog]⟩ hrun hdur

theorem durable_iff_sample :
    let ops : List (FlushStep (Record Nat Nat)) := [.append ⟨1, 5⟩ false, .append ⟨2, 6⟩ false,
      .capture, .flushBuffer, .advanceHead, .append ⟨3, 7⟩ false]
    ∃ s₀ s, new (ISAMTree.shardType NodeLayout.words (StdLib.sorted (Record Nat Nat))) .teiring
        1 3 2 none [] = some s₀ ∧ run step s₀ ops = some s ∧ s.Durable := by
  intro ops
  have hnew : ∀ s₀ ∈ new (ISAMTree.shardType NodeLayout.words (StdLib.sorted (Record Nat Nat)))
      .teiring 1 3 2 none [], Always step Covers s₀ ops ∧ (run step s₀ ops).isSome := by
    decide +kernel
  obtain ⟨s₀, h₀⟩ : ∃ s₀, new (ISAMTree.shardType NodeLayout.words (StdLib.sorted (Record Nat Nat)))
      .teiring 1 3 2 none [] = some s₀ := ⟨_, rfl⟩
  obtain ⟨hops, hrun⟩ := hnew s₀ h₀
  obtain ⟨s, hs⟩ := Option.isSome_iff_exists.mp hrun
  exact ⟨s₀, s, h₀, hs, (durable_iff h₀ ops).1 hops s hs⟩

/-- An append between the capture of the tail and the first marker: its entry goes with
those of the flushed records. -/
theorem not_durable :
    let ops : List (FlushStep (Record Nat Nat)) := [.append ⟨1, 5⟩ false, .append ⟨2, 6⟩ false,
      .capture, .append ⟨3, 7⟩ false, .flushBuffer, .advanceHead]
    ∃ s₀ s, new (ISAMTree.shardType NodeLayout.words (StdLib.sorted (Record Nat Nat))) .teiring
        1 3 2 none [] = some s₀ ∧ run step s₀ ops = some s ∧
      s.appended.map Prod.fst = [0, 1, 2] ∧ s.ext.buffer.head.headIdx = 2 ∧ s.log = [] ∧
      ¬ s.Durable := by
  intro ops
  have hrun : (new (ISAMTree.shardType NodeLayout.words (StdLib.sorted (Record Nat Nat))) .teiring
      1 3 2 none []).bind (fun s₀ => (run step s₀ ops).map fun s =>
        decide (s.appended.map Prod.fst = [0, 1, 2] ∧ s.ext.buffer.head.headIdx = 2 ∧
          s.log = [] ∧ ¬ s.Durable)) = some true := by decide +kernel
  obtain ⟨s₀, h₀, hrun⟩ := Option.bind_eq_some_iff.mp hrun
  obtain ⟨s, hs, hfinal⟩ := Option.map_eq_some_iff.mp hrun
  exact ⟨s₀, s, h₀, hs, of_decide_eq_true hfinal⟩

end FlushSystem

end De
