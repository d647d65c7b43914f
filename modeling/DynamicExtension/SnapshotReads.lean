import DynamicExtension.BufferRuns
import DynamicExtension.EpochViews
import DynamicExtension.RecencyOrder
set_option autoImplicit false

namespace De
variable {R : Type} [DecidableEq R] {T : ShardType R} {L : LayoutPolicy}

/-- Where `reconstruction` stands: with tasks to do, with the view to flush in hand, with
the flush done, and with the view let go, whose tail is the head to come -/
inductive FlushStage where
  | idle
  | merging (todo : List ReconstructionTask)
  | holding (head tail : Nat)
  | flushed (head tail : Nat)
  | released (tail : Nat)

/-- The view that the job holds -/
def FlushStage.views : FlushStage → List (Nat × Nat)
  | .holding head tail => [(head, tail)]
  | .flushed head tail => [(head, tail)]
  | _ => []

/-- The framework with the pins and the views of its readers, and the appends so far -/
structure ReadSystem (T : ShardType R) (L : LayoutPolicy) where
  ext : DynamicExtension T L
  phase : Phase
  job : FlushStage
  pins : Multiset (Epoch T L)
  views : List (Nat × Nat)
  appended : List (R × Bool)
  advanced : Bool

/-- The signed multiset of appends -/
def netAppended (cs : List (R × Bool)) : R → ℤ := net (cs.map fun c => Wrapped.fresh c.1 c.2)

theorem netAppended_append (cs ds : List (R × Bool)) :
    netAppended (cs ++ ds) = netAppended cs + netAppended ds := by
  rw [netAppended, List.map_append, net_append]
  rfl

theorem netAppended_take {cs : List (R × Bool)} {m n : Nat} (h : m ≤ n) :
    netAppended (cs.take n) =
      netAppended (cs.take m) + netAppended ((cs.drop m).take (n - m)) := by
  rw [← netAppended_append, ← List.take_add, Nat.add_sub_cancel' h]

theorem ExtensionStructure.net_byAge (s : ExtensionStructure T L) :
    (s.byAge.map shardNet).sum = s.net := by
  have hlevels : s.levels.map InternalLevel.net =
      (List.range s.levels.length).map fun i => (s.levelAt i).net := by
    apply List.ext_getElem
    · simp
    · intro i hi hi'
      have hi : i < s.levels.length := by simpa using hi
      simp [levelAt, List.getElem?_eq_getElem hi]
  rw [byAge, Blocks.sum_downFrom, net, hlevels]
  simp only [sum_shardNet]
  rfl

omit [DecidableEq R] in
theorem MutableBuffer.SameRing.records {b b' : MutableBuffer R} (h : b.SameRing b')
    (head : Nat) : (b'.viewFrom head).records = (b.viewFrom head).records := by
  rw [MutableBuffer.viewFrom, h.data, h.tail, h.cap]
  rfl

omit [DecidableEq R] in
theorem MutableBuffer.advanceHead_bounds [Zero R] {b : MutableBuffer R} {newHead : Nat}
    {result : Bool × MutableBuffer R} (h : b.advanceHead newHead = some result) :
    b.head.headIdx < newHead ∧ newHead ≤ b.tail := by
  obtain ⟨_, hlt, h⟩ := Option.bind_eq_some_iff.mp h
  obtain ⟨_, hle, -⟩ := Option.bind_eq_some_iff.mp h
  rw [Option.guard_eq_some'] at hlt hle
  exact ⟨hlt, hle⟩

omit [DecidableEq R] in
theorem MutableBuffer.advanceHead_refused [Zero R] {b b' : MutableBuffer R} {newHead : Nat}
    (h : b.advanceHead newHead = some (false, b')) : b' = b := by
  obtain ⟨hlt, hle⟩ := MutableBuffer.advanceHead_bounds h
  rw [MutableBuffer.BufferRun.advanceHead_eq hlt hle] at h
  split at h
  · exact (Prod.mk.inj (Option.some.inj h)).2.symm
  · cases (Prod.mk.inj (Option.some.inj h)).1

namespace MutableBuffer.BufferRun
variable [Zero R] {hwm : Nat} {s : BufferRun R}

omit [DecidableEq R] [Zero R] in
theorem Stable.perm (h : s.Stable hwm) {views : List (Nat × Nat)} (hp : s.views.Perm views) :
    Stable hwm { s with views := views } :=
  ⟨h.hwm_pos, h.hwm_eq, h.cap, h.count, h.head_le, h.count_le, h.fresh, h.old,
    h.headRefs.trans (hp.countP_eq _), h.oldRefs.trans (hp.countP_eq _),
    fun v hv => h.views v (hp.mem_iff.mpr hv), h.slots⟩

omit [Zero R] in
theorem Stable.net_view (h : s.Stable hwm) {v : Nat × Nat} (hv : v ∈ s.views) :
    net (s.viewOf v).records = netAppended ((s.appended.drop v.1).take (v.2 - v.1)) := by
  have hcount : (s.viewOf v).getRecordCount = v.2 - v.1 := rfl
  have htail := (h.views v hv).2
  have hlen := h.count
  refine net_congr ?_
  apply List.ext_getElem
  · simp only [BufferView.records, List.length_map, List.length_range, List.length_take,
      List.length_drop, hcount]
    omega
  · intro i hi hi'
    have hlt : i < v.2 - v.1 := by simpa [BufferView.records, hcount] using hi
    obtain ⟨c, hc, hget⟩ := h.get hv hlt
    obtain ⟨hlt', hc⟩ := List.getElem?_eq_some_iff.mp hc
    simp [BufferView.records, hget, hc, Wrapped.payload]

omit [DecidableEq R] [Zero R] in
theorem Stable.live_view (h : s.Stable hwm) {v : Nat × Nat} (hv : v ∈ s.views) :
    ∀ w ∈ (s.viewOf v).records, w.isDeleted = false := by
  intro w hw
  obtain ⟨i, hi, rfl⟩ := List.mem_map.mp hw
  obtain ⟨c, -, hget⟩ := h.get hv (List.mem_range.mp hi)
  rw [hget]
  exact isDeleted_slotContent ..

end MutableBuffer.BufferRun

namespace ExtensionStructure

/-- A run of flushes made the structure of the first appends, none of them tagged. -/
def Holds (hwm scale : Nat) (s : ExtensionStructure T L) (appended : List (R × Bool)) (n : Nat) :
    Prop :=
  ∃ vs, FlushRun T L hwm scale vs s ∧
    (vs.map fun v => De.net v.records).sum = netAppended (appended.take n) ∧
    ∀ v ∈ vs, ∀ w ∈ v.records, w.isDeleted = false

variable {hwm scale : Nat} {s : ExtensionStructure T L} {appended : List (R × Bool)} {n : Nat}

theorem Holds.net (h : s.Holds hwm scale appended n) :
    s.net = netAppended (appended.take n) := by
  obtain ⟨vs, hrun, hvs, -⟩ := h
  rw [← s.net_byAge, hrun.covers.sum, hvs]

theorem Holds.append (h : s.Holds hwm scale appended n) (hn : n ≤ appended.length)
    (later : List (R × Bool)) : s.Holds hwm scale (appended ++ later) n := by
  obtain ⟨vs, hrun, hvs, hlive⟩ := h
  exact ⟨vs, hrun, by rw [hvs, List.take_append_of_le_length hn], hlive⟩

end ExtensionStructure

namespace ReadSystem
variable [Zero R]

/-- The epochs with the pins on them -/
def epochSystem (s : ReadSystem T L) : EpochSystem T L := ⟨s.ext, s.phase, s.pins, 0⟩

def bufferRun (s : ReadSystem T L) : MutableBuffer.BufferRun R :=
  ⟨s.ext.buffer, s.appended, s.views ++ s.job.views, s.advanced⟩

/-- The calls of writers and readers and the steps of the one reconstruction, in any order.
Under BSM level 0 holds a record or has a free slot when a reconstruction begins. -/
inductive Step : ReadSystem T L → ReadSystem T L → Prop
  | append {s : ReadSystem T L} (hsmall : s.ext.buffer.tail < 2 ^ 31) (rec : R)
      (ts logging : Bool) :
      Step s { s with
        ext := { s.ext with buffer := (s.ext.buffer.append rec ts logging).2 }
        appended :=
          if (s.ext.buffer.append rec ts logging).1 = 1 then s.appended ++ [(rec, ts)]
          else s.appended }
  | pin {s : ReadSystem T L} {e : Epoch T L} {d : DynamicExtension T L}
      (h : s.ext.getActiveEpoch = some (e, d)) : Step s { s with ext := d, pins := e ::ₘ s.pins }
  | unpin {s : ReadSystem T L} {e : Epoch T L} {d : DynamicExtension T L}
      {pins : Multiset (Epoch T L)} (hp : s.pins = e ::ₘ pins) (h : s.ext.endJob e = some d) :
      Step s { s with ext := d, pins := pins }
  | acquire {s : ReadSystem T L} {e : Epoch T L} {v : BufferView R} {b : MutableBuffer R}
      (he : e ∈ s.pins) (h : s.ext.buffer.getBufferView e.bufferHead = some (v, b)) :
      Step s { s with
        ext := { s.ext with buffer := b }
        views := (v.head, v.tail) :: s.views }
  | release {s : ReadSystem T L} {v : Nat × Nat} {b : MutableBuffer R} (hv : v ∈ s.views)
      (h : s.ext.buffer.releaseHeadReference v.1 = some b) :
      Step s { s with ext := { s.ext with buffer := b }, views := s.views.erase v }
  | create {s : ReadSystem T L} {d : DynamicExtension T L} {n : Epoch T L}
      (hp : s.phase = .idle) (hslot : ∀ c ∈ s.ext.currentEpoch.epoch, c.vers.FindsSlot)
      (h : s.ext.createNewEpoch = some d) (hn : d.nextEpoch.epoch = some n) :
      Step s { s with
        ext := d
        phase := .building
        job := .merging (ExtensionStructure.jobTasks L
          (n.vers.getReconstructionTasks d.buffer.getHighWatermark [])) }
  | merge {s : ReadSystem T L} {n : Epoch T L} {task : ReconstructionTask}
      {todo : List ReconstructionTask} {vers : ExtensionStructure T L}
      (hp : s.phase = .building) (hj : s.job = .merging (task :: todo))
      (hn : s.ext.nextEpoch.epoch = some n) (h : n.vers.reconstructTask task = some vers) :
      Step s { s with
        ext := { s.ext with nextEpoch := ⟨some { n with vers := vers }, s.ext.nextEpoch.refcnt⟩ }
        job := .merging todo }
  | capture {s : ReadSystem T L} {n : Epoch T L} {v : BufferView R} {b : MutableBuffer R}
      (hp : s.phase = .building) (hj : s.job = .merging [])
      (hn : s.ext.nextEpoch.epoch = some n)
      (h : s.ext.buffer.getBufferView n.bufferHead = some (v, b)) :
      Step s { s with ext := { s.ext with buffer := b }, job := .holding v.head v.tail }
  | flush {s : ReadSystem T L} {n : Epoch T L} {head tail : Nat} {vers : ExtensionStructure T L}
      (hp : s.phase = .building) (hj : s.job = .holding head tail)
      (hn : s.ext.nextEpoch.epoch = some n)
      (h : n.vers.flushBuffer (s.bufferRun.viewOf (head, tail)) = some vers) :
      Step s { s with
        ext := { s.ext with nextEpoch := ⟨some { n with vers := vers }, s.ext.nextEpoch.refcnt⟩ }
        job := .flushed head tail }
  | letGo {s : ReadSystem T L} {head tail : Nat} {b : MutableBuffer R}
      (hp : s.phase = .building) (hj : s.job = .flushed head tail)
      (h : s.ext.buffer.releaseHeadReference head = some b) :
      Step s { s with ext := { s.ext with buffer := b }, job := .released tail }
  | retire {s : ReadSystem T L} {d : DynamicExtension T L} {tail : Nat}
      (hp : s.phase = .building) (hj : s.job = .released tail)
      (h : s.ext.retireEpoch = some d) : Step s { s with ext := d, phase := .retired }
  | move {s : ReadSystem T L} (hp : s.phase = .retired) :
      Step s { s with
        ext := { s.ext with currentEpoch := ⟨none, 0⟩, previousEpoch := s.ext.currentEpoch }
        phase := .moved }
  | advanceHead {s : ReadSystem T L} {n : Epoch T L} {tail : Nat} {done : Bool}
      {b : MutableBuffer R} (hp : s.phase = .moved) (hj : s.job = .released tail)
      (hn : s.ext.nextEpoch.epoch = some n)
      (h : s.ext.buffer.advanceHead tail = some (done, b)) :
      Step s { s with
        ext := { s.ext with
          buffer := b
          nextEpoch := ⟨some { n with bufferHead := tail }, s.ext.nextEpoch.refcnt⟩ }
        phase := if done then .advanced else .moved
        job := if done then .idle else .released tail
        advanced := s.advanced || done }
  | install {s : ReadSystem T L} (hp : s.phase = .advanced) :
      Step s { s with
        ext := { s.ext with currentEpoch := s.ext.nextEpoch, nextEpoch := ⟨none, 0⟩ }
        phase := .idle }

/-- All states of all runs on a new index -/
inductive Reached (lwm hwm scale : Nat) : ReadSystem T L → Prop
  | new {log : Option (List (WALEntry R))} (hlog : ∀ file, log = some file → file = [])
      {d : DynamicExtension T L}
      (h : DynamicExtension.new T L lwm hwm scale none log = some d) :
      Reached lwm hwm scale ⟨d, .idle, .idle, 0, [], [], false⟩
  | step {s s' : ReadSystem T L} (hs : Reached lwm hwm scale s) (h : Step s s') :
      Reached lwm hwm scale s'

/-- What the next epoch is made of while it is being built over the epoch in use -/
def Made (hwm scale : Nat) (appended : List (R × Bool)) (c n : Epoch T L) : FlushStage → Prop
  | .idle => False
  | .merging todo => c.vers.FindsSlot ∧ ∃ done, c.vers.roundTasks hwm = done ++ todo ∧
      c.vers.copy.reconstructTasks done = some n.vers
  | .holding head tail => c.vers.FindsSlot ∧ head = n.bufferHead ∧ head ≤ tail ∧
      c.vers.copy.reconstructTasks (c.vers.roundTasks hwm) = some n.vers
  | .flushed _ tail => tail ≤ appended.length ∧ n.vers.Holds hwm scale appended tail
  | .released tail => tail ≤ appended.length ∧ n.vers.Holds hwm scale appended tail

/-- What the next epoch holds in each part of a reconstruction -/
def Advances (hwm scale : Nat) (appended : List (R × Bool)) (job : FlushStage)
    (current next : Option (Epoch T L)) : Phase → Prop
  | .idle => job = .idle
  | .building => ∀ c ∈ current, ∀ n ∈ next, Made hwm scale appended c n job
  | .retired | .moved => ∃ tail, job = .released tail ∧ tail ≤ appended.length ∧
      ∀ n ∈ next, n.vers.Holds hwm scale appended tail
  | .advanced => job = .idle ∧ ∀ n ∈ next, n.bufferHead ≤ appended.length ∧
      n.vers.Holds hwm scale appended n.bufferHead

/-- What holds between two steps -/
structure Inv (hwm scale : Nat) (s : ReadSystem T L) : Prop where
  epochs : s.epochSystem.Inv
  run : s.bufferRun.Stable hwm
  used : ∀ e, e ∈ s.ext.currentEpoch.epoch ∨ e ∈ s.ext.previousEpoch.epoch →
    e.bufferHead ≤ s.ext.buffer.head.headIdx ∧ e.vers.Holds hwm scale s.appended e.bufferHead
  ordered : ∀ v ∈ s.views, v.1 ≤ v.2
  next : Advances hwm scale s.appended s.job s.ext.currentEpoch.epoch s.ext.nextEpoch.epoch
    s.phase

section Steps
open MutableBuffer ExtensionStructure
variable {lwm hwm scale : Nat} {s : ReadSystem T L} {d : DynamicExtension T L}

omit [Zero R] in
theorem Inv.length (h : Inv hwm scale s) : s.appended.length = s.ext.buffer.tail := h.run.count

omit [Zero R] in
theorem Inv.placed (h : Inv hwm scale s) :
    EpochSystem.Placed s.ext.buffer.head.headIdx s.ext.buffer.oldHead.headIdx s.phase
      s.ext.previousEpoch.epoch s.ext.currentEpoch.epoch s.ext.nextEpoch.epoch :=
  h.epochs.placed

omit [Zero R] in
theorem Inv.pinned (h : Inv hwm scale s) {e : Epoch T L} (he : e ∈ s.pins) :
    e ∈ s.ext.currentEpoch.epoch ∨ e ∈ s.ext.previousEpoch.epoch :=
  h.epochs.pinned e he

omit [Zero R] in
theorem Inv.head_le (h : Inv hwm scale s) :
    s.ext.buffer.head.headIdx ≤ s.appended.length := by
  rw [h.length]
  exact h.run.head_le

omit [Zero R] in
theorem Advances.append {appended : List (R × Bool)} {job : FlushStage}
    {current next : Option (Epoch T L)} {phase : Phase}
    (h : Advances hwm scale appended job current next phase) (later : List (R × Bool)) :
    Advances hwm scale (appended ++ later) job current next phase := by
  have hlen : ∀ n, n ≤ appended.length → n ≤ (appended ++ later).length := by
    intro n hn
    rw [List.length_append]
    omega
  cases phase with
  | idle => exact h
  | building =>
    intro c hc n hn
    have hmade := h c hc n hn
    cases job with
    | idle => exact hmade
    | merging todo => exact hmade
    | holding head tail => exact hmade
    | flushed head tail => exact ⟨hlen _ hmade.1, hmade.2.append hmade.1 later⟩
    | released tail => exact ⟨hlen _ hmade.1, hmade.2.append hmade.1 later⟩
  | retired =>
    obtain ⟨tail, hjob, hle, hholds⟩ := h
    exact ⟨tail, hjob, hlen _ hle, fun n hn => (hholds n hn).append hle later⟩
  | moved =>
    obtain ⟨tail, hjob, hle, hholds⟩ := h
    exact ⟨tail, hjob, hlen _ hle, fun n hn => (hholds n hn).append hle later⟩
  | advanced =>
    exact ⟨h.1, fun n hn => ⟨hlen _ (h.2 n hn).1, (h.2 n hn).2.append (h.2 n hn).1 later⟩⟩

theorem Inv.append (h : Inv hwm scale s) (hsmall : s.ext.buffer.tail < 2 ^ 31) (rec : R)
    (ts logging : Bool) :
    Inv hwm scale { s with
      ext := { s.ext with buffer := (s.ext.buffer.append rec ts logging).2 }
      appended :=
        if (s.ext.buffer.append rec ts logging).1 = 1 then s.appended ++ [(rec, ts)]
        else s.appended } := by
  have hheads := sameHeads_append s.ext.buffer rec ts logging
  have hrun : (⟨(s.ext.buffer.append rec ts logging).2,
      if (s.ext.buffer.append rec ts logging).1 = 1 then s.appended ++ [(rec, ts)]
        else s.appended, s.views ++ s.job.views, s.advanced⟩ : BufferRun R).Stable hwm := by
    obtain ⟨t, ht, hstable, -⟩ := h.run.append hsmall rec ts logging
    exact Option.some.inj ht ▸ hstable
  obtain ⟨later, hlater⟩ : ∃ later, (if (s.ext.buffer.append rec ts logging).1 = 1 then
      s.appended ++ [(rec, ts)] else s.appended) = s.appended ++ later := by
    split
    · exact ⟨_, rfl⟩
    · exact ⟨[], (List.append_nil _).symm⟩
  refine ⟨h.epochs.buffer _ hheads, hrun, fun e he => ?_, h.ordered, ?_⟩
  · obtain ⟨hle, hholds⟩ := h.used e he
    refine ⟨hheads.1 ▸ hle, ?_⟩
    simp only [hlater]
    exact hholds.append (hle.trans h.head_le) later
  · simp only [hlater]
    exact h.next.append later

omit [Zero R] in
theorem Inv.sameRing (h : Inv hwm scale s) {b : MutableBuffer R} {views : List (Nat × Nat)}
    (hb : s.ext.buffer.SameRing b)
    (hrun : (⟨b, s.appended, views ++ s.job.views, s.advanced⟩ : BufferRun R).Stable hwm)
    (hviews : ∀ v ∈ views, v.1 ≤ v.2) :
    Inv hwm scale { s with ext := { s.ext with buffer := b }, views := views } :=
  ⟨h.epochs.buffer _ hb.heads, hrun,
    fun e he => ⟨hb.heads.1 ▸ (h.used e he).1, (h.used e he).2⟩, hviews, h.next⟩

omit [Zero R] in
theorem Inv.head (h : Inv hwm scale s) {e : Epoch T L}
    (he : e ∈ s.ext.currentEpoch.epoch ∨ e ∈ s.ext.previousEpoch.epoch) :
    e.bufferHead = s.ext.buffer.head.headIdx ∨
      s.advanced = true ∧ e.bufferHead = s.ext.buffer.oldHead.headIdx := by
  rcases h.epochs.placed.head.1 e he with hold | hhead
  · cases hadv : s.advanced with
    | true => exact .inr ⟨rfl, hold⟩
    | false =>
      obtain ⟨hzero, hhwm⟩ := h.run.fresh hadv
      have hle := (h.used e he).1
      have hpos := h.run.hwm_pos
      have hzero : s.ext.buffer.head.headIdx = 0 := hzero
      have hhwm : s.ext.buffer.oldHead.headIdx = hwm := hhwm
      omega
  · exact .inl hhead

omit [Zero R] in
theorem Inv.acquire (h : Inv hwm scale s) {target : Nat}
    (ht : target = s.ext.buffer.head.headIdx ∨
      s.advanced = true ∧ target = s.ext.buffer.oldHead.headIdx) {v : BufferView R}
    {b : MutableBuffer R} (hv : s.ext.buffer.getBufferView target = some (v, b)) :
    (⟨b, s.appended, (v.head, v.tail) :: (s.views ++ s.job.views), s.advanced⟩ :
      BufferRun R).Stable hwm := by
  obtain ⟨t, hacq, hstable, -⟩ := h.run.acquire ht
  have heq : s.bufferRun.acquire target =
      some ⟨b, s.appended, (v.head, v.tail) :: (s.views ++ s.job.views), s.advanced⟩ := by
    have hv : s.bufferRun.buffer.getBufferView target = some (v, b) := hv
    rw [BufferRun.acquire, hv]
    rfl
  exact Option.some.inj (hacq.symm.trans heq) ▸ hstable

theorem Inv.release (h : Inv hwm scale s) {v : Nat × Nat} {b : MutableBuffer R}
    (hv : v ∈ s.views ++ s.job.views) (hb : s.ext.buffer.releaseHeadReference v.1 = some b) :
    (⟨b, s.appended, (s.views ++ s.job.views).erase v, s.advanced⟩ :
      BufferRun R).Stable hwm := by
  obtain ⟨t, hrel, hstable, -⟩ := h.run.release hv
  have heq : s.bufferRun.step (.release v.1 v.2) =
      some ⟨b, s.appended, (s.views ++ s.job.views).erase v, s.advanced⟩ := by
    have hb : s.bufferRun.buffer.releaseHeadReference v.1 = some b := hb
    rw [BufferRun.step, hb]
    rfl
  exact Option.some.inj (hrel.symm.trans heq) ▸ hstable

omit [Zero R] in
theorem Inv.pin (h : Inv hwm scale s) {e : Epoch T L} (he : s.ext.getActiveEpoch = some (e, d)) :
    Inv hwm scale { s with ext := d, pins := e ::ₘ s.pins } := by
  have hepochs := h.epochs.pin he
  obtain ⟨hc, rfl⟩ | ⟨-, hp, rfl⟩ := DynamicExtension.getActiveEpoch_cases he
  · refine ⟨hepochs, h.run, fun x hx => h.used x (hc ▸ hx), h.ordered, ?_⟩
    simpa only [hc] using h.next
  · exact ⟨hepochs, h.run, fun x hx => h.used x (hp ▸ hx), h.ordered, h.next⟩

omit [Zero R] in
theorem Inv.unpin (h : Inv hwm scale s) {e : Epoch T L} {pins : Multiset (Epoch T L)}
    (hp : s.pins = e ::ₘ pins) (he : s.ext.endJob e = some d) :
    Inv hwm scale { s with ext := d, pins := pins } := by
  have hepochs := h.epochs.unpin hp he
  obtain ⟨-, rfl⟩ | ⟨-, rfl⟩ := DynamicExtension.endJob_cases he <;>
    exact ⟨hepochs, h.run, h.used, h.ordered, h.next⟩

omit [Zero R] in
theorem Inv.create (h : Inv hwm scale s) (hp : s.phase = .idle)
    (hslot : ∀ c ∈ s.ext.currentEpoch.epoch, c.vers.FindsSlot) {n : Epoch T L}
    (hd : s.ext.createNewEpoch = some d) (hn : d.nextEpoch.epoch = some n) :
    Inv hwm scale { s with
      ext := d
      phase := .building
      job := .merging
        (jobTasks L (n.vers.getReconstructionTasks d.buffer.getHighWatermark [])) } := by
  have hepochs := h.epochs.create hp hd
  obtain ⟨c, hc, -, -, -⟩ := (hp ▸ h.placed).of_idle
  have hclone := h.epochs.createNewEpoch_eq hp hc
  obtain rfl := Option.some.inj (hclone.symm.trans hd)
  obtain rfl := Option.some.inj hn
  have hjob : s.job = .idle := by
    have := h.next
    rwa [hp] at this
  refine ⟨hepochs, by simpa [bufferRun, epochSystem, hjob, FlushStage.views] using h.run, h.used,
    h.ordered, ?_⟩
  intro x hx n hn
  obtain rfl : c = x := Option.some.inj (hc.symm.trans hx)
  obtain rfl := Option.some.inj hn
  refine ⟨hslot c hc, [], ?_, rfl⟩
  have hhwm : s.ext.buffer.getHighWatermark = hwm := h.run.hwm_eq
  rw [List.nil_append, roundTasks]
  show _ = jobTasks L (c.vers.copy.getReconstructionTasks s.ext.buffer.getHighWatermark [])
  rw [hhwm]

omit [Zero R] in
theorem Inv.merge (h : Inv hwm scale s) {n : Epoch T L} {task : ReconstructionTask}
    {todo : List ReconstructionTask} {vers : ExtensionStructure T L} (hp : s.phase = .building)
    (hj : s.job = .merging (task :: todo)) (hn : s.ext.nextEpoch.epoch = some n)
    (hvers : n.vers.reconstructTask task = some vers) :
    Inv hwm scale { s with
      ext := { s.ext with nextEpoch := ⟨some { n with vers := vers }, s.ext.nextEpoch.refcnt⟩ }
      job := .merging todo } := by
  have hrun : s.bufferRun.Stable hwm := h.run
  refine ⟨h.epochs.rebuild vers hp hn, by simpa [bufferRun, hj, FlushStage.views] using h.run,
    h.used, h.ordered, ?_⟩
  have hnext := h.next
  rw [hp, hj] at hnext
  simp only [hp]
  intro c hc x hx
  obtain rfl := Option.some.inj hx
  obtain ⟨hslot, done, htasks, hdone⟩ := hnext c hc n hn
  refine ⟨hslot, done ++ [task], by rw [htasks, List.append_assoc, List.singleton_append], ?_⟩
  rw [reconstructTasks] at hdone ⊢
  rw [List.foldlM_append, hdone]
  simpa using hvers

omit [Zero R] in
theorem Inv.capture (h : Inv hwm scale s) {n : Epoch T L} {v : BufferView R} {b : MutableBuffer R}
    (hp : s.phase = .building) (hj : s.job = .merging [])
    (hn : s.ext.nextEpoch.epoch = some n)
    (hv : s.ext.buffer.getBufferView n.bufferHead = some (v, b)) :
    Inv hwm scale { s with
      ext := { s.ext with buffer := b }, job := .holding v.head v.tail } := by
  obtain ⟨rfl, hring⟩ := getBufferView_cases hv
  obtain ⟨c, n', hc, hn', -, hhead, -, -⟩ := (hp ▸ h.placed).of_building
  obtain rfl : n' = n := Option.some.inj (hn'.symm.trans hn)
  have hacq := h.acquire (.inl hhead) hv
  refine ⟨h.epochs.buffer _ hring.heads, ?_, fun e he => ⟨hring.heads.1 ▸ (h.used e he).1,
    (h.used e he).2⟩, h.ordered, ?_⟩
  · refine hacq.perm ?_
    rw [hj]
    simp only [FlushStage.views, List.append_nil]
    exact (List.perm_append_singleton _ _).symm
  · have hnext := h.next
    rw [hp, hj] at hnext
    simp only [hp]
    intro x hx y hy
    obtain rfl : n' = y := Option.some.inj (hn.symm.trans hy)
    obtain ⟨hslot, done, htasks, hdone⟩ := hnext x hx n' hn
    rw [List.append_nil] at htasks
    refine ⟨hslot, rfl, ?_, htasks ▸ hdone⟩
    show n'.bufferHead ≤ s.ext.buffer.tail
    rw [hhead, ← h.length]
    exact h.head_le

omit [Zero R] in
theorem Inv.flush (h : Inv hwm scale s) {n : Epoch T L} {head tail : Nat}
    {vers : ExtensionStructure T L} (hp : s.phase = .building) (hj : s.job = .holding head tail)
    (hn : s.ext.nextEpoch.epoch = some n)
    (hvers : n.vers.flushBuffer (s.bufferRun.viewOf (head, tail)) = some vers) :
    Inv hwm scale { s with
      ext := { s.ext with nextEpoch := ⟨some { n with vers := vers }, s.ext.nextEpoch.refcnt⟩ }
      job := .flushed head tail } := by
  have hrun : s.bufferRun.Stable hwm := h.run
  have hmem : (head, tail) ∈ s.bufferRun.views := by
    rw [bufferRun, hj]
    exact List.mem_append_right _ (List.mem_singleton_self _)
  have htail : tail ≤ s.ext.buffer.tail := (hrun.views _ hmem).2
  refine ⟨h.epochs.rebuild vers hp hn, by simpa [bufferRun, hj, FlushStage.views] using h.run,
    h.used, h.ordered, ?_⟩
  obtain ⟨c, n', hc, hn', hchead, hnhead, -, -⟩ := (hp ▸ h.placed).of_building
  obtain rfl : n' = n := Option.some.inj (hn'.symm.trans hn)
  have hnext := h.next
  rw [hp, hj] at hnext
  simp only [hp]
  intro x hx y hy
  obtain rfl : c = x := Option.some.inj (hc.symm.trans hx)
  obtain rfl := Option.some.inj hy
  obtain ⟨hslot, rfl, hle, hdone⟩ := hnext c hc n' hn
  obtain ⟨-, vs, hflush, hvs, hlive⟩ := h.used c (.inl hc)
  refine ⟨h.length ▸ htail, vs ++ [s.bufferRun.viewOf (n'.bufferHead, tail)],
    hflush.round hslot ?_ ?_, ?_, fun v hv => ?_⟩
  · have hcount : s.ext.buffer.tail - s.ext.buffer.head.headIdx ≤ hwm := hrun.count_le
    show tail - n'.bufferHead ≤ hwm
    have hnhead : n'.bufferHead = s.ext.buffer.head.headIdx := hnhead
    omega
  · rw [ExtensionStructure.round, hdone]
    exact hvers
  · have hheads : c.bufferHead = n'.bufferHead := hchead.trans hnhead.symm
    rw [List.map_append, List.sum_append, hvs, List.map_singleton, List.sum_singleton,
      hrun.net_view hmem, hheads]
    exact (netAppended_take hle).symm
  · rcases List.mem_append.mp hv with hv | hv
    · exact hlive v hv
    · rw [List.mem_singleton.mp hv]
      exact hrun.live_view hmem

theorem Inv.letGo (h : Inv hwm scale s) {head tail : Nat} {b : MutableBuffer R}
    (hp : s.phase = .building) (hj : s.job = .flushed head tail)
    (hb : s.ext.buffer.releaseHeadReference head = some b) :
    Inv hwm scale { s with ext := { s.ext with buffer := b }, job := .released tail } := by
  have hring := sameRing_releaseHeadReference hb
  have hrel := h.release (v := (head, tail)) (by simp [hj, FlushStage.views]) hb
  refine ⟨h.epochs.buffer _ hring.heads, hrel.perm ?_, fun e he => ⟨hring.heads.1 ▸ (h.used e he).1,
    (h.used e he).2⟩, h.ordered, ?_⟩
  · rw [hj]
    simp only [FlushStage.views, List.append_nil]
    have hperm := (List.perm_append_singleton (head, tail) s.views).erase (head, tail)
    rwa [List.erase_cons_head] at hperm
  · have hnext := h.next
    rw [hp, hj] at hnext
    simp only [hp]
    exact hnext

omit [Zero R] in
theorem Inv.retire (h : Inv hwm scale s) {tail : Nat} (hp : s.phase = .building)
    (hj : s.job = .released tail) (hd : s.ext.retireEpoch = some d) :
    Inv hwm scale { s with ext := d, phase := .retired } := by
  have hepochs := h.epochs.retire hp hd
  obtain ⟨c, n, hc, hn, -, -, -, -⟩ := (hp ▸ h.placed).of_building
  have hnext := h.next
  rw [hp, hj] at hnext
  have hmade := hnext c hc n hn
  have hholds : ∀ x ∈ s.ext.nextEpoch.epoch, x.vers.Holds hwm scale s.appended tail := by
    intro x hx
    obtain rfl : n = x := Option.some.inj (hn.symm.trans hx)
    exact hmade.2
  obtain ⟨-, rfl⟩ | ⟨-, rfl⟩ := DynamicExtension.retireEpoch_cases hd
  · exact ⟨hepochs, h.run, h.used, h.ordered, tail, hj, hmade.1, hholds⟩
  · refine ⟨hepochs, h.run, fun e he => h.used e (.inl ?_), h.ordered, tail, hj, hmade.1, hholds⟩
    exact he.resolve_right (Option.not_mem_none e)

omit [Zero R] in
theorem Inv.move (h : Inv hwm scale s) (hp : s.phase = .retired) :
    Inv hwm scale { s with
      ext := { s.ext with currentEpoch := ⟨none, 0⟩, previousEpoch := s.ext.currentEpoch }
      phase := .moved } := by
  have hnext := h.next
  rw [hp] at hnext
  exact ⟨h.epochs.move hp, h.run,
    fun e he => h.used e (.inl (he.resolve_left (Option.not_mem_none e))), h.ordered, hnext⟩

theorem Inv.stable_advanceHead (h : Inv hwm scale s) (hviews : s.job.views = []) {tail : Nat}
    {done : Bool} {b : MutableBuffer R} (hb : s.ext.buffer.advanceHead tail = some (done, b)) :
    (⟨b, s.appended, s.views, s.advanced || done⟩ : BufferRun R).Stable hwm := by
  obtain ⟨hlt, hle⟩ := advanceHead_bounds hb
  obtain ⟨t, ht, hstable, -⟩ := h.run.advanceHead hlt hle
  have heq : s.bufferRun.step (.advanceHead tail) =
      some ⟨b, s.appended, s.views, s.advanced || done⟩ := by
    have hb : s.bufferRun.buffer.advanceHead tail = some (done, b) := hb
    rw [BufferRun.step, hb, bufferRun, hviews, List.append_nil]
    rfl
  exact Option.some.inj (ht.symm.trans heq) ▸ hstable

theorem Inv.advanceHead (h : Inv hwm scale s) {n : Epoch T L} {tail : Nat} {done : Bool}
    {b : MutableBuffer R} (hp : s.phase = .moved) (hj : s.job = .released tail)
    (hn : s.ext.nextEpoch.epoch = some n)
    (hb : s.ext.buffer.advanceHead tail = some (done, b)) :
    Inv hwm scale { s with
      ext := { s.ext with
        buffer := b
        nextEpoch := ⟨some { n with bufferHead := tail }, s.ext.nextEpoch.refcnt⟩ }
      phase := if done then .advanced else .moved
      job := if done then .idle else .released tail
      advanced := s.advanced || done } := by
  have hepochs := h.epochs.advanceHead hp hn hb
  have hrun := h.stable_advanceHead (by rw [hj]; rfl) hb
  have hnext := h.next
  rw [hp] at hnext
  obtain ⟨tail', hj', hle, hholds⟩ := hnext
  obtain rfl : tail = tail' := by simpa [hj] using hj'
  cases done with
  | false =>
    obtain rfl := advanceHead_refused hb
    refine ⟨hepochs, by simpa [bufferRun, FlushStage.views] using hrun, h.used, h.ordered,
      tail, rfl, hle, fun x hx => ?_⟩
    obtain rfl := Option.some.inj hx
    exact hholds n hn
  | true =>
    obtain ⟨hlt, -, rfl⟩ := advanceHead_cases hb
    refine ⟨hepochs, by simpa [bufferRun, FlushStage.views] using hrun, fun e he =>
      ⟨((h.used e he).1.trans_lt hlt).le, (h.used e he).2⟩, h.ordered, rfl, fun x hx => ?_⟩
    obtain rfl := Option.some.inj hx
    exact ⟨hle, hholds n hn⟩

omit [Zero R] in
theorem Inv.install (h : Inv hwm scale s) (hp : s.phase = .advanced) :
    Inv hwm scale { s with
      ext := { s.ext with currentEpoch := s.ext.nextEpoch, nextEpoch := ⟨none, 0⟩ }
      phase := .idle } := by
  obtain ⟨p, n, hprev, -, hn, -, hhead, -⟩ := (hp ▸ h.placed).of_advanced
  have hnext := h.next
  rw [hp] at hnext
  refine ⟨h.epochs.install hp, h.run, fun e he => ?_, h.ordered, hnext.1⟩
  rcases he with he | he
  · obtain rfl : n = e := Option.some.inj (hn.symm.trans he)
    exact ⟨hhead.le, (hnext.2 n hn).2⟩
  · exact h.used e (.inr he)

theorem inv_new {log : Option (List (WALEntry R))}
    (hlog : ∀ file, log = some file → file = [])
    (h : DynamicExtension.new T L lwm hwm scale none log = some d) :
    Inv hwm scale ⟨d, .idle, .idle, 0, [], [], false⟩ := by
  have hepochs := EpochSystem.inv_new h
  obtain ⟨b, hb, h⟩ := Option.bind_eq_some_iff.mp h
  obtain ⟨-, -, h⟩ := Option.bind_eq_some_iff.mp h
  obtain ⟨vers, hvers, h⟩ := Option.bind_eq_some_iff.mp h
  obtain rfl := Option.some.inj h
  rw [DynamicExtension.ofCheckpoint_none, Option.some.injEq] at hvers
  subst hvers
  have hhwm := (heads_new hb).2.2
  obtain ⟨-, -, hb⟩ := Option.bind_eq_some_iff.mp hb
  obtain ⟨-, -, hb⟩ := Option.bind_eq_some_iff.mp hb
  have hb : b = .empty lwm hwm (log.map WriteAheadLogger.new) := by
    cases log with
    | none => exact (Option.some.inj hb).symm
    | some file =>
      obtain rfl := hlog file rfl
      exact (Option.some.inj hb).symm
  subst hb
  refine ⟨hepochs, BufferRun.stable_start hhwm _, fun e he => ?_, by simp, rfl⟩
  obtain rfl := Option.some.inj (he.resolve_right (Option.not_mem_none e))
  exact ⟨le_rfl, [], .new, rfl, by simp⟩

theorem step_inv {s' : ReadSystem T L} (h : Inv hwm scale s) (hstep : Step s s') :
    Inv hwm scale s' := by
  cases hstep with
  | append hsmall rec ts logging => exact h.append hsmall rec ts logging
  | pin he => exact h.pin he
  | unpin hp he => exact h.unpin hp he
  | @acquire e v b he hv =>
    have huse := h.pinned he
    obtain ⟨rfl, hring⟩ := getBufferView_cases hv
    refine h.sameRing hring (h.acquire (h.head huse) hv) fun w hw => ?_
    rcases List.mem_cons.mp hw with rfl | hw
    · exact (h.used e huse).1.trans h.run.head_le
    · exact h.ordered w hw
  | @release v b hv hb =>
    refine h.sameRing (sameRing_releaseHeadReference hb) ?_ fun w hw =>
      h.ordered w (List.mem_of_mem_erase hw)
    have hrel := h.release (List.mem_append_left _ hv) hb
    rwa [List.erase_append_left _ hv] at hrel
  | create hp hslot hd hn => exact h.create hp hslot hd hn
  | merge hp hj hn hvers => exact h.merge hp hj hn hvers
  | capture hp hj hn hv => exact h.capture hp hj hn hv
  | flush hp hj hn hvers => exact h.flush hp hj hn hvers
  | letGo hp hj hb => exact h.letGo hp hj hb
  | retire hp hj hd => exact h.retire hp hj hd
  | move hp => exact h.move hp
  | advanceHead hp hj hn hb => exact h.advanceHead hp hj hn hb
  | install hp => exact h.install hp

theorem Reached.inv (h : Reached lwm hwm scale s) : Inv hwm scale s := by
  induction h with
  | new hlog h => exact inv_new hlog h
  | step _ hstep ih => exact step_inv ih hstep

omit [Zero R] in
/-- The structure of an epoch in use holds the appends before its head, and a view from that
head those after it. -/
theorem Inv.reads (h : Inv hwm scale s) {e : Epoch T L}
    (he : e ∈ s.ext.currentEpoch.epoch ∨ e ∈ s.ext.previousEpoch.epoch) {v : Nat × Nat}
    (hv : v ∈ s.views) (hhead : v.1 = e.bufferHead) :
    e.vers.net + net (s.bufferRun.viewOf v).records = netAppended (s.appended.take v.2) := by
  have hnet := (h.used e he).2.net
  have hview := h.run.net_view (List.mem_append_left s.job.views hv)
  rw [hnet, hview, ← hhead]
  exact (netAppended_take (h.ordered v hv)).symm

end Steps

/-- Whatever the interleaving, the structure of a pinned epoch and a buffer view taken through
it hold together exactly the appends made before the view was taken. -/
theorem readers_exact {lwm hwm scale : Nat} {s : ReadSystem T L}
    (h : Reached lwm hwm scale s) : ∀ e ∈ s.pins,
      (∀ v ∈ s.views, v.1 = e.bufferHead →
        e.vers.net + net (s.bufferRun.viewOf v).records = netAppended (s.appended.take v.2)) ∧
      ∃ v b, s.ext.buffer.getBufferView e.bufferHead = some (v, b) ∧
        e.vers.net + net v.records = netAppended s.appended := by
  intro e he
  have huse := h.inv.pinned he
  refine ⟨fun v hv hhead => h.inv.reads huse hv hhead, ?_⟩
  obtain ⟨⟨v, b⟩, hview⟩ := Option.isSome_iff_exists.mp <|
    MutableBuffer.getBufferView_isSome (h.inv.placed.head.1 e huse)
  obtain ⟨rfl, hring⟩ := MutableBuffer.getBufferView_cases hview
  have hreads := (h.step (.acquire he hview)).inv.reads huse (List.mem_cons_self ..) rfl
  have hsame : (⟨b, s.appended, [], s.advanced⟩ : MutableBuffer.BufferRun R).viewOf
      (e.bufferHead, s.ext.buffer.tail) = b.viewFrom e.bufferHead := by
    rw [MutableBuffer.BufferRun.viewOf, ← hring.tail]
    rfl
  refine ⟨_, b, hview, ?_⟩
  rw [← hring.records, ← hsame]
  refine hreads.trans (congrArg netAppended ?_)
  exact List.take_of_length_le h.inv.length.le

/-- A view that was taken before a reconstruction still reads what it read, when the head has
moved on and the buffer takes new records. -/
theorem readers_exact_sample :
    ∃ (s : ReadSystem (ShardType.lists Nat) .leveling) (e : Epoch _ _), e ∈ s.pins ∧
      s.ext.currentEpoch.epoch.map Epoch.bufferHead = some 1 ∧
      s.appended = [(5, false), (6, false)] ∧
      e.vers.net + net (s.bufferRun.viewOf (0, 1)).records = netAppended [(5, false)] := by
  set e : Epoch (ShardType.lists Nat) .leveling := ⟨0, .new _ _ 1 2, 0⟩
  have hnew : DynamicExtension.new (ShardType.lists Nat) .leveling 1 1 2 none none =
      some ⟨.empty 1 1 none, false, 0, ⟨none, 0⟩, ⟨some e, 0⟩, ⟨none, 0⟩⟩ := rfl
  obtain ⟨s, hs, he, hcurrent, hviews, happended⟩ : ∃ s, Reached 1 1 2 s ∧ e ∈ s.pins ∧
      s.ext.currentEpoch.epoch.map Epoch.bufferHead = some 1 ∧ (0, 1) ∈ s.views ∧
      s.appended = [(5, false), (6, false)] := by
    have hread := (((Reached.new (by simp) hnew).step (.append (by decide) 5 false false)).step
      (.pin (e := e) rfl)).step (.acquire (e := e) (by simp) rfl)
    have hcreate := hread.step (.create rfl (by simp [ExtensionStructure.FindsSlot]) rfl rfl)
    have hflush := ((hcreate.step (.capture rfl rfl rfl rfl)).step (.flush rfl rfl rfl rfl)).step
      (.letGo rfl rfl rfl)
    have hadvance := (((hflush.step (.retire rfl rfl rfl)).step (.move rfl)).step
      (.advanceHead rfl rfl rfl rfl)).step (.install rfl)
    exact ⟨_, hadvance.step (.append (by decide) 6 false false), by simp, rfl,
      List.mem_singleton.mpr rfl, rfl⟩
  refine ⟨s, e, he, hcurrent, happended, ?_⟩
  have hreads := (readers_exact hs e he).1 (0, 1) hviews rfl
  rwa [happended] at hreads

end ReadSystem

end De
