import DynamicExtension.Cancellation
import DynamicExtension.RangeScan
import DynamicExtension.TombstoneProportion
set_option autoImplicit false

namespace De
variable {K V : Type} [LinearOrder K] [LinearOrder V] {lay : NodeLayout}
variable {std : StdLib (Record K V)} {L : LayoutPolicy}

section Defs

/-- `get_tombstone_count` of an ISAM tree -/
def ISAMTree.getTombstoneCount (x : (ISAMTree.shardType lay std).Shard) : BitVec 64 :=
  x.1.tombstoneCnt

def ExtensionStructure.getTombstoneCount (s : ExtensionStructure (ISAMTree.shardType lay std) L) :
    BitVec 64 := (s.levels.map (InternalLevel.getTombstoneCount ISAMTree.getTombstoneCount)).sum

namespace DynamicExtension

def getTombstoneCount (d : DynamicExtension (ISAMTree.shardType lay std) L) :
    Option (BitVec 64 × DynamicExtension (ISAMTree.shardType lay std) L) := do
  let (epoch, d) ← d.getActiveEpoch
  let (view, buffer) ← d.buffer.getBufferView epoch.bufferHead
  let t := BitVec.ofNat 64 view.getTombstoneCount + epoch.vers.getTombstoneCount
  let buffer ← buffer.releaseHeadReference view.head
  let d ← { d with buffer := buffer }.endJob epoch
  return (t, d)

/-- `m_max_delete_prop` is 1. -/
def validateTombstoneProportion (d : DynamicExtension (ISAMTree.shardType lay std) L) :
    Option (Bool × DynamicExtension (ISAMTree.shardType lay std) L) := do
  let (epoch, d) ← d.getActiveEpoch
  let t := epoch.vers.validateTombstoneProportion 1 ISAMTree.getTombstoneCount
  let d ← d.endJob epoch
  return (t, d)

end DynamicExtension

end Defs

section Shards

/-- The tombstones on a shard's pages -/
def tombstonesOf (x : (ISAMTree.shardType lay std).Shard) : Nat :=
  ((ISAMTree.shardType lay std).records x).countP (·.isTombstone)

/-- By how much a shard's count is above its tombstones -/
def overcount (x : (ISAMTree.shardType lay std).Shard) : BitVec 64 :=
  x.1.tombstoneCnt - BitVec.ofNat 64 (tombstonesOf x)

theorem overcount_tree {ls : List (List (Wrapped (Record K V)))} {tombstones : BitVec 64}
    {x : (ISAMTree.shardType lay std).Shard} (h : ISAMTree.MergedTree lay std ls tombstones x.1)
    (hsort : ∀ l ∈ ls, l.Pairwise (fun a b => a.record ≤ b.record)) :
    overcount x = tombstones - BitVec.ofNat 64 (ls.flatten.countP (·.isTombstone)) := by
  obtain ⟨c, hc, hlen⟩ := h.tombstoneCnt
  obtain ⟨hperm, -⟩ := KWay.State.order_spec
    (show (KWay.start std.queue ls).Ready from KWay.start_ready ls hsort)
  rw [KWay.start_content, Multiset.coe_eq_coe] at hperm
  have hpairs := tombstones_cancelPairs (KWay.start std.queue ls).order
  have hcount : c + (ISAMTree.mergedRecords std ls).countP (·.isTombstone) =
      ls.flatten.countP (·.isTombstone) := by
    rw [← hperm.countP_eq]
    rw [← hperm.length_eq] at hlen
    rw [ISAMTree.mergedRecords] at hlen ⊢
    omega
  have hrecs : tombstonesOf x = (ISAMTree.mergedRecords std ls).countP (·.isTombstone) :=
    congrArg (List.countP Wrapped.isTombstone) h.wellFormed.records_eq
  rw [overcount, hc, hrecs, ← hcount, BitVec.ofNat_add, sub_sub]

theorem sum_overcount (xs : List (ISAMTree.shardType lay std).Shard) :
    (xs.map fun x => x.1.tombstoneCnt).sum -
        BitVec.ofNat 64 ((xs.map (ISAMTree.shardType lay std).records).flatten.countP
          (·.isTombstone)) = (xs.map overcount).sum := by
  induction xs with
  | nil => exact sub_self (0 : BitVec 64)
  | cons x xs ih =>
    rw [List.map_cons, List.map_cons, List.map_cons, List.sum_cons, List.sum_cons,
      List.flatten_cons, List.countP_append, BitVec.ofNat_add, ← ih, add_sub_add_comm, overcount,
      tombstonesOf]

theorem overcount_ofShards {xs : List (ISAMTree.shardType lay std).Shard}
    {x : (ISAMTree.shardType lay std).Shard}
    (h : (ISAMTree.shardType lay std).ofShards xs = some x) :
    overcount x = (xs.map overcount).sum := by
  have hcnt : ∀ ys : List (ISAMTree.Shard lay std),
      ((ys.map Subtype.val).map ISAMTree.tombstoneCnt).sum =
        (ys.map fun y => y.1.tombstoneCnt).sum := by
    intro ys
    rw [List.map_map]
    rfl
  have htree := overcount_tree (ISAMTree.mergeShards_tree h) (ISAMTree.sorted_records xs)
  rw [hcnt xs] at htree
  exact htree.trans (sum_overcount xs)

theorem overcount_ofBuffer (v : BufferView (Record K V)) :
    overcount ((ISAMTree.shardType lay std).ofBuffer v) =
      BitVec.ofNat 64 v.getTombstoneCount -
        BitVec.ofNat 64 (v.records.countP (·.isTombstone)) := by
  rw [overcount_tree (ISAMTree.bufferShard_tree lay std v) (ISAMTree.bufferRuns_sorted lay std v),
    (ISAMTree.bufferRuns_perm lay std v).countP_eq]

end Shards

section Counts

theorem ExtensionStructure.getTombstoneCount_eq
    (s : ExtensionStructure (ISAMTree.shardType lay std) L) :
    s.getTombstoneCount = (s.shards.map fun x => x.1.tombstoneCnt).sum := by
  rw [getTombstoneCount, shards]
  induction s.levels with
  | nil => rfl
  | cons l ls ih =>
    simp only [List.map_cons, List.sum_cons, ih, InternalLevel.getTombstoneCount_eq,
      Multiset.map_add, Multiset.sum_add, Multiset.map_coe, Multiset.sum_coe]
    rfl

theorem tombstonesOf_le (x : (ISAMTree.shardType lay std).Shard) :
    tombstonesOf x ≤ (ISAMTree.shardType lay std).recordCount x := by
  rw [(ISAMTree.shardType lay std).recordCount_eq]
  exact List.countP_le_length

theorem sum_tombstoneCnt {xs : Multiset (ISAMTree.shardType lay std).Shard}
    (h : ∀ x ∈ xs, x.1.tombstoneCnt = BitVec.ofNat 64 (tombstonesOf x)) :
    (xs.map fun x => x.1.tombstoneCnt).sum = BitVec.ofNat 64 (xs.map tombstonesOf).sum := by
  induction xs using Multiset.induction with
  | empty => rfl
  | cons x xs ih =>
    rw [Multiset.map_cons, Multiset.sum_cons, Multiset.map_cons, Multiset.sum_cons,
      BitVec.ofNat_add, h x (Multiset.mem_cons_self x xs),
      ih fun y hy => h y (Multiset.mem_cons_of_mem hy)]

namespace ExtensionStructure

/-- Every shard's count is that of the tombstones on its pages. -/
def ShardsExact (s : ExtensionStructure (ISAMTree.shardType lay std) L) : Prop :=
  ∀ x ∈ s.shards, x.1.tombstoneCnt = BitVec.ofNat 64 (tombstonesOf x)

theorem shardsExact_iff (s : ExtensionStructure (ISAMTree.shardType lay std) L) :
    s.ShardsExact ↔ ∀ x ∈ s.shards, overcount x = 0 := by
  simp only [ShardsExact, overcount, sub_eq_zero]

theorem ShardsExact.getTombstoneCount {s : ExtensionStructure (ISAMTree.shardType lay std) L}
    (h : s.ShardsExact) :
    s.getTombstoneCount = BitVec.ofNat 64 (s.shards.map tombstonesOf).sum := by
  rw [getTombstoneCount_eq, sum_tombstoneCnt h]

theorem ShardsExact.validates {s : ExtensionStructure (ISAMTree.shardType lay std) L}
    (h : s.ShardsExact)
    (hcap : ∀ i l, s.levels[i]? = some l → l.getRecordCount ≤ s.calcLevelRecordCapacity i) :
    s.validateTombstoneProportion 1 ISAMTree.getTombstoneCount = true := by
  rw [validateTombstoneProportion, List.all_eq_true]
  rintro ⟨l, i⟩ hl
  rw [List.mem_zipIdx_iff_getElem?] at hl
  have hlive : ∀ x ∈ (l.live : Multiset (ISAMTree.shardType lay std).Shard),
      x.1.tombstoneCnt = BitVec.ofNat 64 (tombstonesOf x) := by
    intro x hx
    refine h x ?_
    rw [shards]
    exact Multiset.mem_of_le (List.single_le_sum (by simp) _
      (List.mem_map_of_mem (List.mem_of_getElem? hl))) hx
  have hsum : l.getTombstoneCount ISAMTree.getTombstoneCount =
      BitVec.ofNat 64 (l.live.map tombstonesOf).sum := by
    rw [InternalLevel.getTombstoneCount_eq]
    exact sum_tombstoneCnt hlive
  have hle : (l.live.map tombstonesOf).sum ≤ l.getRecordCount := by
    rw [l.getRecordCount_eq]
    exact List.sum_le_sum fun x _ => tombstonesOf_le x
  have hmod : (l.getTombstoneCount ISAMTree.getTombstoneCount).toNat ≤
      (l.live.map tombstonesOf).sum := by
    rw [hsum, BitVec.toNat_ofNat]
    exact Nat.mod_le _ _
  exact congrArg not (tsPropAbove_one (hmod.trans (hle.trans (hcap i l hl))))

end ExtensionStructure

end Counts

section Appends
variable {R : Type} [Zero R]

theorem MutableBuffer.append_tscnt {b : MutableBuffer R} {rec : R} {ts logging : Bool}
    (h : (b.append rec ts logging).1 = 1) :
    (b.append rec ts logging).2.tscnt = b.tscnt + ts.toNat := by
  rw [append, tryAdvanceTail] at h ⊢
  by_cases hfull : b.tail - b.head.headIdx ≥ b.hwm
  · rw [if_pos hfull] at h
    cases h
  · simp only [if_neg hfull] at h ⊢
    split at h
    · cases h
    · rename_i hne
      rw [if_neg hne]
      cases ts <;> rfl

variable [DecidableEq R] {T : ShardType R} {lwm hwm : Nat}
variable {d d' : DynamicExtension T L} {e : Epoch T L}

theorem DynamicExtension.Serving.internalAppend_tscnt (h : Serving lwm hwm d e 0 0) (hlwm : 0 < lwm)
    {rec : R} {ts logging : Bool} (hd : d.internalAppend rec ts logging = some (1, d')) :
    d'.buffer.tscnt = d.buffer.tscnt + ts.toNat := by
  rw [DynamicExtension.internalAppend] at hd
  by_cases hat : d.buffer.isAtLowWatermark ∧ d.reconstructionScheduled = false
  · have hpos : 0 < d.buffer.getRecordCount := by
      have hl := h.lwm_eq
      have hlow := hat.1
      simp only [MutableBuffer.isAtLowWatermark, ge_iff_le, decide_eq_true_eq] at hlow
      omega
    rw [if_pos hat, (h.idle.schedule true).scheduleReconstruction hpos] at hd
    obtain ⟨d₁, hd₁, hret⟩ := Option.bind_eq_some_iff.mp hd
    obtain ⟨s, -, rfl⟩ := Option.map_eq_some_iff.mp hd₁
    obtain ⟨hone, rfl⟩ := Prod.mk.inj (Option.some.inj hret)
    exact MutableBuffer.append_tscnt hone
  · rw [if_neg hat] at hd
    obtain ⟨hone, rfl⟩ := Prod.mk.inj (Option.some.inj hd)
    exact MutableBuffer.append_tscnt hone

end Appends

namespace DynamicExtension

section Runs
variable {lwm hwm : Nat} {d : DynamicExtension (ISAMTree.shardType lay std) L}
variable {e : Epoch (ISAMTree.shardType lay std) L}

def bufferTombstones (d : DynamicExtension (ISAMTree.shardType lay std) L) : Nat :=
  d.buffer.records.countP (·.isTombstone)

theorem Idle.getTombstoneCount {pins oldPins : Nat} (h : Idle d e pins oldPins) :
    d.getTombstoneCount =
      some (BitVec.ofNat 64 d.buffer.tscnt + e.vers.getTombstoneCount, d) := by
  have hrel : MutableBuffer.releaseHeadReference { d.buffer with head := ⟨e.bufferHead, 1⟩ }
      (e.view d.buffer).head = some d.buffer := h.releaseHeadReference
  simp only [DynamicExtension.getTombstoneCount, h.getActiveEpoch, h.getBufferView,
    Option.bind_eq_bind, Option.bind_some, hrel, h.endJob_active]
  rfl

theorem Idle.validateTombstoneProportion {pins oldPins : Nat} (h : Idle d e pins oldPins) :
    d.validateTombstoneProportion =
      some (e.vers.validateTombstoneProportion 1 ISAMTree.getTombstoneCount, d) := by
  simp only [DynamicExtension.validateTombstoneProportion, h.getActiveEpoch, Option.bind_eq_bind,
    Option.bind_some, h.endJob_active]
  rfl

/-- Every count is that of the tombstones that are there, so that a level within its
capacity is within its proportion of tombstones. -/
structure CountsExact (d : DynamicExtension (ISAMTree.shardType lay std) L)
    (s : ExtensionStructure (ISAMTree.shardType lay std) L) : Prop where
  shards : s.ShardsExact
  total : d.getTombstoneCount =
    some (BitVec.ofNat 64 (d.bufferTombstones + (s.shards.map tombstonesOf).sum), d)
  validates : (∀ i l, s.levels[i]? = some l → l.getRecordCount ≤ s.calcLevelRecordCapacity i) →
    d.validateTombstoneProportion = some (true, d)

/-- After the calls: the buffer counts all erases, and the shards are exact as long as
each erase still has its tombstone in the buffer. -/
structure Counted (lwm hwm : Nat) (d : DynamicExtension (ISAMTree.shardType lay std) L)
    (e : Epoch (ISAMTree.shardType lay std) L) (calls : List (Call (Record K V))) : Prop where
  tracks : Tracks lwm hwm d e 0 0 calls
  tscnt : d.buffer.tscnt = calls.countP Call.tombstone
  exact : calls.countP Call.tombstone = d.bufferTombstones → e.vers.ShardsExact

theorem Tracks.bufferTombstones_le {calls : List (Call (Record K V))}
    (h : Tracks lwm hwm d e 0 0 calls) : d.bufferTombstones ≤ calls.countP Call.tombstone := by
  obtain ⟨old, recent, rfl, -, hpay⟩ := h.split
  have hmap := congrArg (List.countP Prod.snd) hpay
  rw [List.countP_map, List.countP_map] at hmap
  have hrecent : d.bufferTombstones = recent.countP Call.tombstone := hmap
  rw [hrecent, List.countP_append]
  omega

theorem Counted.exact_iff {calls : List (Call (Record K V))} (h : Counted lwm hwm d e calls) :
    (calls.countP Call.tombstone = d.bufferTombstones → d.CountsExact e.vers) ∧
    (calls.length < 2 ^ 64 → d.CountsExact e.vers →
      calls.countP Call.tombstone = d.bufferTombstones) := by
  have hidle := h.tracks.serving.idle
  constructor
  · intro hall
    have hexact := h.exact hall
    refine ⟨hexact, ?_, fun hcap => ?_⟩
    · rw [hidle.getTombstoneCount, hexact.getTombstoneCount, h.tscnt, hall, BitVec.ofNat_add]
    · rw [hidle.validateTombstoneProportion, hexact.validates hcap]
  · intro hlen hexact
    have htotal := hexact.total
    rw [hidle.getTombstoneCount, hexact.shards.getTombstoneCount, BitVec.ofNat_add, h.tscnt,
      Option.some.injEq, Prod.mk.injEq, add_left_inj] at htotal
    have hle := h.tracks.bufferTombstones_le
    have hle' : calls.countP Call.tombstone ≤ calls.length := List.countP_le_length
    have hnat := congrArg BitVec.toNat htotal.1
    rwa [BitVec.toNat_ofNat, BitVec.toNat_ofNat, Nat.mod_eq_of_lt (by omega),
      Nat.mod_eq_of_lt (by omega)] at hnat

/-- A reconstruction that a call starts finds no tombstone in the buffer. -/
def FlushLive (d : DynamicExtension (ISAMTree.shardType lay std) L) : Prop :=
  d.buffer.isAtLowWatermark → ∀ w ∈ d.buffer.records, w.isTombstone = false

instance : DecidablePred fun d : DynamicExtension (ISAMTree.shardType lay std) L => d.FlushLive :=
  fun d => inferInstanceAs
    (Decidable (d.buffer.isAtLowWatermark → ∀ w ∈ d.buffer.records, w.isTombstone = false))

variable [Zero K] [Zero V]

def FlushesLive (logging : Bool) (d : DynamicExtension (ISAMTree.shardType lay std) L)
    (calls : List (Call (Record K V))) : Prop :=
  d.EachCall FlushLive logging calls

instance (logging : Bool) (d : DynamicExtension (ISAMTree.shardType lay std) L)
    (calls : List (Call (Record K V))) : Decidable (d.FlushesLive logging calls) :=
  inferInstanceAs (Decidable (d.EachCall FlushLive logging calls))

omit [LinearOrder K] [LinearOrder V] [Zero K] [Zero V] in
theorem countP_tombstone_append (calls : List (Call (Record K V))) (c : Call (Record K V)) :
    (calls ++ [c]).countP Call.tombstone =
      calls.countP Call.tombstone + c.tombstone.toNat := by
  rw [List.countP_append, List.countP_singleton]
  cases c.tombstone <;> rfl

omit [LinearOrder K] [LinearOrder V] [Zero K] [Zero V] in
theorem countP_slotContent (c : Call (Record K V)) (pos : Nat) :
    [MutableBuffer.slotContent c.record c.tombstone pos].countP (fun w => w.isTombstone) =
      c.tombstone.toNat := by
  rw [List.countP_singleton, MutableBuffer.isTombstone_slotContent]
  cases c.tombstone <;> rfl

theorem Counted.call_below (hlwm : 0 < lwm) (hle : lwm ≤ hwm) {calls : List (Call (Record K V))}
    (h : Counted lwm hwm d e calls) (hslot : d.buffer.SlotOk)
    (hlow : d.buffer.getRecordCount < d.buffer.lwm) (logging : Bool) (c : Call (Record K V)) :
    ∃ d', d.call logging c = some (1, d') ∧ Counted lwm hwm d' e (calls ++ [c]) ∧
      ((calls ++ [c]).countP Call.tombstone = d'.bufferTombstones ↔
        calls.countP Call.tombstone = d.bufferTombstones) := by
  have hserving := h.tracks.serving
  obtain ⟨b, hb, hs, ha⟩ :=
    hserving.internalAppend_below hle hslot hlow c.record c.tombstone logging
  obtain ⟨pos, hrec⟩ := ha.records
  have hbuf : bufferTombstones { d with buffer := b } =
      d.bufferTombstones + c.tombstone.toNat := by
    rw [bufferTombstones, hrec, List.countP_append, countP_slotContent, bufferTombstones]
  have hiff : (calls ++ [c]).countP Call.tombstone = bufferTombstones { d with buffer := b } ↔
      calls.countP Call.tombstone = d.bufferTombstones := by
    rw [countP_tombstone_append, hbuf, Nat.add_right_cancel_iff]
  refine ⟨_, by rw [call_eq, hb], ⟨h.tracks.store hs ⟨pos, .inl ⟨rfl, hrec⟩⟩, ?_, fun hall =>
    h.exact (hiff.mp hall)⟩, hiff⟩
  rw [hserving.internalAppend_tscnt hlwm hb, h.tscnt, countP_tombstone_append]

omit [Zero K] [Zero V] in
theorem Counted.overcount_flushed {calls : List (Call (Record K V))}
    (h : Counted lwm hwm d e calls) (hnone : calls.countP Call.tombstone = 0) :
    overcount ((ISAMTree.shardType lay std).ofBuffer (e.view d.buffer)) = 0 := by
  have hts : (e.view d.buffer).getTombstoneCount = d.buffer.tscnt := rfl
  have hrecords : (e.view d.buffer).records.countP (·.isTombstone) = 0 := by
    rw [h.tracks.serving.view_records]
    exact Nat.le_zero.mp (hnone ▸ h.tracks.bufferTombstones_le)
  rw [overcount_ofBuffer, hts, h.tscnt, hnone, hrecords, sub_self]

/-- A call at the low watermark: the buffer begins anew, so that all erases are in it only if
there was none. -/
theorem Counted.call_at (hlwm : 0 < lwm) {calls : List (Call (Record K V))}
    (h : Counted lwm hwm d e calls) (hok : d.CallOk) (hat : d.buffer.isAtLowWatermark)
    (logging : Bool) (c : Call (Record K V)) :
    ∃ d' e', d.call logging c = some (1, d') ∧ Counted lwm hwm d' e' (calls ++ [c]) ∧
      ((calls ++ [c]).countP Call.tombstone = d'.bufferTombstones ↔
        calls.countP Call.tombstone = 0) := by
  have hserving := h.tracks.serving
  have hl := hserving.lwm_eq
  have hlow : d.buffer.lwm ≤ d.buffer.getRecordCount := by
    simpa [MutableBuffer.isAtLowWatermark] using hat
  obtain ⟨s, b, -, hr, hb, hs, ha⟩ := hserving.internalAppend_at
    (ISAMTree.mergesRecords lay std) hlwm hok hat c.record c.tombstone logging
  obtain ⟨pos, hrec⟩ := ha.records
  rw [flushed_records, List.nil_append] at hrec
  have hbuf : bufferTombstones { d.flushed e s with buffer := b } = c.tombstone.toNat := by
    rw [bufferTombstones, hrec, countP_slotContent]
  have hiff : (calls ++ [c]).countP Call.tombstone =
      bufferTombstones { d.flushed e s with buffer := b } ↔ calls.countP Call.tombstone = 0 := by
    rw [countP_tombstone_append, hbuf, Nat.add_eq_right]
  refine ⟨_, _, by rw [call_eq, hb], ⟨h.tracks.store hs ⟨pos, .inr ⟨by omega, hr, hrec⟩⟩, ?_,
    fun hall => ?_⟩, hiff⟩
  · rw [hserving.internalAppend_tscnt hlwm hb, h.tscnt, countP_tombstone_append]
  · have hnone := hiff.mp hall
    have hbufle := h.tracks.bufferTombstones_le
    have hold := (ExtensionStructure.shardsExact_iff _).mp (h.exact (by omega))
    rw [ExtensionStructure.shardsExact_iff]
    refine hr.all (fun zs x _ hzs hx => ?_) fun x hx => ?_
    · rw [overcount_ofShards hx]
      exact List.sum_eq_zero fun o ho => by
        obtain ⟨z, hz, rfl⟩ := List.mem_map.mp ho
        exact hzs z hz
    · rcases Multiset.mem_add.mp hx with hx | hx
      · exact hold x hx
      · rw [Multiset.mem_singleton.mp hx, h.overcount_flushed hnone]

theorem Counted.call (hlwm : 0 < lwm) (hle : lwm ≤ hwm) {calls : List (Call (Record K V))}
    (h : Counted lwm hwm d e calls) (hok : d.CallOk) (logging : Bool) (c : Call (Record K V)) :
    ∃ d' e', d.call logging c = some (1, d') ∧ Counted lwm hwm d' e' (calls ++ [c]) ∧
      ((calls ++ [c]).countP Call.tombstone = d'.bufferTombstones ↔
        calls.countP Call.tombstone = d.bufferTombstones ∧ d.FlushLive) := by
  by_cases hat : d.buffer.isAtLowWatermark = true
  · obtain ⟨d', e', hd', h', hiff⟩ := h.call_at hlwm hok hat logging c
    have hzero : d.FlushLive ↔ d.bufferTombstones = 0 := by
      simp [FlushLive, hat, bufferTombstones, List.countP_eq_zero]
    have hbufle := h.tracks.bufferTombstones_le
    refine ⟨d', e', hd', h', hiff.trans ?_⟩
    rw [hzero]
    omega
  · have hlow : d.buffer.getRecordCount < d.buffer.lwm := by
      simpa [MutableBuffer.isAtLowWatermark] using hat
    obtain ⟨d', hd', h', hiff⟩ := h.call_below hlwm hle hok.slot hlow logging c
    exact ⟨d', e, hd', h', hiff.trans (and_iff_left fun htrue => absurd htrue hat).symm⟩

theorem Counted.run (hlwm : 0 < lwm) (hle : lwm ≤ hwm) (logging : Bool)
    {hist calls : List (Call (Record K V))} (h : Counted lwm hwm d e hist)
    (hok : d.RunOk logging calls) :
    ∃ d' e', d.run logging calls = some d' ∧ Counted lwm hwm d' e' (hist ++ calls) ∧
      ((hist ++ calls).countP Call.tombstone = d'.bufferTombstones ↔
        hist.countP Call.tombstone = d.bufferTombstones ∧ d.FlushesLive logging calls) := by
  induction calls generalizing d e hist with
  | nil =>
    refine ⟨d, e, rfl, by simpa using h, ?_⟩
    have hnil : d.FlushesLive logging [] := by
      intro pre c post hsplit
      simp at hsplit
    simp [hnil]
  | cons c calls ih =>
    obtain ⟨hcall, hrest⟩ := (runOk_cons logging d c calls).mp hok
    obtain ⟨d₁, e₁, hd₁, h₁, hiff₁⟩ := h.call hlwm hle hcall logging c
    obtain ⟨d', e', hrun, h', hiff'⟩ := ih h₁ (hrest _ hd₁)
    rw [List.append_assoc, List.singleton_append] at h' hiff'
    refine ⟨d', e', ?_, h', ?_⟩
    · rw [run_cons hd₁, hrun]
    · have hcons : d.FlushesLive logging (c :: calls) ↔
          d.FlushLive ∧ d₁.FlushesLive logging calls := by
        rw [FlushesLive, eachCall_cons, hd₁]
        simp [FlushesLive]
      rw [hiff', hiff₁, hcons, and_assoc]

theorem counted_new (lay : NodeLayout) (std : StdLib (Record K V)) (L : LayoutPolicy) {scale : Nat}
    (hlwm : 0 < lwm) (hle : lwm ≤ hwm)
    (hscale : 0 < scale) (hbsm : L = .bsm → scale = 2)
    {log : Option (List (WALEntry (Record K V)))} (hlog : ∀ file, log = some file → file = []) :
    ∃ d e, new (ISAMTree.shardType lay std) L lwm hwm scale none log = some d ∧
      Counted lwm hwm d e [] := by
  obtain ⟨d, e, hd, h⟩ := tracks_new (ISAMTree.shardType lay std) L hlwm hle hscale hbsm hlog
  have heq := new_eq (ISAMTree.shardType lay std) L hlwm hle hbsm hlog
  rw [hd, Option.some.injEq] at heq
  have hcur := h.serving.idle.current
  rw [heq, EpochPtr.mk.injEq, Option.some.injEq] at hcur
  refine ⟨d, e, hd, h, by rw [heq]; rfl, fun _ x hx => ?_⟩
  simp [← hcur.1, ExtensionStructure.new, ExtensionStructure.shards] at hx

/-- In a run in order the counts are exact as long as no reconstruction finds a tombstone in
the buffer, and from the first that does on they are not. -/
theorem countsExact_iff (lay : NodeLayout) (std : StdLib (Record K V)) (L : LayoutPolicy)
    {lwm hwm scale : Nat} (hlwm : 1 ≤ lwm) (hle : lwm ≤ hwm) (hscale : 2 ≤ scale)
    (hbsm : L = .bsm → scale = 2) {log : Option (List (WALEntry (Record K V)))}
    (hlog : ∀ file, log = some file → file = []) (logging : Bool) :
    ∃ d₀, new (ISAMTree.shardType lay std) L lwm hwm scale none log = some d₀ ∧
      ∀ calls, d₀.RunOk logging calls →
        ∃ d e, d₀.run logging calls = some d ∧ d.currentEpoch.epoch = some e ∧
          (d₀.FlushesLive logging calls → d.CountsExact e.vers) ∧
          (calls.length < 2 ^ 64 → d.CountsExact e.vers → d₀.FlushesLive logging calls) := by
  obtain ⟨d₀, e₀, hnew, h₀⟩ := counted_new lay std L hlwm hle (by omega : 0 < scale) hbsm hlog
  have hempty : d₀.bufferTombstones = 0 := Nat.le_zero.mp h₀.tracks.bufferTombstones_le
  refine ⟨d₀, hnew, fun calls hok => ?_⟩
  obtain ⟨d, e, hrun, h, hiff⟩ := h₀.run hlwm hle logging hok
  rw [List.nil_append] at h hiff
  have hlive : calls.countP Call.tombstone = d.bufferTombstones ↔ d₀.FlushesLive logging calls :=
    hiff.trans (and_iff_right hempty.symm)
  rw [← hlive]
  exact ⟨d, e, hrun, by rw [h.tracks.serving.idle.current], h.exact_iff⟩

theorem countsExact_iff_sample :
    let calls : List (Call (Record Nat Nat)) := [.insert ⟨1, 5⟩, .insert ⟨2, 6⟩, .erase ⟨1, 5⟩]
    ∃ d₀ d, new (ISAMTree.shardType NodeLayout.words (StdLib.sorted (Record Nat Nat))) .teiring
        1 1 2 none none = some d₀ ∧ d₀.run false calls = some d ∧
      ∃ e, d.currentEpoch.epoch = some e ∧ d.CountsExact e.vers := by
  intro calls
  obtain ⟨d₀, hnew, hall⟩ := countsExact_iff NodeLayout.words (StdLib.sorted (Record Nat Nat))
    .teiring (le_refl 1) (le_refl 1) (le_refl 2) (by decide)
    (show ∀ file, none = some file → file = [] by simp) false
  have hok : ∀ d ∈ new (ISAMTree.shardType NodeLayout.words (StdLib.sorted (Record Nat Nat)))
      .teiring 1 1 2 none none, d.RunOk false calls ∧ d.FlushesLive false calls := by
    decide +kernel
  obtain ⟨hok, hlive⟩ := hok d₀ hnew
  obtain ⟨d, e, hrun, he, hexact, -⟩ := hall calls hok
  exact ⟨d₀, d, hnew, hrun, e, he, hexact hlive⟩

/-- The count of the one tombstone, which a flush moved into a shard, stays with the buffer. -/
theorem not_countsExact :
    let calls : List (Call (Record Nat Nat)) := [.insert ⟨1, 5⟩, .erase ⟨1, 5⟩, .insert ⟨2, 6⟩]
    Call.Legal calls ∧
    ∃ d₀ d, new (ISAMTree.shardType NodeLayout.words (StdLib.sorted (Record Nat Nat))) .teiring
        1 1 2 none none = some d₀ ∧ d₀.run false calls = some d ∧
      ∃ e, d.currentEpoch.epoch = some e ∧ ¬ d.CountsExact e.vers := by
  intro calls
  have hrun : (new (ISAMTree.shardType NodeLayout.words (StdLib.sorted (Record Nat Nat))) .teiring
      1 1 2 none none).bind (fun d₀ => (d₀.run false calls).bind fun d =>
        d.currentEpoch.epoch.map fun e =>
          decide (d.getTombstoneCount.map Prod.fst = some 2 ∧
            d.bufferTombstones + (e.vers.shards.map tombstonesOf).sum = 1)) = some true := by
    decide +kernel
  obtain ⟨d₀, hnew, hrun⟩ := Option.bind_eq_some_iff.mp hrun
  obtain ⟨d, hd, hrun⟩ := Option.bind_eq_some_iff.mp hrun
  obtain ⟨e, he, hcount⟩ := Option.map_eq_some_iff.mp hrun
  rw [decide_eq_true_eq] at hcount
  refine ⟨by decide, d₀, d, hnew, hd, e, he, fun h => ?_⟩
  rw [h.total, hcount.2, Option.map_some, Option.some.injEq] at hcount
  exact absurd hcount.1 (by decide : BitVec.ofNat 64 1 ≠ 2)

end Runs

end DynamicExtension

end De
