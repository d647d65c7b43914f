import DynamicExtension.SerialRun
import DynamicExtension.RangeScanIterator
set_option autoImplicit false

namespace De

theorem filterMap_getElem? {α : Type} (xs : List α) :
    ((List.range xs.length).filterMap fun i => xs[i]?) = xs := by
  induction xs with
  | nil => rfl
  | cons x xs ih =>
    rw [List.length_cons, List.range_succ_eq_map]
    simpa [List.filterMap_cons, List.filterMap_map, Function.comp_def] using ih

section Visited
variable {R : Type} [DecidableEq R] {T : ShardType R} {L : LayoutPolicy}

/-- The shards of a level, as a loop over `get_shard` meets them -/
def InternalLevel.getShards (l : InternalLevel T) : List T.Shard :=
  (List.range l.getShardCount).filterMap l.getShard

theorem InternalLevel.getShards_eq (l : InternalLevel T) : l.getShards = l.live := by
  have hget : l.getShard = fun i => l.live[i]? := funext l.getShard_eq
  rw [getShards, getShardCount, ← length_live, hget, filterMap_getElem?]

def ExtensionStructure.getShards (s : ExtensionStructure T L) : List T.Shard :=
  s.levels.flatMap InternalLevel.getShards

theorem ExtensionStructure.coe_getShards (s : ExtensionStructure T L) :
    (s.getShards : Multiset T.Shard) = s.shards := by
  rw [getShards, shards]
  induction s.levels with
  | nil => rfl
  | cons l ls ih =>
    rw [List.flatMap_cons, ← Multiset.coe_add, ih, l.getShards_eq, List.map_cons, List.sum_cons]

theorem ExtensionStructure.mem_getShards {s : ExtensionStructure T L} {x : T.Shard} :
    x ∈ s.getShards ↔ x ∈ s.shards := by
  rw [← s.coe_getShards, Multiset.mem_coe]

theorem ExtensionStructure.net_getShards (s : ExtensionStructure T L) :
    De.net (s.getShards.map T.records).flatten = s.net := by
  rw [net_flatten, net_eq, ← s.coe_getShards, Multiset.map_coe, Multiset.sum_coe, List.map_map]
  rfl

namespace DynamicExtension

/-- A query as the serial scheduler runs it; `answer` is the work of the query class
on the view and the shards. -/
def asyncQuery {α : Type} (answer : BufferView R → List T.Shard → Option α)
    (d : DynamicExtension T L) : Option (α × DynamicExtension T L) := do
  let (epoch, d) ← d.getActiveEpoch
  let (view, buffer) ← d.buffer.getBufferView epoch.bufferHead
  let d := { d with buffer := buffer }
  let output ← answer view epoch.vers.getShards
  let d ← d.endJob epoch
  let buffer ← d.buffer.releaseHeadReference view.head
  return (output, { d with buffer := buffer })

/-- A query answers on the buffer and the shards of the active epoch, and leaves
the framework as it was. -/
theorem Idle.asyncQuery {d : DynamicExtension T L} {e : Epoch T L} {pins oldPins : Nat}
    (h : Idle d e pins oldPins) {α : Type} (answer : BufferView R → List T.Shard → Option α) :
    d.asyncQuery answer = (answer (e.view d.buffer) e.vers.getShards).map fun a => (a, d) := by
  simp only [DynamicExtension.asyncQuery, h.getActiveEpoch, h.getBufferView, Option.bind_eq_bind,
    Option.bind_some]
  cases answer (e.view d.buffer) e.vers.getShards with
  | none => rfl
  | some a =>
    have hend := h.endJob (x := { d with
      buffer := { d.buffer with head := ⟨e.bufferHead, 1⟩ }
      currentEpoch := ⟨some e, pins + 1⟩ }) rfl rfl
    have hrel : MutableBuffer.releaseHeadReference { d.buffer with head := ⟨e.bufferHead, 1⟩ }
        (e.view d.buffer).head = some d.buffer := h.releaseHeadReference
    have hd : ({ d with currentEpoch := ⟨some e, pins⟩ } : DynamicExtension T L) = d := by
      rw [← h.current]
    simp only [Option.bind_some, hend, hrel, Option.map_some]
    exact congrArg (fun d => some (a, d)) hd

end DynamicExtension

end Visited

section Calls
variable {R : Type} [DecidableEq R]

theorem netOf_eq_count (calls : List (Call R)) (r : R) :
    netOf calls r = calls.count (.insert r) - calls.count (.erase r) := by
  induction calls with
  | nil => rfl
  | cons c calls ih =>
    have hcons : netOf (c :: calls) r = unit c.wrapped r + netOf calls r := by
      rw [netOf, List.map_cons, net_cons]
      rfl
    rw [hcons, ih, List.count_cons, List.count_cons]
    cases c with
    | insert q =>
      by_cases hq : q = r <;> simp [unit, Call.wrapped, Call.record, Call.tombstone, hq]
      omega
    | erase q =>
      by_cases hq : q = r <;> simp [unit, Call.wrapped, Call.record, Call.tombstone, hq]
      omega

/-- Every erase names a record that has a live copy. -/
def Call.Legal (calls : List (Call R)) : Prop :=
  ∀ (i : Nat) rec, calls[i]? = some (.erase rec) →
    (calls.take i).count (.erase rec) < (calls.take i).count (.insert rec)

instance (calls : List (Call R)) : Decidable (Call.Legal calls) :=
  decidable_of_iff
    (∀ i < calls.length, ∀ c ∈ calls[i]?, c.tombstone = true →
      (calls.take i).count (.erase c.record) < (calls.take i).count (.insert c.record)) <| by
    constructor
    · intro h i rec hi
      exact h i (List.getElem?_eq_some_iff.mp hi).1 _ hi rfl
    · rintro h i - c hc ht
      cases c with
      | insert rec => cases ht
      | erase rec => exact h i rec hc

theorem Call.Legal.count_le {calls : List (Call R)} (h : Legal calls) (r : R) :
    calls.count (.erase r) ≤ calls.count (.insert r) := by
  induction calls using List.reverseRecOn with
  | nil => simp
  | append_singleton calls c ih =>
    have hinit : Legal calls := by
      intro i rec hi
      have hlt := (List.getElem?_eq_some_iff.mp hi).1
      have := h i rec (by rw [List.getElem?_append_left hlt]; exact hi)
      rwa [List.take_append_of_le_length hlt.le] at this
    have hle := ih hinit
    rw [List.count_append, List.count_append]
    by_cases hc : c = .erase r
    · have := h calls.length r (by simp [hc])
      rw [List.take_left] at this
      simp [hc]
      omega
    · have hzero : [c].count (.erase r) = 0 := by simp [hc]
      omega

end Calls

variable {K V : Type} [LinearOrder K] [LinearOrder V] [Zero K] [Zero V]
variable {lay : NodeLayout} {std : StdLib (Record K V)} {L : LayoutPolicy}

/-- An iterator that `range_scan` returned, with the epoch that it pins -/
structure Scan (lay : NodeLayout) (std : StdLib (Record K V)) (L : LayoutPolicy) where
  epoch : Epoch (ISAMTree.shardType lay std) L
  iter : RangeScanIterator std

/-- An iterator that still has to return `out` -/
def Scan.Returns (scan : Scan lay std L) (out : List (Record K V)) : Prop :=
  ∃ st, RangeScanIterator.Merging lay scan.iter st ∧ (scan.iter.pending = 0 → st.order = []) ∧
    scan.iter.rest st = out

/-- `while (it.has_next()) it.next()` returns what the iterator still has to return. -/
theorem Scan.Returns.drain {scan : Scan lay std L} {out : List (Record K V)}
    (h : scan.Returns out) : scan.iter.drain lay (out.length + 1) = some out := by
  obtain ⟨st, hm, hdone, rfl⟩ := h
  exact RangeScanIterator.drain_spec _ _ _ hm hdone (Nat.lt_succ_self _)

omit [Zero K] [Zero V] in
theorem Scan.Returns.not_hasNext {scan : Scan lay std L} {out : List (Record K V)}
    (h : scan.Returns out) (hn : scan.iter.hasNext = false) : out = [] := by
  obtain ⟨st, -, hdone, rfl⟩ := h
  exact RangeScanIterator.rest_of_not_hasNext hdone hn

theorem Scan.Returns.next {scan : Scan lay std L} {out : List (Record K V)}
    (h : scan.Returns out) (hn : scan.iter.hasNext = true) :
    ∃ r iter out', scan.iter.next lay = some (r, iter) ∧ out = r :: out' ∧
      Scan.Returns ⟨scan.epoch, iter⟩ out' := by
  obtain ⟨st, hm, -, rfl⟩ := h
  obtain ⟨iter, st', hnext, hm', hdone', hrest⟩ := RangeScanIterator.next_spec hm hn
  exact ⟨_, iter, _, hnext, hrest, st', hm', hdone', rfl⟩

namespace DynamicExtension

def rangeScan (d : DynamicExtension (ISAMTree.shardType lay std) L) (start finish : Record K V) :
    Option (Scan lay std L × DynamicExtension (ISAMTree.shardType lay std) L) := do
  let (epoch, d) ← d.getActiveEpoch
  let (view, buffer) ← d.buffer.getBufferView epoch.bufferHead
  let buffer ← buffer.releaseHeadReference view.head
  let iter ← RangeScanIterator.new lay std view (epoch.vers.getShards.map Subtype.val) start finish
  return (⟨epoch, iter⟩, { d with buffer := buffer })

/-- The destructor of an iterator -/
def closeScan (d : DynamicExtension (ISAMTree.shardType lay std) L) (scan : Scan lay std L) :
    Option (DynamicExtension (ISAMTree.shardType lay std) L) := d.endJob scan.epoch

/-- The stored copies that a scan of an epoch merges -/
def copies (d : DynamicExtension (ISAMTree.shardType lay std) L)
    (e : Epoch (ISAMTree.shardType lay std) L) : List (Wrapped (Record K V)) :=
  (e.view d.buffer).records ++ (e.vers.getShards.map (ISAMTree.shardType lay std).records).flatten

omit [Zero K] [Zero V] in
theorem Serving.forall_copies {lwm hwm pins oldPins : Nat}
    {d : DynamicExtension (ISAMTree.shardType lay std) L}
    {e : Epoch (ISAMTree.shardType lay std) L} {P : Wrapped (Record K V) → Prop}
    (h : Serving lwm hwm d e pins oldPins) (hbuffer : ∀ w ∈ d.buffer.records, P w)
    (hshards : ∀ x ∈ e.vers.shards, ∀ w ∈ (ISAMTree.shardType lay std).records x, P w) :
    ∀ w ∈ copies d e, P w := by
  intro w hw
  rcases List.mem_append.mp hw with hw | hw
  · rw [h.view_records] at hw
    exact hbuffer w hw
  · obtain ⟨l, hl, hwl⟩ := List.mem_flatten.mp hw
    obtain ⟨x, hx, rfl⟩ := List.mem_map.mp hl
    exact hshards x (ExtensionStructure.mem_getShards.mp hx) w hwl

theorem exists_scan (view : BufferView (Record K V))
    (e : Epoch (ISAMTree.shardType lay std) L) (start finish : Record K V) :
    ∃ it out, RangeScanIterator.new lay std view (e.vers.getShards.map Subtype.val) start finish =
        some it ∧ Scan.Returns ⟨e, it⟩ out ∧
      RangeScanIterator.ScanOf (view.records ++
        (e.vers.getShards.map (ISAMTree.shardType lay std).records).flatten) start finish out := by
  set shards := e.vers.getShards.map Subtype.val
  have hwf : List.Forall₂ (fun t l => ISAMTree.WellFormed lay t l) shards
      (e.vers.getShards.map (ISAMTree.shardType lay std).records) := by
    refine List.forall₂_map_left_iff.mpr (List.forall₂_map_right_iff.mpr (List.forall₂_same.mpr ?_))
    exact fun x _ => ISAMTree.Shard.wellFormed x
  have hsorted : ∀ l ∈ e.vers.getShards.map (ISAMTree.shardType lay std).records,
      l.Pairwise fun a b => a.record ≤ b.record := by
    intro l hl
    obtain ⟨x, -, rfl⟩ := List.mem_map.mp hl
    exact (ISAMTree.Shard.wellFormed x).sorted
  obtain ⟨it, st, hnew, hm, hdone, hrest⟩ :=
    RangeScanIterator.new_spec std view hwf hsorted start finish
  exact ⟨it, _, hnew, ⟨st, hm, hdone, hrest⟩,
    RangeScanIterator.scanOf_emit std view hsorted start finish⟩

theorem Idle.rangeScan {d : DynamicExtension (ISAMTree.shardType lay std) L}
    {e : Epoch (ISAMTree.shardType lay std) L} {pins oldPins : Nat} (h : Idle d e pins oldPins)
    (start finish : Record K V) :
    ∃ scan out, d.rangeScan start finish =
        some (scan, { d with currentEpoch := ⟨some e, pins + 1⟩ }) ∧
      scan.epoch = e ∧ scan.Returns out ∧
      RangeScanIterator.ScanOf (copies d e) start finish out := by
  obtain ⟨it, out, hnew, hreturns, hof⟩ := exists_scan (e.view d.buffer) e start finish
  refine ⟨⟨e, it⟩, out, ?_, rfl, hreturns, hof⟩
  have hrel : MutableBuffer.releaseHeadReference { d.buffer with head := ⟨e.bufferHead, 1⟩ }
      (e.view d.buffer).head = some d.buffer := h.releaseHeadReference
  simp only [DynamicExtension.rangeScan, h.getActiveEpoch, h.getBufferView, hrel,
    Option.bind_eq_bind, Option.bind_some]
  rw [hnew]
  rfl

/-- Draining a scan of `[start, finish]` returns every record in the range as often
as `f` says, in record order, and leaves the framework as it was. -/
def ScanYields (d : DynamicExtension (ISAMTree.shardType lay std) L)
    (f : Record K V → Nat) : Prop :=
  ∀ start finish : Record K V, ∃ scan d' out, d.rangeScan start finish = some (scan, d') ∧
    scan.iter.drain lay (out.length + 1) = some out ∧ d'.closeScan scan = some d ∧
    out.Pairwise (· ≤ ·) ∧
    ∀ r, out.count r = if start.key ≤ r.key ∧ r.key ≤ finish.key then f r else 0

omit [Zero K] [Zero V] in
theorem Tracks.visible_copies {lwm hwm pins oldPins : Nat}
    {d : DynamicExtension (ISAMTree.shardType lay std) L}
    {e : Epoch (ISAMTree.shardType lay std) L} {calls : List (Call (Record K V))}
    (h : Tracks lwm hwm d e pins oldPins calls) : visible (copies d e) = netOf calls := by
  have hlive : ∀ w ∈ copies d e, w.isDeleted = false :=
    h.serving.forall_copies h.bufferLive h.shardsLive
  rw [visible_eq_net hlive, copies, net_append, h.serving.view_records,
    ExtensionStructure.net_getShards, add_comm]
  exact h.net

theorem Tracks.scanYields {lwm hwm : Nat} {d : DynamicExtension (ISAMTree.shardType lay std) L}
    {e : Epoch (ISAMTree.shardType lay std) L} {calls : List (Call (Record K V))}
    (h : Tracks lwm hwm d e 0 0 calls) :
    d.ScanYields fun r => calls.count (.insert r) - calls.count (.erase r) := by
  intro start finish
  obtain ⟨scan, out, hscan, he, hret, hof⟩ := h.serving.idle.rangeScan start finish
  refine ⟨scan, _, out, hscan, hret.drain, ?_, hof.sorted, fun r => ?_⟩
  · rw [closeScan, he, h.serving.idle.endJob_active]
  · rw [hof.count, h.visible_copies, netOf_eq_count, Int.toNat_sub]

theorem run_scanYields (lay : NodeLayout) (std : StdLib (Record K V)) (L : LayoutPolicy)
    {lwm hwm scale : Nat} (hlwm : 1 ≤ lwm) (hle : lwm ≤ hwm) (hscale : 2 ≤ scale)
    (hbsm : L = .bsm → scale = 2) {log : Option (List (WALEntry (Record K V)))}
    (hlog : ∀ file, log = some file → file = []) (logging : Bool) :
    ∃ d₀, new (ISAMTree.shardType lay std) L lwm hwm scale none log = some d₀ ∧
      ∀ calls, d₀.RunOk logging calls → ∃ d, d₀.run logging calls = some d ∧
        d.ScanYields fun r => calls.count (.insert r) - calls.count (.erase r) := by
  obtain ⟨d₀, e₀, hnew, h₀⟩ := tracks_new (ISAMTree.shardType lay std) L hlwm hle
    (by omega : 0 < scale) hbsm hlog
  refine ⟨d₀, hnew, fun calls hok => ?_⟩
  obtain ⟨d, e, hrun, h⟩ := h₀.run (ISAMTree.mergesRecords lay std) hlwm hle logging hok
  exact ⟨d, hrun, h.scanYields⟩

/-- A scan of everything after legal calls, each of them in order, returns what
was inserted and not erased. -/
theorem scan_exact (lay : NodeLayout) (std : StdLib (Record K V)) (L : LayoutPolicy)
    {lwm hwm scale : Nat} (hlwm : 1 ≤ lwm) (hle : lwm ≤ hwm) (hscale : 2 ≤ scale)
    (hbsm : L = .bsm → scale = 2) {log : Option (List (WALEntry (Record K V)))}
    (hlog : ∀ file, log = some file → file = []) (logging : Bool) :
    ∃ d₀, new (ISAMTree.shardType lay std) L lwm hwm scale none log = some d₀ ∧
      ∀ calls, Call.Legal calls → d₀.RunOk logging calls →
        ∃ d f, d₀.run logging calls = some d ∧ d.ScanYields f ∧
          ∀ r, f r + calls.count (.erase r) = calls.count (.insert r) := by
  obtain ⟨d₀, hnew, hall⟩ := run_scanYields lay std L hlwm hle hscale hbsm hlog logging
  refine ⟨d₀, hnew, fun calls hlegal hok => ?_⟩
  obtain ⟨d, hrun, hscan⟩ := hall calls hok
  exact ⟨d, _, hrun, hscan, fun r => Nat.sub_add_cancel (hlegal.count_le r)⟩

/-- The records that a scan returns, with fuel for its loop -/
def scanAll (fuel : Nat) (d : DynamicExtension (ISAMTree.shardType lay std) L)
    (start finish : Record K V) : Option (List (Record K V)) := do
  let (scan, _) ← d.rangeScan start finish
  scan.iter.drain lay fuel

/-- A run with a flush: the second call finds the buffer at its watermark. -/
theorem scan_exact_sample :
    let calls : List (Call (Record Nat Nat)) := [.insert ⟨1, 5⟩, .insert ⟨2, 6⟩, .erase ⟨1, 5⟩]
    ∃ d₀ d f, new (ISAMTree.shardType NodeLayout.words (StdLib.sorted (Record Nat Nat))) .teiring
        1 1 2 none none = some d₀ ∧ d₀.run false calls = some d ∧ d.ScanYields f ∧
      ∀ r, f r + calls.count (.erase r) = calls.count (.insert r) := by
  intro calls
  obtain ⟨d₀, hnew, hall⟩ := scan_exact NodeLayout.words (StdLib.sorted (Record Nat Nat)) .teiring
    (le_refl 1) (le_refl 1) (le_refl 2) (by decide)
    (show ∀ file, none = some file → file = [] by simp) false
  have hok : ∀ d ∈ new (ISAMTree.shardType NodeLayout.words (StdLib.sorted (Record Nat Nat)))
      .teiring 1 1 2 none none, d.RunOk false calls := by decide +kernel
  obtain ⟨d, f, hrun, hscan, hcount⟩ := hall calls (by decide) (hok d₀ hnew)
  exact ⟨d₀, d, f, hnew, hrun, hscan, hcount⟩

/-- Under LEVELING a flush that cancels leaves a shard without records, and the
flush after it has to merge that shard. -/
theorem not_scan_exact_cancelled :
    let calls : List (Call (Record Nat Nat)) :=
      [.insert ⟨1, 5⟩, .erase ⟨1, 5⟩, .insert ⟨2, 6⟩, .insert ⟨3, 7⟩, .insert ⟨4, 8⟩]
    Call.Legal calls ∧
    ∃ d₀, new (ISAMTree.shardType NodeLayout.words (StdLib.sorted (Record Nat Nat))) .leveling
        2 2 2 none none = some d₀ ∧ d₀.run false calls = none := by
  intro calls
  refine ⟨by decide, ?_⟩
  have hrun : (new (ISAMTree.shardType NodeLayout.words (StdLib.sorted (Record Nat Nat))) .leveling
      2 2 2 none none).map (fun d₀ => (d₀.run false calls).isNone) = some true := by
    decide +kernel
  obtain ⟨d₀, hnew, hnone⟩ := Option.map_eq_some_iff.mp hrun
  exact ⟨d₀, hnew, Option.isNone_iff_eq_none.mp hnone⟩

/-- An erase of a record without a live copy takes one copy of that record out of
every later scan, also one inserted after it, and changes no other record. -/
theorem scan_stray_erase (lay : NodeLayout) (std : StdLib (Record K V)) (L : LayoutPolicy)
    {lwm hwm scale : Nat} (hlwm : 1 ≤ lwm) (hle : lwm ≤ hwm) (hscale : 2 ≤ scale)
    (hbsm : L = .bsm → scale = 2) {log : Option (List (WALEntry (Record K V)))}
    (hlog : ∀ file, log = some file → file = []) (logging : Bool) :
    ∃ d₀, new (ISAMTree.shardType lay std) L lwm hwm scale none log = some d₀ ∧
      ∀ pre post r, pre.count (.insert r) ≤ pre.count (.erase r) →
        d₀.RunOk logging (pre ++ post) → d₀.RunOk logging (pre ++ .erase r :: post) →
        ∃ d d' f, d₀.run logging (pre ++ post) = some d ∧
          d₀.run logging (pre ++ .erase r :: post) = some d' ∧
          d.ScanYields f ∧ d'.ScanYields (Function.update f r (f r - 1)) := by
  obtain ⟨d₀, hnew, hall⟩ := run_scanYields lay std L hlwm hle hscale hbsm hlog logging
  refine ⟨d₀, hnew, fun pre post r _ hok hok' => ?_⟩
  obtain ⟨d, hrun, hscan⟩ := hall _ hok
  obtain ⟨d', hrun', hscan'⟩ := hall _ hok'
  refine ⟨d, d', _, hrun, hrun', hscan, ?_⟩
  have hcount : (fun q => (pre ++ .erase r :: post).count (.insert q) -
      (pre ++ .erase r :: post).count (.erase q)) =
      Function.update (fun q => (pre ++ post).count (.insert q) - (pre ++ post).count (.erase q)) r
        ((pre ++ post).count (.insert r) - (pre ++ post).count (.erase r) - 1) := by
    funext q
    by_cases hq : q = r
    · subst hq
      simp [List.count_append]
      omega
    · have hne : ¬ r = q := Ne.symm hq
      simp [List.count_append, Function.update_of_ne hq, hne]
  rwa [hcount] at hscan'

theorem scan_stray_erase_sample :
    ∃ d₀ d d' f, new (ISAMTree.shardType NodeLayout.words (StdLib.sorted (Record Nat Nat))) .teiring
        1 1 2 none none = some d₀ ∧
      d₀.run false [.insert ⟨1, 5⟩, .insert ⟨2, 6⟩] = some d ∧
      d₀.run false [.insert ⟨1, 5⟩, .erase ⟨3, 7⟩, .insert ⟨2, 6⟩] = some d' ∧
      d.ScanYields f ∧ d'.ScanYields (Function.update f ⟨3, 7⟩ (f ⟨3, 7⟩ - 1)) := by
  obtain ⟨d₀, hnew, hall⟩ := scan_stray_erase NodeLayout.words (StdLib.sorted (Record Nat Nat))
    .teiring (le_refl 1) (le_refl 1) (le_refl 2) (by decide)
    (show ∀ file, none = some file → file = [] by simp) false
  have hok : ∀ d ∈ new (ISAMTree.shardType NodeLayout.words (StdLib.sorted (Record Nat Nat)))
      .teiring 1 1 2 none none, d.RunOk false ([.insert ⟨1, 5⟩] ++ [.insert ⟨2, 6⟩]) ∧
        d.RunOk false ([.insert ⟨1, 5⟩] ++ .erase ⟨3, 7⟩ :: [.insert ⟨2, 6⟩]) := by decide +kernel
  obtain ⟨hok, hok'⟩ := hok d₀ hnew
  obtain ⟨d, d', f, hrun, hrun', hscan, hscan'⟩ :=
    hall [.insert ⟨1, 5⟩] [.insert ⟨2, 6⟩] ⟨3, 7⟩ (by decide) hok hok'
  exact ⟨d₀, d, d', f, hnew, hrun, hrun', hscan, hscan'⟩

/-- The tombstone of an erase that found nothing cancels the insert after it. -/
theorem scan_changed_by_stray_erase :
    ∃ d₀ d d', new (ISAMTree.shardType NodeLayout.words (StdLib.sorted (Record Nat Nat))) .teiring
        4 4 2 none none = some d₀ ∧
      d₀.run false [.insert ⟨1, 5⟩] = some d ∧
      d₀.run false [.erase ⟨1, 5⟩, .insert ⟨1, 5⟩] = some d' ∧
      d.scanAll 4 ⟨0, 0⟩ ⟨9, 0⟩ = some [⟨1, 5⟩] ∧ d'.scanAll 4 ⟨0, 0⟩ ⟨9, 0⟩ = some [] := by
  have hrun : (new (ISAMTree.shardType NodeLayout.words (StdLib.sorted (Record Nat Nat))) .teiring
      4 4 2 none none).bind (fun d₀ => (d₀.run false [.insert ⟨1, 5⟩]).bind fun d =>
        (d₀.run false [.erase ⟨1, 5⟩, .insert ⟨1, 5⟩]).map fun d' =>
          (d.scanAll 4 ⟨0, 0⟩ ⟨9, 0⟩, d'.scanAll 4 ⟨0, 0⟩ ⟨9, 0⟩)) =
      some (some [⟨1, 5⟩], some []) := by decide +kernel
  obtain ⟨d₀, hnew, hrun⟩ := Option.bind_eq_some_iff.mp hrun
  obtain ⟨d, hd, hrun⟩ := Option.bind_eq_some_iff.mp hrun
  obtain ⟨d', hd', hscans⟩ := Option.map_eq_some_iff.mp hrun
  exact ⟨d₀, d, d', hnew, hd, hd', congrArg Prod.fst hscans, congrArg Prod.snd hscans⟩

end DynamicExtension

end De
