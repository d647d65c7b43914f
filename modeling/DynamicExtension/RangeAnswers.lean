import DynamicExtension.SortedShard
import DynamicExtension.StrayTombstones
set_option autoImplicit false

namespace De
open KWay PQ

namespace RangeQuery

section Query
variable {K V : Type} [LinearOrder K] [LinearOrder V]

def localResults (view : BufferView (Record K V)) (shards : List (SortedShard K V))
    (parms : Parameters K) : List (List (Wrapped (Record K V))) :=
  localQueryBuffer view parms :: shards.map fun shard => localQuery shard (localPreproc shard parms)

/-- What `async_query` computes on the buffer and the shards of its epoch -/
def query (pq : WrappedQueue (Record K V)) (view : BufferView (Record K V))
    (shards : List (SortedShard K V)) (parms : Parameters K) : Option (List (Record K V)) :=
  combine pq (localResults view shards parms)

/-- All the copies that the query can see -/
def stored (view : BufferView (Record K V)) (shards : List (SortedShard K V)) :
    List (Wrapped (Record K V)) := view.records ++ (shards.map SortedShard.data).flatten

theorem localResults_flatten (view : BufferView (Record K V)) (shards : List (SortedShard K V))
    (parms : Parameters K) : (localResults view shards parms).flatten =
      (stored view shards).filter fun w => parms.Contains w.record := by
  have hshards : (shards.map fun shard => localQuery shard (localPreproc shard parms)).flatten =
      (shards.map SortedShard.data).flatten.filter fun w => parms.Contains w.record := by
    induction shards with
    | nil => rfl
    | cons shard shards ih =>
      rw [List.map_cons, List.flatten_cons, ih, localQuery_eq, List.map_cons, List.flatten_cons,
        List.filter_append]
  rw [localResults, List.flatten_cons, hshards, stored, List.filter_append]
  rfl

/-- The query outputs each record of the range as often as its copies that are not
marked deleted outnumber its tombstones. -/
def Exact (view : BufferView (Record K V)) (shards : List (SortedShard K V))
    (parms : Parameters K) (out : List (Record K V)) : Prop :=
  ∀ r, (out.count r : ℤ) = if parms.Contains r then visible (stored view shards) r else 0

theorem query_spec (pq : WrappedQueue (Record K V)) (view : BufferView (Record K V))
    (shards : List (SortedShard K V)) (parms : Parameters K) :
    ∃ out, query pq view shards parms = some out ∧ (Exact view shards parms out ↔
      (∀ w ∈ stored view shards, parms.Contains w.record → w.isTombstone = false →
        w.isDeleted = false) ∧
      (Combine.new pq (localResults view shards parms)).NoStray) := by
  obtain ⟨out, hout, hle, hiff⟩ := combine_spec pq (localResults view shards parms)
  refine ⟨out, hout, ?_⟩
  set l := (localResults view shards parms).flatten with hl
  have hlocal := localResults_flatten view shards parms
  have hvisible : ∀ r, visible l r =
      if parms.Contains r then visible (stored view shards) r else 0 := by
    intro r
    rw [hl, hlocal, visible_filter (fun q => decide (parms.Contains q))]
    simp only [decide_eq_true_eq]
  have hlive : (∀ w ∈ stored view shards, parms.Contains w.record → w.isTombstone = false →
      w.isDeleted = false) ↔ ∀ r, visible l r = net l r := by
    rw [visible_eq_net_iff, hl, hlocal]
    simp only [List.mem_filter, decide_eq_true_eq, and_imp]
  simp only [Exact, ← hvisible]
  rw [hlive, ← hiff]
  constructor
  · intro h
    have hnet : ∀ r, visible l r = net l r := fun r =>
      le_antisymm (visible_le_net l r) ((h r) ▸ hle r)
    exact ⟨hnet, fun r => (h r).trans (hnet r)⟩
  · rintro ⟨hnet, h⟩ r
    rw [h r, hnet r]

/-- What the local results hold around the copies of `r` -/
def copiesAround (view : BufferView (Record K V)) (shards : List (SortedShard K V))
    (parms : Parameters K) (r : Record K V) : List (List (Wrapped (Record K V))) :=
  stretch r (view.records.filter fun w => parms.Contains w.record) ::
    shards.map fun shard => shard.data.filter fun w => w.record = r

theorem map_stretch_localResults (view : BufferView (Record K V))
    (shards : List (SortedShard K V)) {parms : Parameters K} {r : Record K V}
    (h : parms.Contains r) :
    (localResults view shards parms).map (stretch r) = copiesAround view shards parms r := by
  rw [localResults, List.map_cons, List.map_map, copiesAround]
  congr 1
  refine List.map_congr_left fun shard _ => ?_
  rw [Function.comp_apply, localQuery_eq, stretch_of_sorted (shard.sorted.filter _),
    List.filter_filter]
  refine List.filter_congr fun w _ => ?_
  by_cases hw : w.record = r <;> simp [hw, h]

theorem settles_localResults_iff (view : BufferView (Record K V))
    (shards : List (SortedShard K V)) (parms : Parameters K) :
    Settles (localResults view shards parms) ↔
      ∀ w ∈ stored view shards, parms.Contains w.record →
        Settles (copiesAround view shards parms w.record) := by
  rw [settles_iff_records, localResults_flatten]
  simp only [List.mem_filter, decide_eq_true_eq, and_imp]
  refine forall₃_congr fun w _ hw => ?_
  rw [map_stretch_localResults view shards hw]

/-- The query is exact, however the queue breaks ties, if and only if no live copy in the
range carries the delete bit and the copies around each record settle. -/
theorem query_exact_iff (view : BufferView (Record K V)) (shards : List (SortedShard K V))
    (parms : Parameters K) :
    (∀ pq : WrappedQueue (Record K V), ∃ out, query pq view shards parms = some out ∧
      Exact view shards parms out) ↔
      ∀ w ∈ stored view shards, parms.Contains w.record →
        (w.isTombstone = false → w.isDeleted = false) ∧
        Settles (copiesAround view shards parms w.record) := by
  have hspec : (∀ pq : WrappedQueue (Record K V), ∃ out, query pq view shards parms = some out ∧
      Exact view shards parms out) ↔ ∀ pq : WrappedQueue (Record K V),
        (∀ w ∈ stored view shards, parms.Contains w.record → w.isTombstone = false →
          w.isDeleted = false) ∧ (Combine.new pq (localResults view shards parms)).NoStray := by
    refine forall_congr' fun pq => ?_
    obtain ⟨out, hout, hiff⟩ := query_spec pq view shards parms
    rw [← hiff, hout]
    simp only [Option.some.injEq, exists_eq_left']
  rw [hspec, forall_and, Combine.forall_noStray_iff, settles_localResults_iff]
  constructor
  · rintro ⟨hlive, hsettles⟩ w hw hc
    exact ⟨hlive (PriorityQueue.sorted _) w hw hc, hsettles w hw hc⟩
  · intro h
    exact ⟨fun _ w hw hc => (h w hw hc).1, fun w hw hc => (h w hw hc).2⟩

/-- An erase of `(3, 0)`, which three shards hold: a tree, windows and a scan -/
theorem query_exact_iff_sample : ∃ t : SortedShard Nat Nat, t.data = keyRun ∧
    ∀ pq : WrappedQueue (Record Nat Nat), ∃ out,
      query pq (BufferView.ofList [Wrapped.fresh ⟨3, 0⟩ true])
        [t, SortedShard.keyRunWindows, SortedShard.keyRunScan] ⟨2, 3⟩ = some out ∧
      Exact (BufferView.ofList [Wrapped.fresh ⟨3, 0⟩ true])
        [t, SortedShard.keyRunWindows, SortedShard.keyRunScan] ⟨2, 3⟩ out := by
  obtain ⟨t, hdata, -⟩ := SortedShard.exists_keyRunTree
  refine ⟨t, hdata, (query_exact_iff _ _ _).mpr ?_⟩
  simp only [stored, copiesAround, List.map_cons, hdata]
  decide +kernel

/-- The tombstone of an erase waits behind the record that it erases, in the same
local result, and the two are never the two least fronts. -/
theorem not_query_exact :
    let buffer : MutableBuffer (Record Nat Nat) := MutableBuffer.empty 4 4 none
    let view := ((buffer.append ⟨1, 5⟩ false false).2.append ⟨1, 5⟩ true false).2.viewFrom 0
    (∀ r, 0 ≤ visible (stored view []) r) ∧
    ∃ out, query (PriorityQueue.sorted _) view [] ⟨0, 9⟩ = some out ∧
      ¬ Exact view [] ⟨0, 9⟩ out := by
  intro buffer view
  have hzero : visible (stored view []) ⟨1, 5⟩ = 0 := by decide +kernel
  have hrecords : ∀ w ∈ stored view [], w.record = ⟨1, 5⟩ := by decide +kernel
  have hout : query (PriorityQueue.sorted _) view [] ⟨0, 9⟩ = some [⟨1, 5⟩] := by decide +kernel
  refine ⟨fun r => ?_, _, hout, fun hexact => ?_⟩
  · by_cases hr : r = ⟨1, 5⟩
    · rw [hr, hzero]
    · rw [visible_eq_zero fun w hw heq => hr (heq.symm.trans (hrecords w hw))]
  · have := hexact ⟨1, 5⟩
    rw [hzero] at this
    exact absurd this (by decide)

end Query

end RangeQuery

end De
