import DynamicExtension.WindowSearch
set_option autoImplicit false

namespace De
open Bisect RangeQuery SortedMerge

/-- What the shard uses of `ts`: the spline that a builder finalizes, and the window of a
search. Of a spline that is default-constructed and no more, nothing is known. -/
structure SplineLibrary (K : Type) [LinearOrder K] where
  Spline : Type
  finalize : K → K → List K → Spline
  getSearchBound : Option Spline → K → SearchBound
  holds : ∀ minKey maxKey (keys : List K) key, keys.Pairwise (· ≤ ·) →
    (getSearchBound (some (finalize minKey maxKey keys)) key).lo ≤ keys.findIdx (key ≤ ·) ∧
    keys.findIdx (key ≤ ·) ≤ (getSearchBound (some (finalize minKey maxKey keys)) key).hi ∧
    (getSearchBound (some (finalize minKey maxKey keys)) key).hi ≤ keys.length

/-- `m_ts` is empty until it is assigned a finalized spline. -/
structure TrieSpline {K : Type} [LinearOrder K] (lib : SplineLibrary K) (V : Type) where
  data : List (Wrapped (Record K V))
  reccnt : Nat
  tombstoneCnt : Nat
  minKey : K
  maxKey : K
  ts : Option lib.Spline

namespace TrieSpline
variable {K V : Type} [LinearOrder K] [LinearOrder V] (lib : SplineLibrary K)

section Defs

/-- What both constructors do with the records that stay: track the extreme keys, and
finalize the spline of more than 50 records. -/
def finish (tmpMinKey tmpMaxKey : K) (data : List (Wrapped (Record K V))) (info : MergeInfo) :
    TrieSpline lib V where
  data := data
  reccnt := info.recordCount
  tombstoneCnt := info.tombstoneCount
  minKey := data.foldl (fun m w => if w.record.key < m then w.record.key else m) tmpMaxKey
  maxKey := data.foldl (fun m w => if m < w.record.key then w.record.key else m) tmpMinKey
  ts := if info.recordCount > 50 then
      some (lib.finalize tmpMinKey tmpMaxKey (data.map fun w => w.record.key))
    else none

/-- `TrieSpline(BufferView<R>)`. The extreme keys of an empty view are read where there
is no record; `past` is what stands there. -/
def ofBuffer (past : K × K) (buffer : BufferView (Record K V)) : Option (TrieSpline lib V) := do
  let temp := sortWrapped (← buffer.copyToBuffer)
  let tmpMinKey := (temp.head?.map fun w => w.record.key).getD past.1
  let tmpMaxKey := (temp.getLast?.map fun w => w.record.key).getD past.2
  let (data, info) := scan temp
  return finish lib tmpMinKey tmpMaxKey data info

/-- `TrieSpline(std::vector<TrieSpline*>)`, which reads `shards[0]` -/
def ofShards (pq : WrappedQueue (Record K V)) (shards : List (TrieSpline lib V)) :
    Option (TrieSpline lib V) := do
  let first ← shards.head?
  let tmpMaxKey := shards.foldl (fun m s => if m < s.maxKey then s.maxKey else m) first.maxKey
  let tmpMinKey := shards.foldl (fun m s => if s.minKey < m then s.minKey else m) first.minKey
  let (data, info) ← sortedArrayMerge pq (shards.map fun s => ⟨s.data, 0⟩)
  return finish lib tmpMinKey tmpMaxKey data info

variable {lib}

/-- `get_lower_bound` scans arrays of fewer than 50 records and searches others. -/
def consultsSpline (shard : TrieSpline lib V) : Bool := !(shard.reccnt < 50)

def getLowerBound (shard : TrieSpline lib V) (key : K) : Nat :=
  if shard.consultsSpline then
    let bound := lib.getSearchBound shard.ts key
    if shard.reccnt ≤ bound.lo then
      shard.reccnt
    else
      let idx := windowSearch shard.data bound key
      if idx = shard.reccnt then shard.reccnt
      else if stepsBack shard.data key idx then idx - 1
      else idx
  else
    shard.data.findIdx fun w => key ≤ w.record.key

/-- `rq::Query::local_preproc` on the shard -/
def localPreproc (shard : TrieSpline lib V) (parms : Parameters K) : LocalQuery K :=
  ⟨shard.getLowerBound parms.lowerBound, shard.reccnt, parms⟩

end Defs

variable {lib}

/-- The shards that the constructors can build -/
inductive Built : TrieSpline lib V → Prop where
  | ofBuffer {past : K × K} {buffer : BufferView (Record K V)} {shard : TrieSpline lib V}
      (h : ofBuffer lib past buffer = some shard) : Built shard
  | ofShards {pq : WrappedQueue (Record K V)} {shards : List (TrieSpline lib V)}
      {shard : TrieSpline lib V} (hs : ∀ s ∈ shards, Built s)
      (h : ofShards lib pq shards = some shard) : Built shard

/-- A sorted array, with a finalized spline exactly when there are more than 50 records -/
structure WellFormed (shard : TrieSpline lib V) : Prop where
  sorted : shard.data.Pairwise fun a b => a.record ≤ b.record
  reccnt : shard.reccnt = shard.data.length
  finalized : 50 < shard.data.length → ∃ minKey maxKey,
    shard.ts = some (lib.finalize minKey maxKey (shard.data.map fun w => w.record.key))
  unfinalized : shard.data.length ≤ 50 → shard.ts = none

theorem wellFormed_finish (tmpMinKey tmpMaxKey : K) {data : List (Wrapped (Record K V))}
    {info : MergeInfo} (hs : data.Pairwise fun a b => a.record ≤ b.record)
    (hinfo : info.recordCount = data.length) :
    (finish lib tmpMinKey tmpMaxKey data info).WellFormed := by
  refine ⟨hs, hinfo, fun hlt => ⟨tmpMinKey, tmpMaxKey, ?_⟩, fun hle => ?_⟩
  · exact if_pos (hinfo ▸ hlt)
  · exact if_neg (by rw [hinfo]; exact not_lt.mpr hle)

theorem Built.wellFormed {shard : TrieSpline lib V} (h : Built shard) : shard.WellFormed := by
  induction h with
  | @ofBuffer past buffer shard h =>
    obtain ⟨temp, -, h⟩ := Option.bind_eq_some_iff.mp h
    rw [← Option.some.inj h]
    exact wellFormed_finish _ _ (sorted_scan (sortWrapped_sorted temp)) (by rw [info_scan])
  | @ofShards pq shards shard hs h ih =>
    obtain ⟨first, -, h⟩ := Option.bind_eq_some_iff.mp h
    obtain ⟨out, hmerge, h⟩ := Option.bind_eq_some_iff.mp h
    have hcursors : (shards.map fun s => (⟨s.data, 0⟩ : Cursor (Record K V))) =
        (shards.map TrieSpline.data).map fun l => ⟨l, 0⟩ := by rw [List.map_map]; rfl
    rw [hcursors] at hmerge
    have hne : [] ∉ shards.map TrieSpline.data := fun hmem => by
      rw [sortedArrayMerge, Merge.start_eq_none pq hmem] at hmerge
      cases hmerge
    have hsorted : ∀ l ∈ shards.map TrieSpline.data, l.Pairwise fun a b => a.record ≤ b.record := by
      intro l hl
      obtain ⟨s, hmem, rfl⟩ := List.mem_map.mp hl
      exact (ih s hmem).sorted
    obtain ⟨data, hmerge', hm⟩ := sortedArrayMerge_spec pq hne hsorted
    rw [Option.some.inj (hmerge.symm.trans hmerge')] at h
    rw [← Option.some.inj h]
    exact wellFormed_finish _ _ hm.sorted rfl

theorem WellFormed.holds {shard : TrieSpline lib V} (h : shard.WellFormed)
    (hlt : 50 < shard.data.length) (key : K) :
    (lib.getSearchBound shard.ts key).Holds shard.data key := by
  obtain ⟨minKey, maxKey, hts⟩ := h.finalized hlt
  have hkeys : (shard.data.map fun w => w.record.key).Pairwise (· ≤ ·) :=
    List.pairwise_map.mpr (h.sorted.imp Record.key_le_of_le)
  obtain ⟨hlo, hhi, hle⟩ := lib.holds minKey maxKey _ key hkeys
  rw [List.findIdx_map] at hlo hhi
  rw [List.length_map] at hle
  rw [hts]
  exact ⟨hlo, hhi, hle⟩

theorem WellFormed.getLowerBound_spec {shard : TrieSpline lib V} (h : shard.WellFormed)
    (hne : shard.data.length ≠ 50) (key : K) :
    BoundsBelow shard.data key (shard.getLowerBound key) := by
  have hle := lowerPosition_le shard.data key
  rw [getLowerBound]
  by_cases hsmall : shard.data.length < 50
  · rw [if_neg (by simp [consultsSpline, h.reccnt, hsmall])]
    exact ⟨le_rfl, id⟩
  · have hholds := h.holds (by omega) key
    have hlo := hholds.lo_le
    rw [if_pos (by simp [consultsSpline, h.reccnt, hsmall]), h.reccnt]
    by_cases hempty : shard.data.length ≤ (lib.getSearchBound shard.ts key).lo
    · rw [if_pos hempty]
      exact ⟨by omega, fun _ => rfl⟩
    · rw [if_neg hempty]
      simp only [windowSearch_eq h.sorted hholds]
      by_cases hend : lowerPosition shard.data key = shard.data.length
      · rw [if_pos hend]
        exact ⟨hend.ge, fun _ => rfl⟩
      · rw [if_neg hend]
        split
        · exact ⟨Nat.sub_le _ _, fun heq => absurd heq hend⟩
        · exact ⟨le_rfl, fun heq => absurd heq hend⟩

/-- No search asks a spline that was not finalized, and a range query on the shard yields
the records in the bounds. -/
def RangesRight (shard : TrieSpline lib V) : Prop :=
  ∀ parms : Parameters K, (shard.consultsSpline → shard.ts.isSome) ∧
    localQueryOn shard.data (shard.localPreproc parms) =
      shard.data.filter fun w => parms.Contains w.record

/-- Between the two thresholds, at 50 records, there is no spline to ask. -/
theorem rangesRight_iff {shard : TrieSpline lib V} (h : Built shard) :
    shard.RangesRight ↔ shard.data.length ≠ 50 := by
  have hw := h.wellFormed
  constructor
  · intro hright heq
    have hpos : 0 < shard.data.length := by omega
    have hconsults : shard.consultsSpline = true := by simp [consultsSpline, hw.reccnt, heq]
    have hts := (hright ⟨shard.data[0].record.key, shard.data[0].record.key⟩).1 hconsults
    rw [hw.unfinalized heq.le] at hts
    cases hts
  · intro hne parms
    refine ⟨fun hconsults => ?_, ?_⟩
    · have hlt : 50 < shard.data.length := by
        have : ¬ shard.reccnt < 50 := by simpa [consultsSpline] using hconsults
        rw [hw.reccnt] at this
        omega
      obtain ⟨minKey, maxKey, hts⟩ := hw.finalized hlt
      rw [hts]
      rfl
    · rw [localPreproc, hw.reccnt]
      exact localQueryOn_eq hw.sorted parms (hw.getLowerBound_spec hne _).take

end TrieSpline

/-- Windows that take in the whole array -/
def SplineLibrary.whole (K : Type) [LinearOrder K] : SplineLibrary K where
  Spline := Nat
  finalize _ _ keys := keys.length
  getSearchBound spline _ := ⟨0, spline.getD 0⟩
  holds _ _ _ _ _ := ⟨Nat.zero_le _, List.findIdx_le_length, le_rfl⟩

namespace TrieSpline

/-- The records `(0, 0)` to `(n - 1, 0)` in a buffer -/
def viewOf (n : Nat) : BufferView (Record Nat Nat) where
  data i := Wrapped.fresh ⟨i, 0⟩ false
  cap := 100
  head := 0
  tail := n
  approxTsCnt := 0

theorem rangesRight_iff_sample :
    ∃ shard : TrieSpline (SplineLibrary.whole Nat) Nat,
      ofBuffer (SplineLibrary.whole Nat) (0, 0) (viewOf 51) = some shard ∧ shard.RangesRight := by
  have hsome : ((ofBuffer (SplineLibrary.whole Nat) (0, 0) (viewOf 51)).map fun s =>
      s.data.length) = some 51 := by decide +kernel
  obtain ⟨shard, hshard, hlen⟩ := Option.map_eq_some_iff.mp hsome
  exact ⟨shard, hshard, (rangesRight_iff (.ofBuffer hshard)).mpr (by omega)⟩

theorem not_rangesRight :
    ∃ shard : TrieSpline (SplineLibrary.whole Nat) Nat,
      ofBuffer (SplineLibrary.whole Nat) (0, 0) (viewOf 50) = some shard ∧
        ¬ shard.RangesRight := by
  have hsome : ((ofBuffer (SplineLibrary.whole Nat) (0, 0) (viewOf 50)).map fun s =>
      (s.consultsSpline, s.ts.isSome)) = some (true, false) := by decide +kernel
  obtain ⟨shard, hshard, hpair⟩ := Option.map_eq_some_iff.mp hsome
  obtain ⟨hconsults, hts⟩ := Prod.mk.inj hpair
  refine ⟨shard, hshard, fun hright => ?_⟩
  rw [(hright ⟨0, 9⟩).1 hconsults] at hts
  cases hts

end TrieSpline

end De
