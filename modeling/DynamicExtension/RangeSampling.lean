import DynamicExtension.BufferView
import DynamicExtension.RandomStream
set_option autoImplicit false

namespace De
open Rejection Rounding

namespace Irs

structure Parameters (K : Type) where
  lowerBound : K
  upperBound : K
  sampleSize : Nat

structure LocalQuery (K : Type) where
  lowerIdx : Nat
  upperIdx : Nat
  totalWeight : Nat
  sampleSize : Nat
  globalParms : Parameters K

structure LocalQueryBuffer (K V : Type) where
  buffer : BufferView (Record K V)
  cutoff : Nat
  records : List (Wrapped (Record K V))
  shardAlias : Option (List (Option ℚ))
  sampleSize : Nat
  globalParms : Parameters K

/-- What the query asks of a shard -/
structure Shard (K V : Type) where
  data : List (Wrapped (Record K V))
  getLowerBound : K → Nat
  getUpperBound : K → Nat

section Defs
variable {K V : Type} [LinearOrder K]

def Parameters.Contains (parms : Parameters K) (r : Record K V) : Prop :=
  r.key ≥ parms.lowerBound ∧ r.key ≤ parms.upperBound

instance (parms : Parameters K) (r : Record K V) : Decidable (parms.Contains r) :=
  inferInstanceAs (Decidable (_ ∧ _))

omit [LinearOrder K] in
/-- The difference of the indexes is a `size_t`. -/
def rangeLength (query : LocalQuery K) : Nat := (query.upperIdx + 2 ^ 64 - query.lowerIdx) % 2 ^ 64

omit [LinearOrder K] in
def localPreproc (shard : Shard K V) (parms : Parameters K) : LocalQuery K :=
  let query := ⟨shard.getLowerBound parms.lowerBound, shard.getUpperBound parms.upperBound, 0, 0,
    parms⟩
  if query.lowerIdx = shard.data.length then query
  else { query with totalWeight := rangeLength query }

def localPreprocBuffer (rejection : Bool) (buffer : BufferView (Record K V))
    (parms : Parameters K) : LocalQueryBuffer K V where
  buffer := buffer
  cutoff := buffer.getRecordCount
  records := if rejection then [] else buffer.records.filter fun w => parms.Contains w.record
  shardAlias := none
  sampleSize := 0
  globalParms := parms

omit [LinearOrder K] in
/-- The weights to choose among sources by, unless there are records in none -/
def normalizedWeights (rejection : Bool) (localQueries : List (LocalQuery K))
    (bufferQuery : LocalQueryBuffer K V) : Option (List (Option ℚ)) :=
  let weights := (if rejection then bufferQuery.cutoff else bufferQuery.records.length) ::
    localQueries.map LocalQuery.totalWeight
  let totalWeight : Nat := weights.sum % 2 ^ 64
  if totalWeight = 0 then none
  else some (weights.map fun w => quotient (toDouble w) (toDouble totalWeight))

omit [LinearOrder K] in
def distributeQuery (lib : AliasLib) (rejection : Bool) (parms : Parameters K)
    (localQueries : List (LocalQuery K)) (bufferQuery : LocalQueryBuffer K V) :
    Draw Rng (List (LocalQuery K) × LocalQueryBuffer K V) :=
  match bufferQuery.shardAlias.or (normalizedWeights rejection localQueries bufferQuery) with
  | none => pure (localQueries.map fun q => { q with sampleSize := 0 }, bufferQuery)
  | some weights => do
    let sizes ← scatter (lib.get weights) parms.sampleSize fun _ => 0
    return (localQueries.mapIdx fun i q => { q with sampleSize := sizes (i + 1) },
      { bufferQuery with shardAlias := some weights, sampleSize := sizes 0 })

omit [LinearOrder K] in
def localQuery (shard : Shard K V) (query : LocalQuery K) : Draw Rng
    (List (Wrapped (Record K V))) :=
  if query.sampleSize = 0 ∨ query.lowerIdx = shard.data.length then pure []
  else
    attempts (do
      let idx ← (if rangeLength query > 0 then drawInt (rangeLength query) else pure 0)
      let w ← (shard.data[query.lowerIdx + idx]? : Option (Wrapped (Record K V)))
      return some w) query.sampleSize

def localQueryBuffer (rejection : Bool) (query : LocalQueryBuffer K V) :
    Draw Rng (List (Wrapped (Record K V))) :=
  if rejection then
    attempts (do
      let idx ← drawInt query.cutoff
      let w := query.buffer.get idx
      return if query.globalParms.Contains w.record then some w else none) query.sampleSize
  else
    attempts (do
      let idx ← drawInt query.records.length
      let w ← (query.records[idx]? : Option (Wrapped (Record K V)))
      return some w) query.sampleSize

omit [LinearOrder K] in
def combine (localResults : List (List (Wrapped (Record K V)))) (output : List (Record K V)) :
    List (Record K V) := output ++ localResults.flatten.map Wrapped.record

/-- The loop of `async_query`, with `repeat` at its end -/
def queryLoop (lib : AliasLib) (rejection : Bool) (shards : List (Shard K V)) :
    Nat → Parameters K → List (LocalQuery K) → LocalQueryBuffer K V → List (Record K V) →
      Draw Rng (List (Record K V))
  | 0, _, _, _, _ => failure
  | fuel + 1, parms, localQueries, bufferQuery, output => do
    let buffered ← localQueryBuffer rejection bufferQuery
    let found ← (shards.zip localQueries).mapM fun p => localQuery p.1 p.2
    let output := combine (buffered :: found) output
    if output.length < parms.sampleSize then
      let parms := { parms with sampleSize := parms.sampleSize - output.length }
      let (localQueries, bufferQuery) ← distributeQuery lib rejection parms localQueries bufferQuery
      queryLoop lib rejection shards fuel parms localQueries bufferQuery output
    else return output

/-- What `async_query` computes on the buffer and the shards of its epoch -/
def query (lib : AliasLib) (rejection : Bool) (view : BufferView (Record K V))
    (shards : List (Shard K V)) (parms : Parameters K) (fuel : Nat) :
    Draw Rng (List (Record K V)) := do
  let (localQueries, bufferQuery) ← distributeQuery lib rejection parms
    (shards.map fun shard => localPreproc shard parms) (localPreprocBuffer rejection view parms)
  queryLoop lib rejection shards fuel parms localQueries bufferQuery []

end Defs

section Plan
variable {K V : Type} [LinearOrder K] (lib : AliasLib) (rejection : Bool)
  (view : BufferView (Record K V)) (shards : List (Shard K V)) (parms : Parameters K)

omit [LinearOrder K] in
def shardDraw (parms : Parameters K) (shard : Shard K V) :
    Draw Rng (Option (Wrapped (Record K V))) :=
  let query := localPreproc shard parms
  if query.lowerIdx = shard.data.length then pure none
  else do
    let idx ← (if rangeLength query > 0 then drawInt (rangeLength query) else pure 0)
    let w ← (shard.data[query.lowerIdx + idx]? : Option (Wrapped (Record K V)))
    return some w

def bufferDraw : Draw Rng (Option (Wrapped (Record K V))) :=
  let query := localPreprocBuffer rejection view parms
  if rejection then do
    let idx ← drawInt query.cutoff
    let w := query.buffer.get idx
    return if query.globalParms.Contains w.record then some w else none
  else do
    let idx ← drawInt query.records.length
    let w ← (query.records[idx]? : Option (Wrapped (Record K V)))
    return some w

/-- The rounds of a query, once the alias is built -/
def plan (weights : List (Option ℚ)) : Plan Rng (Wrapped (Record K V)) where
  draws := bufferDraw rejection view parms :: shards.map (shardDraw parms)
  pick := lib.get weights
  keep := false

omit [LinearOrder K] in
def sized (sizes : Nat → Nat) : List (LocalQuery K) :=
  shards.mapIdx fun i shard => { localPreproc shard parms with sampleSize := sizes (i + 1) }

def sizedBuffer (weights : Option (List (Option ℚ))) (sizes : Nat → Nat) : LocalQueryBuffer K V :=
  { localPreprocBuffer rejection view parms with shardAlias := weights, sampleSize := sizes 0 }

omit [LinearOrder K] in
theorem localQuery_eq (shard : Shard K V) (n : Nat) :
    localQuery shard { localPreproc shard parms with sampleSize := n } =
      attempts (shardDraw parms shard) n := by
  rw [localQuery, shardDraw]
  by_cases hpast : (localPreproc shard parms).lowerIdx = shard.data.length
  · simp only [hpast, or_true, if_true, attempts_pure_none]
  · cases n with
    | zero => simp only [true_or, if_true, attempts]
    | succ n =>
      simp only [hpast, Nat.succ_ne_zero, or_self, if_false]
      rfl

theorem localQueryBuffer_eq (weights : Option (List (Option ℚ))) (sizes : Nat → Nat) :
    localQueryBuffer rejection (sizedBuffer rejection view parms weights sizes) =
      attempts (bufferDraw rejection view parms) (sizes 0) := by
  cases rejection <;> rfl

theorem round_eq {β : Type} (weights : Option (List (Option ℚ))) (sizes : Nat → Nat)
    (next : List (Wrapped (Record K V)) → Draw Rng β) :
    (do
      let buffered ← localQueryBuffer rejection (sizedBuffer rejection view parms weights sizes)
      let found ← (shards.zip (sized shards parms sizes)).mapM fun p => localQuery p.1 p.2
      next (buffered :: found).flatten) =
    sampleAll (bufferDraw rejection view parms :: shards.map (shardDraw parms)) sizes >>= next := by
  have hshards := flatten_mapM (localQuery_eq parms) shards fun i => sizes (i + 1)
  rw [localQueryBuffer_eq, sampleAll, ← hshards]
  simp [sized]

omit [LinearOrder K] in
theorem sized_mapIdx (sizes sizes' : Nat → Nat) :
    (sized shards parms sizes).mapIdx (fun i q => { q with sampleSize := sizes' (i + 1) }) =
      sized shards parms sizes' := by
  rw [sized, List.mapIdx_mapIdx]
  rfl

theorem distributeQuery_eq (weights : List (Option ℚ)) (n : Nat) (sizes : Nat → Nat) :
    distributeQuery lib rejection { parms with sampleSize := n } (sized shards parms sizes)
        (sizedBuffer rejection view parms (some weights) sizes) =
      (fun sizes' => (sized shards parms sizes',
        sizedBuffer rejection view parms (some weights) sizes')) <$>
          scatter (lib.get weights) n fun _ => 0 := by
  rw [distributeQuery, map_eq_pure_bind]
  simp only [sizedBuffer, Option.some_or, sized_mapIdx]

theorem queryLoop_eq (weights : List (Option ℚ)) (fuel asked : Nat) (sizes : Nat → Nat)
    (output : List (Wrapped (Record K V))) :
    queryLoop lib rejection shards fuel { parms with sampleSize := asked }
        (sized shards parms sizes) (sizedBuffer rejection view parms (some weights) sizes)
        (output.map Wrapped.record) =
      List.map Wrapped.record <$>
        (plan lib rejection view shards parms weights).rounds fuel asked sizes output := by
  induction fuel generalizing asked sizes output with
  | zero => rfl
  | succ fuel ih =>
    rw [queryLoop, Plan.rounds, map_bind]
    simp only [combine, ← List.map_append, List.length_map]
    refine (round_eq rejection view shards parms (some weights) sizes fun found =>
      if (output ++ found).length < asked then do
        let p ← distributeQuery lib rejection
          { parms with sampleSize := asked - (output ++ found).length } (sized shards parms sizes)
          (sizedBuffer rejection view parms (some weights) sizes)
        queryLoop lib rejection shards fuel
          { parms with sampleSize := asked - (output ++ found).length } p.1 p.2
          ((output ++ found).map Wrapped.record)
      else pure ((output ++ found).map Wrapped.record)).trans ?_
    refine bind_congr fun found => ?_
    split
    · rw [distributeQuery_eq, bind_map_left, map_bind]
      exact bind_congr fun sizes' => ih _ sizes' _
    · rfl

end Plan

section Draws
variable {K V : Type} [LinearOrder K] {rejection : Bool} {view : BufferView (Record K V)}
  {parms : Parameters K} {shard : Shard K V}

omit [LinearOrder K] in
theorem mem_records_iff {w : Wrapped (Record K V)} :
    w ∈ view.records ↔ ∃ i, i < view.getRecordCount ∧ view.get i = w := by
  simp [BufferView.records]

theorem bufferDraw_true :
    bufferDraw true view parms = drawInt view.getRecordCount >>= fun idx =>
      pure (if parms.Contains (view.get idx).record then some (view.get idx) else none) := rfl

theorem bufferDraw_false :
    bufferDraw false view parms =
      drawInt (view.records.filter fun w => parms.Contains w.record).length >>= fun idx =>
        liftM (view.records.filter fun w => parms.Contains w.record)[idx]? >>= fun w =>
          pure (some w) := rfl

theorem fair_bufferDraw : Fair (bufferDraw rejection view parms) := by
  cases rejection with
  | true => exact (fair_drawInt _).bind fun idx _ => fair_pure _
  | false => exact (fair_drawInt _).bind fun idx _ => (fair_lift _).bind fun w _ => fair_pure _

theorem can_bufferDraw_none :
    Can (bufferDraw rejection view parms) none ↔
      rejection = true ∧ ∃ w ∈ view.records, ¬ parms.Contains w.record := by
  cases rejection with
  | true =>
    simp only [true_and]
    constructor
    · intro h
      have honly : Only (bufferDraw true view parms) fun o =>
          o = none → ∃ w ∈ view.records, ¬ parms.Contains w.record := by
        rw [bufferDraw_true]
        refine (only_drawInt view.getRecordCount).bind fun idx hidx => only_pure fun hnone =>
          ⟨view.get idx, mem_records_iff.mpr ⟨idx, hidx, rfl⟩, fun hin => ?_⟩
        rw [if_pos hin] at hnone
        cases hnone
      exact honly.of_can h rfl
    · rintro ⟨w, hw, hout⟩
      obtain ⟨idx, hidx, rfl⟩ := mem_records_iff.mp hw
      rw [bufferDraw_true]
      refine (can_drawInt hidx).bind ?_
      rw [if_neg hout]
      exact can_pure none
  | false =>
    simp only [Bool.false_eq_true, false_and, iff_false]
    intro h
    have honly : Only (bufferDraw false view parms) fun o => o ≠ none :=
      (only_drawInt _).bind fun idx _ => (only_lift _).bind fun w _ => only_pure (by simp)
    exact honly.of_can h rfl

theorem can_bufferDraw_some :
    (∃ w, Can (bufferDraw rejection view parms) (some w)) ↔
      ∃ w ∈ view.records, parms.Contains w.record := by
  cases rejection with
  | true =>
    constructor
    · rintro ⟨w, h⟩
      have honly : Only (bufferDraw true view parms) fun o => ∀ w, o = some w →
          w ∈ view.records ∧ parms.Contains w.record := by
        rw [bufferDraw_true]
        refine (only_drawInt view.getRecordCount).bind fun idx hidx => only_pure fun w hw => ?_
        split at hw
        · rename_i hin
          obtain rfl := Option.some.inj hw
          exact ⟨mem_records_iff.mpr ⟨idx, hidx, rfl⟩, hin⟩
        · cases hw
      exact ⟨w, honly.of_can h w rfl⟩
    · rintro ⟨w, hw, hin⟩
      obtain ⟨idx, hidx, rfl⟩ := mem_records_iff.mp hw
      refine ⟨view.get idx, ?_⟩
      rw [bufferDraw_true]
      refine (can_drawInt hidx).bind ?_
      rw [if_pos hin]
      exact can_pure _
  | false =>
    constructor
    · rintro ⟨w, h⟩
      have honly : Only (bufferDraw false view parms) fun o => ∀ w, o = some w →
          w ∈ view.records.filter fun w => parms.Contains w.record := by
        refine (only_drawInt _).bind fun idx _ => (only_lift _).bind fun v hv =>
          only_pure fun w hw => ?_
        obtain rfl := Option.some.inj hw
        exact List.mem_of_getElem? hv
      have hmem := honly.of_can h w rfl
      rw [List.mem_filter, decide_eq_true_eq] at hmem
      exact ⟨w, hmem⟩
    · rintro ⟨w, hw, hin⟩
      have hmem : w ∈ view.records.filter fun w => parms.Contains w.record :=
        List.mem_filter.mpr ⟨hw, by simpa using hin⟩
      obtain ⟨idx, hidx, hget⟩ := List.getElem_of_mem hmem
      refine ⟨w, ?_⟩
      rw [bufferDraw_false]
      refine (can_drawInt hidx).bind ?_
      rw [List.getElem?_eq_getElem hidx, hget]
      exact (can_lift w).bind (can_pure _)

omit [LinearOrder K] in
theorem fair_shardDraw : Fair (shardDraw parms shard) := by
  rw [shardDraw]
  split
  · exact fair_pure none
  · refine Fair.bind ?_ fun idx _ => (fair_lift _).bind fun w _ => fair_pure _
    split
    · exact fair_drawInt _
    · exact fair_pure 0

omit [LinearOrder K] in
theorem can_shardDraw_none :
    Can (shardDraw parms shard) none ↔ (localPreproc shard parms).lowerIdx = shard.data.length := by
  rw [shardDraw]
  split
  · rename_i hpast
    exact iff_of_true (can_pure none) hpast
  · rename_i hpast
    refine iff_of_false (fun h => ?_) hpast
    have honly : Only (do
        let idx ← (if rangeLength (localPreproc shard parms) > 0 then
          drawInt (rangeLength (localPreproc shard parms)) else pure 0)
        let w ← (shard.data[(localPreproc shard parms).lowerIdx + idx]? :
          Option (Wrapped (Record K V)))
        return some w : Draw Rng (Option (Wrapped (Record K V)))) fun o => o ≠ none := by
      refine Only.bind (p := fun _ => True) (fun _ _ _ _ => trivial) fun idx _ =>
        (only_lift _).bind fun w _ => only_pure (by simp)
    exact honly.of_can h rfl

omit [LinearOrder K] in
theorem totalWeight_eq_zero (h : (localPreproc shard parms).lowerIdx = shard.data.length) :
    (localPreproc shard parms).totalWeight = 0 := by
  rw [localPreproc] at h ⊢
  split
  · rfl
  · rename_i hne
    rw [if_neg hne] at h
    exact absurd h hne

omit [LinearOrder K] in
theorem rangeLength_eq (h : (localPreproc shard parms).lowerIdx ≠ shard.data.length) :
    rangeLength (localPreproc shard parms) = (localPreproc shard parms).totalWeight := by
  rw [localPreproc] at h ⊢
  split
  · rename_i heq
    rw [if_pos heq] at h
    exact absurd heq h
  · simp only [rangeLength]

omit [LinearOrder K] in
theorem can_shardDraw_some (hw : 0 < (localPreproc shard parms).totalWeight) :
    (∃ w, Can (shardDraw parms shard) (some w)) ↔
      (localPreproc shard parms).lowerIdx < shard.data.length := by
  have hne : (localPreproc shard parms).lowerIdx ≠ shard.data.length := fun h => by
    rw [totalWeight_eq_zero h] at hw
    exact lt_irrefl 0 hw
  have heq : shardDraw parms shard =
      drawInt (rangeLength (localPreproc shard parms)) >>= fun idx =>
        liftM shard.data[(localPreproc shard parms).lowerIdx + idx]? >>= fun w =>
          pure (some w) := by
    rw [shardDraw]
    simp only [if_neg hne, rangeLength_eq hne, gt_iff_lt, if_pos hw]
  rw [heq, rangeLength_eq hne]
  constructor
  · rintro ⟨w, h⟩
    have honly : Only (drawInt (localPreproc shard parms).totalWeight >>= fun idx =>
        liftM shard.data[(localPreproc shard parms).lowerIdx + idx]? >>= fun w =>
          pure (some w)) fun _ => (localPreproc shard parms).lowerIdx < shard.data.length := by
      refine (only_drawInt _).bind fun idx _ => (only_lift _).bind fun v hv => only_pure ?_
      have := (List.getElem?_eq_some_iff.mp hv).1
      omega
    exact honly.of_can h
  · intro hlt
    refine ⟨shard.data[(localPreproc shard parms).lowerIdx], (can_drawInt hw).bind ?_⟩
    rw [Nat.add_zero, List.getElem?_eq_getElem hlt]
    exact (can_lift _).bind (can_pure _)

end Draws

section Spec
variable {K V : Type} [LinearOrder K] (lib : AliasLib) (rejection : Bool)
  (view : BufferView (Record K V)) (shards : List (Shard K V)) (parms : Parameters K)

def sourceWeights : List Nat :=
  (if rejection then view.getRecordCount
    else (view.records.filter fun w => parms.Contains w.record).length) ::
    shards.map fun shard => (localPreproc shard parms).totalWeight

/-- The sum that the weights are divided by, a `size_t` -/
def totalWeight : Nat := (sourceWeights rejection view shards parms).sum % 2 ^ 64

/-- What the sources are drawn by -/
def shares : List (Option ℚ) := (sourceWeights rejection view shards parms).map fun w =>
  quotient (toDouble w) (toDouble (totalWeight rejection view shards parms))

/-- The loop cannot end with another number of samples: it never starts, at most one sample
is asked for, no sample is rejected or none is accepted. -/
def Exact : Prop :=
  totalWeight rejection view shards parms = 0 ∨ parms.sampleSize ≤ 1 ∨
    (rejection = true → ∀ w ∈ view.records, parms.Contains w.record) ∨
    (∀ w ∈ view.records, ¬ parms.Contains w.record) ∧
      ∀ shard ∈ shards, 0 < (localPreproc shard parms).totalWeight →
        shard.data.length ≤ (localPreproc shard parms).lowerIdx

theorem normalizedWeights_eq :
    normalizedWeights rejection (shards.map fun shard => localPreproc shard parms)
        (localPreprocBuffer rejection view parms) =
      if totalWeight rejection view shards parms = 0 then none
      else some (shares rejection view shards parms) := by
  have hweights : (if rejection then (localPreprocBuffer rejection view parms).cutoff
      else (localPreprocBuffer rejection view parms).records.length) ::
      (shards.map fun shard => localPreproc shard parms).map LocalQuery.totalWeight =
        sourceWeights rejection view shards parms := by
    rw [sourceWeights, List.map_map]
    cases rejection <;> rfl
  simp only [normalizedWeights, hweights, totalWeight]
  exact if_congr Iff.rfl rfl rfl

omit [LinearOrder K] in
theorem map_localPreproc :
    (shards.map fun shard => localPreproc shard parms) = sized shards parms fun _ => 0 := by
  have hzero : ∀ shard : Shard K V,
      localPreproc shard parms = { localPreproc shard parms with sampleSize := 0 } := by
    intro shard
    rw [localPreproc]
    split <;> rfl
  refine List.ext_getElem (by simp [sized]) fun i h₁ h₂ => ?_
  simp only [List.getElem_map, sized, List.getElem_mapIdx]
  exact hzero _

theorem query_of_some {weights : List (Option ℚ)}
    (h : normalizedWeights rejection (shards.map fun shard => localPreproc shard parms)
      (localPreprocBuffer rejection view parms) = some weights) (fuel : Nat) :
    query lib rejection view shards parms fuel =
      List.map Wrapped.record <$>
        (plan lib rejection view shards parms weights).run fuel parms.sampleSize := by
  have hstart : distributeQuery lib rejection parms
      (shards.map fun shard => localPreproc shard parms)
      (localPreprocBuffer rejection view parms) =
      (fun sizes => (sized shards parms sizes,
        sizedBuffer rejection view parms (some weights) sizes)) <$>
          scatter (lib.get weights) parms.sampleSize fun _ => 0 := by
    have halias : (localPreprocBuffer rejection view parms).shardAlias = none := rfl
    rw [distributeQuery, halias, Option.none_or, h, map_eq_pure_bind, map_localPreproc]
    simp only [sized_mapIdx]
    rfl
  rw [query, hstart, bind_map_left, Plan.run, map_bind]
  exact bind_congr fun sizes =>
    queryLoop_eq lib rejection view shards parms weights fuel parms.sampleSize sizes []

omit [LinearOrder K] in
theorem sized_zero : (sized shards parms fun _ => 0).map (fun q => { q with sampleSize := 0 }) =
    sized shards parms fun _ => 0 := by
  refine List.ext_getElem (by simp [sized]) fun i h₁ h₂ => ?_
  simp only [List.getElem_map, sized, List.getElem_mapIdx]

theorem query_of_none
    (h : normalizedWeights rejection (shards.map fun shard => localPreproc shard parms)
      (localPreprocBuffer rejection view parms) = none) (fuel : Nat) :
    Only (query lib rejection view shards parms fuel) fun out =>
      out.length = parms.sampleSize := by
  have hstay : ∀ n, distributeQuery lib rejection { parms with sampleSize := n }
      (sized shards parms fun _ => 0) (sizedBuffer rejection view parms none fun _ => 0) =
      pure (sized shards parms fun _ => 0, sizedBuffer rejection view parms none fun _ => 0) := by
    intro n
    have halias : (sizedBuffer rejection view parms none fun _ => 0).shardAlias = none := rfl
    rw [map_localPreproc] at h
    rw [distributeQuery, halias, Option.none_or]
    have hweights : normalizedWeights rejection (sized shards parms fun _ => 0)
        (sizedBuffer rejection view parms none fun _ => 0) = none := h
    rw [hweights]
    simp only [sized_zero]
  have hloop : ∀ fuel, Only (queryLoop lib rejection shards fuel parms
      (sized shards parms fun _ => 0) (sizedBuffer rejection view parms none fun _ => 0) [])
      fun out => out.length = parms.sampleSize := by
    intro fuel
    induction fuel with
    | zero =>
      intro rng out rest heq
      cases heq
    | succ fuel ih =>
      have hround := round_eq rejection view shards parms none (fun _ => 0) fun found =>
        if (found.map Wrapped.record).length < parms.sampleSize then do
          let p ← distributeQuery lib rejection
            { parms with sampleSize := parms.sampleSize - (found.map Wrapped.record).length }
            (sized shards parms fun _ => 0) (sizedBuffer rejection view parms none fun _ => 0)
          queryLoop lib rejection shards fuel
            { parms with sampleSize := parms.sampleSize - (found.map Wrapped.record).length }
            p.1 p.2 (found.map Wrapped.record)
        else pure (found.map Wrapped.record)
      rw [sampleAll_zero, pure_bind] at hround
      rw [queryLoop]
      simp only [combine, List.nil_append]
      refine hround ▸ ?_
      split
      · rw [hstay, pure_bind]
        exact ih
      · rename_i hge
        exact only_pure (Nat.le_zero.mp (not_lt.mp hge)).symm
  have hstart := hstay parms.sampleSize
  rw [query, map_localPreproc]
  have hbuffer : localPreprocBuffer rejection view parms =
      sizedBuffer rejection view parms none fun _ => 0 := rfl
  rw [hbuffer, hstart, pure_bind]
  exact hloop fuel

variable {rejection view shards parms}

theorem can_pick_iff (htotal : totalWeight rejection view shards parms ≠ 0) (i : Nat) :
    Can (lib.get (shares rejection view shards parms)) i ↔
      ∃ w, (sourceWeights rejection view shards parms)[i]? = some w ∧ 0 < w := by
  have hdouble := toDouble_pos_iff.mpr (Nat.pos_of_ne_zero htotal)
  have hpos : ∀ w : Nat, 0 < roundRat 53 (toDouble w /
      toDouble (totalWeight rejection view shards parms)) ↔ 0 < w := by
    intro w
    rw [roundRat_pos_iff (by decide), lt_div_iff₀ hdouble, zero_mul, toDouble_pos_iff]
  have hshares : shares rejection view shards parms =
      ((sourceWeights rejection view shards parms).map fun w => roundRat 53 (toDouble w /
        toDouble (totalWeight rejection view shards parms))).map some := by
    rw [shares, List.map_map]
    exact List.map_congr_left fun w _ => if_neg hdouble.ne'
  rw [hshares, lib.can_get_iff, List.getElem?_map]
  simp only [Option.map_eq_some_iff]
  constructor
  · rintro ⟨_, ⟨w, hw, rfl⟩, h⟩
    exact ⟨w, hw, (hpos w).mp h⟩
  · rintro ⟨w, hw, h⟩
    exact ⟨_, ⟨w, hw, rfl⟩, (hpos w).mpr h⟩

theorem wf_plan :
    (plan lib rejection view shards parms (shares rejection view shards parms)).Wf where
  pick_lt := (lib.get_fair _).mono fun i hi => by
    refine ⟨?_, hi⟩
    have hlt := lib.get_lt _ i hi
    simpa [plan, shares, sourceWeights] using hlt
  draws_fair draw hdraw := by
    rcases List.mem_cons.mp hdraw with rfl | hdraw
    · exact fair_bufferDraw
    · obtain ⟨shard, -, rfl⟩ := List.mem_map.mp hdraw
      exact fair_shardDraw

variable {lib}

theorem accepts_succ {weights : List (Option ℚ)} {k : Nat} {shard : Shard K V}
    (hs : shards[k]? = some shard) (hw : 0 < (localPreproc shard parms).totalWeight) :
    (plan lib rejection view shards parms weights).Accepts (k + 1) ↔
      (localPreproc shard parms).lowerIdx < shard.data.length := by
  rw [← can_shardDraw_some hw]
  have hdraw : (plan lib rejection view shards parms weights).draws[k + 1]? =
      some (shardDraw parms shard) := by simp [plan, hs]
  constructor
  · rintro ⟨draw, hd, hcan⟩
    rw [hdraw] at hd
    exact Option.some.inj hd ▸ hcan
  · exact fun hcan => ⟨_, hdraw, hcan⟩

theorem accepts_zero {weights : List (Option ℚ)} :
    (plan lib rejection view shards parms weights).Accepts 0 ↔
      ∃ w ∈ view.records, parms.Contains w.record := by
  have hdraw : (∃ w, Can (bufferDraw rejection view parms) (some w)) ↔
      ∃ w ∈ view.records, parms.Contains w.record := can_bufferDraw_some
  rw [← hdraw]
  constructor
  · rintro ⟨draw, hd, hcan⟩
    exact Option.some.inj hd ▸ hcan
  · exact fun hcan => ⟨_, rfl, hcan⟩

theorem rejects_zero {weights : List (Option ℚ)} :
    (plan lib rejection view shards parms weights).Rejects 0 ↔
      rejection = true ∧ ∃ w ∈ view.records, ¬ parms.Contains w.record := by
  rw [← can_bufferDraw_none]
  constructor
  · rintro ⟨draw, hd, hcan⟩
    exact Option.some.inj hd ▸ hcan
  · exact fun hcan => ⟨_, rfl, hcan⟩

theorem not_rejects_succ {weights : List (Option ℚ)} {k : Nat} {shard : Shard K V}
    (hs : shards[k]? = some shard) (hw : 0 < (localPreproc shard parms).totalWeight) :
    ¬ (plan lib rejection view shards parms weights).Rejects (k + 1) := by
  rintro ⟨draw, hd, hcan⟩
  have hdraw : (plan lib rejection view shards parms weights).draws[k + 1]? =
      some (shardDraw parms shard) := by simp [plan, hs]
  rw [hdraw] at hd
  obtain rfl := Option.some.inj hd
  rw [totalWeight_eq_zero (can_shardDraw_none.mp hcan)] at hw
  exact lt_irrefl 0 hw

/-- The sources that can be picked: the buffer if it has a record that may be drawn, and
each shard of a positive weight -/
theorem weight_pos_iff {i : Nat} :
    (∃ w, (sourceWeights rejection view shards parms)[i]? = some w ∧ 0 < w) ↔
      (i = 0 ∧ ∃ w ∈ view.records, rejection = true ∨ parms.Contains w.record) ∨
      ∃ k shard, i = k + 1 ∧ shards[k]? = some shard ∧
        0 < (localPreproc shard parms).totalWeight := by
  cases i with
  | zero =>
    have hbuffer : 0 < (if rejection then view.getRecordCount
        else (view.records.filter fun w => parms.Contains w.record).length) ↔
        ∃ w ∈ view.records, rejection = true ∨ parms.Contains w.record := by
      cases rejection with
      | true => simp [List.length_pos_iff_exists_mem, ← BufferView.length_records]
      | false => simp [List.length_pos_iff_exists_mem]
    simpa [sourceWeights] using hbuffer
  | succ k => simp [sourceWeights]

theorem exact_plan (htotal : totalWeight rejection view shards parms ≠ 0) :
    (plan lib rejection view shards parms
      (shares rejection view shards parms)).Exact parms.sampleSize ↔
      parms.sampleSize ≤ 1 ∨ (rejection = true → ∀ w ∈ view.records, parms.Contains w.record) ∨
        (∀ w ∈ view.records, ¬ parms.Contains w.record) ∧
          ∀ shard ∈ shards, 0 < (localPreproc shard parms).totalWeight →
            shard.data.length ≤ (localPreproc shard parms).lowerIdx := by
  set thePlan := plan lib rejection view shards parms (shares rejection view shards parms)
  have hpick : ∀ i, Can thePlan.pick i ↔
      (i = 0 ∧ ∃ w ∈ view.records, rejection = true ∨ parms.Contains w.record) ∨
      ∃ k shard, i = k + 1 ∧ shards[k]? = some shard ∧
        0 < (localPreproc shard parms).totalWeight :=
    fun i => (can_pick_iff lib htotal i).trans weight_pos_iff
  have hrejects : (∀ i, Can thePlan.pick i → ¬ thePlan.Rejects i) ↔
      (rejection = true → ∀ w ∈ view.records, parms.Contains w.record) := by
    constructor
    · intro hno hrej w hw
      by_contra hout
      exact hno 0 ((hpick 0).mpr (.inl ⟨rfl, w, hw, .inl hrej⟩))
        (rejects_zero.mpr ⟨hrej, w, hw, hout⟩)
    · intro hall i hi hrej
      rcases (hpick i).mp hi with ⟨rfl, -⟩ | ⟨k, shard, rfl, hs, hw⟩
      · obtain ⟨htrue, w, hw, hout⟩ := rejects_zero.mp hrej
        exact hout (hall htrue w hw)
      · exact not_rejects_succ hs hw hrej
  have haccepts : (∀ i, Can thePlan.pick i → ¬ thePlan.Accepts i) ↔
      (∀ w ∈ view.records, ¬ parms.Contains w.record) ∧
        ∀ shard ∈ shards, 0 < (localPreproc shard parms).totalWeight →
          shard.data.length ≤ (localPreproc shard parms).lowerIdx := by
    constructor
    · refine fun hno => ⟨fun w hw hin => ?_, fun shard hs hw => ?_⟩
      · exact hno 0 ((hpick 0).mpr (.inl ⟨rfl, w, hw, .inr hin⟩)) (accepts_zero.mpr ⟨w, hw, hin⟩)
      · obtain ⟨k, hk⟩ := List.mem_iff_getElem?.mp hs
        by_contra hlt
        exact hno (k + 1) ((hpick (k + 1)).mpr (.inr ⟨k, shard, rfl, hk, hw⟩))
          ((accepts_succ hk hw).mpr (not_le.mp hlt))
    · rintro ⟨hbuffer, hshards⟩ i hi hacc
      rcases (hpick i).mp hi with ⟨rfl, -⟩ | ⟨k, shard, rfl, hs, hw⟩
      · obtain ⟨w, hw, hin⟩ := accepts_zero.mp hacc
        exact hbuffer w hw hin
      · have hlt := (accepts_succ hs hw).mp hacc
        exact absurd hlt (not_lt.mpr (hshards shard (List.mem_of_getElem? hs) hw))
  rw [Plan.Exact, hrejects, haccepts]
  have hkeep : thePlan.keep = false := rfl
  constructor
  · rintro (h | h | h | ⟨h, -⟩)
    · exact .inl (by omega)
    · exact .inr (.inl h)
    · exact .inr (.inr h)
    · exact .inl h.le
  · rintro (h | h | h)
    · rcases Nat.le_one_iff_eq_zero_or_eq_one.mp h with h | h
      · exact .inl h
      · exact .inr (.inr (.inr ⟨h, .inl hkeep⟩))
    · exact .inr (.inl h)
    · exact .inr (.inr (.inl h))

theorem only_query_iff :
    (∀ fuel, Only (query lib rejection view shards parms fuel) fun out =>
      out.length = parms.sampleSize) ↔ Exact rejection view shards parms := by
  have hweights := normalizedWeights_eq rejection view shards parms
  by_cases htotal : totalWeight rejection view shards parms = 0
  · rw [if_pos htotal] at hweights
    exact iff_of_true (query_of_none lib rejection view shards parms hweights) (.inl htotal)
  · rw [if_neg htotal] at hweights
    have hwf : (plan lib rejection view shards parms
        (shares rejection view shards parms)).Wf := wf_plan lib
    have hrun := Plan.run_only_iff hwf parms.sampleSize
    rw [exact_plan htotal] at hrun
    rw [Exact, or_iff_right htotal, ← hrun]
    refine forall_congr' fun fuel => ?_
    rw [query_of_some lib rejection view shards parms hweights, only_map]
    simp only [List.length_map]

end Spec

end Irs

end De
