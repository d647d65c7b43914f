import DynamicExtension.RangeSampling
set_option autoImplicit false

namespace De
open Rejection Rounding

/-- A type for `R::weight`, with sums of its own. -/
class Weight (W : Type) extends Zero W, Add W, LinearOrder W where
  toDouble : W → ℚ
  toDouble_nonneg : ∀ w : W, 0 ≤ w → 0 ≤ toDouble w

/-- The sums of an unsigned integer wrap around. -/
instance (n : Nat) : Weight (Fin (2 ^ n)) where
  toDouble w := toDouble w
  toDouble_nonneg _ _ := Nat.cast_nonneg _

/-- `WeightedRecord<K, V, W>` -/
structure WeightedRecord (K V W : Type) where
  key : K
  value : V
  weight : W

/-- The shard `Alias`. The other members are set by its constructors, from the record array. -/
structure Alias (K V W : Type) where
  data : List (Wrapped (WeightedRecord K V W))

namespace Alias
variable {K V W : Type} [Weight W]

def getTotalWeight (shard : Alias K V W) : W :=
  shard.data.foldl (fun total w => total + w.record.weight) 0

/-- What `build_alias_structure` makes `m_alias` of -/
def normWeights (shard : Alias K V W) : List (Option ℚ) := shard.data.map fun w =>
  quotient (Weight.toDouble w.record.weight) (Weight.toDouble shard.getTotalWeight)

/-- Without records `m_alias` is a null pointer. -/
def getWeightedSample (lib : AliasLib) (shard : Alias K V W) : Draw Rng Nat :=
  if shard.data = [] then failure else lib.get shard.normWeights

end Alias

namespace Wss

structure Parameters where
  sampleSize : Nat

structure LocalQuery (W : Type) where
  sampleSize : Nat
  totalWeight : W
  globalParms : Parameters

structure LocalQueryBuffer (K V W : Type) where
  buffer : BufferView (WeightedRecord K V W)
  sampleSize : Nat
  totalWeight : W
  maxWeight : W
  cutoff : Nat
  shardAlias : Option (List (Option ℚ))
  globalParms : Parameters

section Defs
variable {K V W : Type} [Weight W]

def localPreproc (shard : Alias K V W) (parms : Parameters) : LocalQuery W where
  sampleSize := 0
  totalWeight := shard.getTotalWeight
  globalParms := parms

/-- `get_record_count() - 1` of a `size_t`, which wraps around for an empty view -/
def bufferCutoff (buffer : BufferView (WeightedRecord K V W)) : Nat :=
  if buffer.getRecordCount = 0 then 2 ^ 64 - 1 else buffer.getRecordCount - 1

def bufferWeight (buffer : BufferView (WeightedRecord K V W)) : W :=
  buffer.records.foldl (fun total w => total + w.record.weight) 0

def bufferMax (buffer : BufferView (WeightedRecord K V W)) : W :=
  buffer.records.foldl (fun most w => if w.record.weight > most then w.record.weight else most) 0

def localPreprocBuffer (buffer : BufferView (WeightedRecord K V W)) (parms : Parameters) :
    LocalQueryBuffer K V W where
  buffer := buffer
  sampleSize := 0
  totalWeight := bufferWeight buffer
  maxWeight := bufferMax buffer
  cutoff := bufferCutoff buffer
  shardAlias := none
  globalParms := parms

/-- The loop of `distribute_query`: each source drawn gets one sample more. -/
def deal (pick : Draw Rng Nat) : Nat → List (LocalQuery W) × LocalQueryBuffer K V W →
    Draw Rng (List (LocalQuery W) × LocalQueryBuffer K V W)
  | 0, queries => pure queries
  | n + 1, (localQueries, bufferQuery) => do
    let idx ← pick
    deal pick n (if idx = 0 then
      (localQueries, { bufferQuery with sampleSize := bufferQuery.sampleSize + 1 })
    else
      (localQueries.modify (idx - 1) fun q => { q with sampleSize := q.sampleSize + 1 },
        bufferQuery))

def normalizedWeights (localQueries : List (LocalQuery W)) (bufferQuery : LocalQueryBuffer K V W) :
    List (Option ℚ) :=
  let weights := bufferQuery.totalWeight :: localQueries.map LocalQuery.totalWeight
  let totalWeight := localQueries.foldl (fun total q => total + q.totalWeight)
    bufferQuery.totalWeight
  weights.map fun w => quotient (Weight.toDouble w) (Weight.toDouble totalWeight)

/-- Only the first call sets the sample sizes to zero. -/
def distributeQuery (lib : AliasLib) (parms : Parameters) (localQueries : List (LocalQuery W))
    (bufferQuery : LocalQueryBuffer K V W) :
    Draw Rng (List (LocalQuery W) × LocalQueryBuffer K V W) :=
  match bufferQuery.shardAlias with
  | some weights => deal (lib.get weights) parms.sampleSize (localQueries, bufferQuery)
  | none =>
    let weights := normalizedWeights localQueries bufferQuery
    deal (lib.get weights) parms.sampleSize
      (localQueries.map fun q => { q with sampleSize := 0 },
        { bufferQuery with shardAlias := some weights })

def localQuery (lib : AliasLib) (shard : Alias K V W) (query : LocalQuery W) :
    Draw Rng (List (Wrapped (WeightedRecord K V W))) :=
  attempts (do
    let idx ← shard.getWeightedSample lib
    let w ← (shard.data[idx]? : Option (Wrapped (WeightedRecord K V W)))
    return if !w.isDeleted then some w else none) query.sampleSize

def localQueryBuffer (gsl : RngType) (query : LocalQueryBuffer K V W) :
    Draw Rng (List (Wrapped (WeightedRecord K V W))) :=
  attempts (do
    let idx ← drawInt query.cutoff
    let w := query.buffer.get idx
    let u ← drawUniform gsl
    let test := roundRat 53 (u * Weight.toDouble query.maxWeight)
    return if test ≤ Weight.toDouble w.record.weight ∧ !w.isDeleted then some w else none)
    query.sampleSize

def combine (localResults : List (List (Wrapped (WeightedRecord K V W))))
    (output : List (WeightedRecord K V W)) : List (WeightedRecord K V W) :=
  output ++ localResults.flatten.map Wrapped.record

/-- The loop of `async_query`, with `repeat` at its end -/
def queryLoop (lib : AliasLib) (gsl : RngType) (shards : List (Alias K V W)) :
    Nat → Parameters → List (LocalQuery W) → LocalQueryBuffer K V W →
      List (WeightedRecord K V W) → Draw Rng (List (WeightedRecord K V W))
  | 0, _, _, _, _ => failure
  | fuel + 1, parms, localQueries, bufferQuery, output => do
    let buffered ← localQueryBuffer gsl bufferQuery
    let found ← (shards.zip localQueries).mapM fun p => localQuery lib p.1 p.2
    let output := combine (buffered :: found) output
    if output.length < parms.sampleSize then
      let parms := { parms with sampleSize := parms.sampleSize - output.length }
      let (localQueries, bufferQuery) ← distributeQuery lib parms localQueries bufferQuery
      queryLoop lib gsl shards fuel parms localQueries bufferQuery output
    else return output

/-- What `async_query` computes on the buffer and the shards of its epoch -/
def query (lib : AliasLib) (gsl : RngType) (view : BufferView (WeightedRecord K V W))
    (shards : List (Alias K V W)) (parms : Parameters) (fuel : Nat) :
    Draw Rng (List (WeightedRecord K V W)) := do
  let (localQueries, bufferQuery) ← distributeQuery lib parms
    (shards.map fun shard => localPreproc shard parms) (localPreprocBuffer view parms)
  queryLoop lib gsl shards fuel parms localQueries bufferQuery []

end Defs

section Plan
variable {K V W : Type} [Weight W] (lib : AliasLib) (gsl : RngType)
  (view : BufferView (WeightedRecord K V W)) (shards : List (Alias K V W)) (parms : Parameters)

def shardDraw (shard : Alias K V W) : Draw Rng (Option (Wrapped (WeightedRecord K V W))) := do
  let idx ← shard.getWeightedSample lib
  let w ← (shard.data[idx]? : Option (Wrapped (WeightedRecord K V W)))
  return if !w.isDeleted then some w else none

def bufferDraw : Draw Rng (Option (Wrapped (WeightedRecord K V W))) := do
  let idx ← drawInt (bufferCutoff view)
  let w := view.get idx
  let u ← drawUniform gsl
  let test := roundRat 53 (u * Weight.toDouble (bufferMax view))
  return if test ≤ Weight.toDouble w.record.weight ∧ !w.isDeleted then some w else none

/-- The rounds of a query, once the alias is built -/
def plan (weights : List (Option ℚ)) : Plan Rng (Wrapped (WeightedRecord K V W)) where
  draws := bufferDraw gsl view :: shards.map (shardDraw lib)
  pick := lib.get weights
  keep := true

def sized (sizes : Nat → Nat) : List (LocalQuery W) :=
  shards.mapIdx fun i shard => { localPreproc shard parms with sampleSize := sizes (i + 1) }

def sizedBuffer (weights : List (Option ℚ)) (sizes : Nat → Nat) : LocalQueryBuffer K V W :=
  { localPreprocBuffer view parms with shardAlias := some weights, sampleSize := sizes 0 }

theorem localQuery_eq (shard : Alias K V W) (n : Nat) :
    localQuery lib shard { localPreproc shard parms with sampleSize := n } =
      attempts (shardDraw lib shard) n := rfl

theorem localQueryBuffer_eq (weights : List (Option ℚ)) (sizes : Nat → Nat) :
    localQueryBuffer gsl (sizedBuffer view parms weights sizes) =
      attempts (bufferDraw gsl view) (sizes 0) := rfl

theorem round_eq {β : Type} (weights : List (Option ℚ)) (sizes : Nat → Nat)
    (next : List (Wrapped (WeightedRecord K V W)) → Draw Rng β) :
    (do
      let buffered ← localQueryBuffer gsl (sizedBuffer view parms weights sizes)
      let found ← (shards.zip (sized shards parms sizes)).mapM fun p => localQuery lib p.1 p.2
      next (buffered :: found).flatten) =
    sampleAll (bufferDraw gsl view :: shards.map (shardDraw lib)) sizes >>= next := by
  have hshards := flatten_mapM (localQuery_eq lib parms) shards fun i => sizes (i + 1)
  rw [localQueryBuffer_eq, sampleAll, ← hshards]
  simp [sized]

theorem modify_sized (sizes : Nat → Nat) (k : Nat) :
    (sized shards parms sizes).modify k (fun q => { q with sampleSize := q.sampleSize + 1 }) =
      sized shards parms (Function.update sizes (k + 1) (sizes (k + 1) + 1)) := by
  refine List.ext_getElem (by simp [sized]) fun i h₁ h₂ => ?_
  simp only [sized, List.getElem_modify, List.getElem_mapIdx]
  by_cases hik : k = i
  · subst hik
    rw [if_pos rfl, Function.update_self]
  · rw [if_neg hik, Function.update_of_ne (by omega)]

theorem deal_eq (pick : Draw Rng Nat) (weights : List (Option ℚ)) (n : Nat) (sizes : Nat → Nat) :
    deal pick n (sized shards parms sizes, sizedBuffer view parms weights sizes) =
      (fun sizes' => (sized shards parms sizes', sizedBuffer view parms weights sizes')) <$>
        scatter pick n sizes := by
  induction n generalizing sizes with
  | zero => rfl
  | succ n ih =>
    rw [deal, scatter, map_bind]
    refine bind_congr fun idx => ?_
    rw [← ih]
    congr 1
    cases idx with
    | zero =>
      rw [if_pos rfl]
      refine Prod.ext ?_ ?_
      · simp only [sized, Function.update_of_ne (Nat.succ_ne_zero _)]
      · simp only [sizedBuffer, Function.update_self]
    | succ k =>
      rw [if_neg (Nat.succ_ne_zero k), Nat.add_sub_cancel, modify_sized]
      refine Prod.ext rfl ?_
      simp only [sizedBuffer, Function.update_of_ne (Nat.succ_ne_zero k).symm]

theorem queryLoop_eq (weights : List (Option ℚ)) (fuel asked : Nat) (sizes : Nat → Nat)
    (output : List (Wrapped (WeightedRecord K V W))) :
    queryLoop lib gsl shards fuel ⟨asked⟩ (sized shards parms sizes)
        (sizedBuffer view parms weights sizes) (output.map Wrapped.record) =
      List.map Wrapped.record <$>
        (plan lib gsl view shards weights).rounds fuel asked sizes output := by
  induction fuel generalizing asked sizes output with
  | zero => rfl
  | succ fuel ih =>
    rw [queryLoop, Plan.rounds, map_bind]
    simp only [combine, ← List.map_append, List.length_map]
    refine (round_eq lib gsl view shards parms weights sizes fun found =>
      if (output ++ found).length < asked then do
        let p ← distributeQuery lib ⟨asked - (output ++ found).length⟩ (sized shards parms sizes)
          (sizedBuffer view parms weights sizes)
        queryLoop lib gsl shards fuel ⟨asked - (output ++ found).length⟩ p.1 p.2
          ((output ++ found).map Wrapped.record)
      else pure ((output ++ found).map Wrapped.record)).trans ?_
    refine bind_congr fun found => ?_
    split
    · have hdeal : distributeQuery lib ⟨asked - (output ++ found).length⟩
          (sized shards parms sizes) (sizedBuffer view parms weights sizes) =
          (fun sizes' => (sized shards parms sizes', sizedBuffer view parms weights sizes')) <$>
            scatter (lib.get weights) (asked - (output ++ found).length) sizes :=
        deal_eq view shards parms (lib.get weights) weights _ sizes
      rw [hdeal, bind_map_left, map_bind]
      exact bind_congr fun sizes' => ih _ sizes' _
    · rfl

end Plan

section Draws
variable {K V W : Type} [Weight W] {lib : AliasLib} {gsl : RngType}
  {view : BufferView (WeightedRecord K V W)} {shard : Alias K V W}

/-- The random test of a round, for a number that was drawn -/
def test (view : BufferView (WeightedRecord K V W)) (u : ℚ) : ℚ :=
  roundRat 53 (u * Weight.toDouble (bufferMax view))

/-- A drawn record may be kept. -/
def Keeps (gsl : RngType) (view : BufferView (WeightedRecord K V W))
    (w : Wrapped (WeightedRecord K V W)) : Prop :=
  w.isDeleted = false ∧ ∃ u, gsl.Uniform u ∧ test view u ≤ Weight.toDouble w.record.weight

/-- A drawn record may be dropped. -/
def Drops (gsl : RngType) (view : BufferView (WeightedRecord K V W))
    (w : Wrapped (WeightedRecord K V W)) : Prop :=
  w.isDeleted = true ∨ ∃ u, gsl.Uniform u ∧ Weight.toDouble w.record.weight < test view u

theorem fair_bufferDraw : Fair (bufferDraw gsl view) :=
  (fair_drawInt _).bind fun _ _ => fair_drawUniform.bind fun _ _ => fair_pure _

theorem can_bufferDraw {idx : Nat} {u : ℚ} (hidx : idx < bufferCutoff view)
    (hu : gsl.Uniform u) :
    Can (bufferDraw gsl view) (if test view u ≤ Weight.toDouble (view.get idx).record.weight ∧
      !(view.get idx).isDeleted then some (view.get idx) else none) :=
  (can_drawInt hidx).bind ((can_drawUniform hu).bind (can_pure _))

theorem only_bufferDraw : Only (bufferDraw gsl view) fun o =>
    ∃ idx u, idx < bufferCutoff view ∧ gsl.Uniform u ∧
      o = if test view u ≤ Weight.toDouble (view.get idx).record.weight ∧
        !(view.get idx).isDeleted then some (view.get idx) else none :=
  (only_drawInt _).bind fun idx hidx => (only_drawUniform gsl).bind fun u hu =>
    only_pure ⟨idx, u, hidx, hu, rfl⟩

theorem can_bufferDraw_some {w : Wrapped (WeightedRecord K V W)} :
    Can (bufferDraw gsl view) (some w) ↔
      ∃ idx, idx < bufferCutoff view ∧ view.get idx = w ∧ Keeps gsl view w := by
  constructor
  · intro h
    obtain ⟨idx, u, hidx, hu, heq⟩ := only_bufferDraw.of_can h
    split at heq
    · rename_i htest
      obtain rfl := Option.some.inj heq
      exact ⟨idx, hidx, rfl, by simpa using htest.2, u, hu, htest.1⟩
    · cases heq
  · rintro ⟨idx, hidx, rfl, hdel, u, hu, htest⟩
    have hcan := can_bufferDraw hidx hu
    rwa [if_pos ⟨htest, by simp [hdel]⟩] at hcan

theorem can_bufferDraw_none : Can (bufferDraw gsl view) none ↔
    ∃ idx, idx < bufferCutoff view ∧ Drops gsl view (view.get idx) := by
  constructor
  · intro h
    obtain ⟨idx, u, hidx, hu, heq⟩ := only_bufferDraw.of_can h
    split at heq
    · cases heq
    · rename_i htest
      refine ⟨idx, hidx, ?_⟩
      by_cases hdel : (view.get idx).isDeleted
      · exact .inl hdel
      · exact .inr ⟨u, hu, not_le.mp fun hle => htest ⟨hle, by simp [hdel]⟩⟩
  · rintro ⟨idx, hidx, hdel | ⟨u, hu, htest⟩⟩
    · have hcan := can_bufferDraw hidx (⟨0, rfl⟩ : gsl.Uniform _)
      rwa [if_neg (by simp [hdel])] at hcan
    · have hcan := can_bufferDraw hidx hu
      rwa [if_neg fun h => absurd h.1 (not_le.mpr htest)] at hcan

/-- The shard may return a record of this mark, if these indexes may be drawn by weights. -/
def Samples (drawn : List (Option ℚ) → Nat → Prop) (shard : Alias K V W) (deleted : Bool) : Prop :=
  ∃ idx w, drawn shard.normWeights idx ∧ shard.data[idx]? = some w ∧ w.isDeleted = deleted

theorem fair_getWeightedSample : Fair (shard.getWeightedSample lib) := by
  rw [Alias.getWeightedSample]
  split
  · intro rng i rest heq
    cases heq
  · exact lib.get_fair _

theorem can_getWeightedSample {idx : Nat} {w : Wrapped (WeightedRecord K V W)}
    (hw : shard.data[idx]? = some w) :
    Can (shard.getWeightedSample lib) idx ↔ Can (lib.get shard.normWeights) idx := by
  rw [Alias.getWeightedSample, if_neg]
  intro hnil
  simp [hnil] at hw

theorem fair_shardDraw : Fair (shardDraw lib shard) :=
  fair_getWeightedSample.bind fun _ _ => (fair_lift _).bind fun _ _ => fair_pure _

theorem only_shardDraw : Only (shardDraw lib shard) fun o =>
    ∃ idx w, Can (lib.get shard.normWeights) idx ∧ shard.data[idx]? = some w ∧
      o = if !w.isDeleted then some w else none :=
  Only.bind fair_getWeightedSample fun idx hidx => (only_lift _).bind fun w hw =>
    only_pure ⟨idx, w, (can_getWeightedSample hw).mp hidx, hw, rfl⟩

theorem can_shardDraw {idx : Nat} {w : Wrapped (WeightedRecord K V W)}
    (hidx : Can (lib.get shard.normWeights) idx) (hw : shard.data[idx]? = some w) :
    Can (shardDraw lib shard) (if !w.isDeleted then some w else none) := by
  refine ((can_getWeightedSample hw).mpr hidx).bind ?_
  rw [hw]
  exact (can_lift w).bind (can_pure _)

theorem can_shardDraw_some : (∃ w, Can (shardDraw lib shard) (some w)) ↔
    Samples (fun weights i => Can (lib.get weights) i) shard false := by
  constructor
  · rintro ⟨w, h⟩
    obtain ⟨idx, v, hidx, hv, heq⟩ := only_shardDraw.of_can h
    cases hdel : v.isDeleted with
    | true => simp [hdel] at heq
    | false => exact ⟨idx, v, hidx, hv, hdel⟩
  · rintro ⟨idx, w, hidx, hw, hdel⟩
    have hcan := can_shardDraw hidx hw
    rw [hdel] at hcan
    exact ⟨w, hcan⟩

theorem can_shardDraw_none : Can (shardDraw lib shard) none ↔
    Samples (fun weights i => Can (lib.get weights) i) shard true := by
  constructor
  · intro h
    obtain ⟨idx, v, hidx, hv, heq⟩ := only_shardDraw.of_can h
    cases hdel : v.isDeleted with
    | true => exact ⟨idx, v, hidx, hv, hdel⟩
    | false => simp [hdel] at heq
  · rintro ⟨idx, w, hidx, hw, hdel⟩
    have hcan := can_shardDraw hidx hw
    rwa [hdel] at hcan

end Draws

section Spec
variable {K V W : Type} [Weight W] {lib : AliasLib} {gsl : RngType}
  {view : BufferView (WeightedRecord K V W)} {shards : List (Alias K V W)} {parms : Parameters}

def sourceWeights (view : BufferView (WeightedRecord K V W)) (shards : List (Alias K V W)) :
    List W := bufferWeight view :: shards.map Alias.getTotalWeight

/-- What the sources are drawn by -/
def shares (view : BufferView (WeightedRecord K V W)) (shards : List (Alias K V W)) :
    List (Option ℚ) :=
  let totalWeight := shards.foldl (fun total s => total + s.getTotalWeight) (bufferWeight view)
  (sourceWeights view shards).map fun w =>
    quotient (Weight.toDouble w) (Weight.toDouble totalWeight)

section Drawn
variable (drawn : List (Option ℚ) → Nat → Prop)

/-- The buffer or some shard may be drawn, and is as described. -/
def Drawn (view : BufferView (WeightedRecord K V W)) (shards : List (Alias K V W))
    (buffer : Prop) (shard : Alias K V W → Prop) : Prop :=
  (drawn (shares view shards) 0 ∧ buffer) ∨
    ∃ k s, shards[k]? = some s ∧ drawn (shares view shards) (k + 1) ∧ shard s

/-- The loop cannot end with another number of samples: nothing is asked for, no sample is
rejected, none is accepted, or one is asked for and no source does both. -/
def ExactFor (gsl : RngType) (view : BufferView (WeightedRecord K V W))
    (shards : List (Alias K V W)) (parms : Parameters) : Prop :=
  let accepts := ∃ idx, idx < bufferCutoff view ∧ Keeps gsl view (view.get idx)
  let rejects := ∃ idx, idx < bufferCutoff view ∧ Drops gsl view (view.get idx)
  parms.sampleSize = 0 ∨
    ¬ Drawn drawn view shards rejects (fun s => Samples drawn s true) ∨
    ¬ Drawn drawn view shards accepts (fun s => Samples drawn s false) ∨
    parms.sampleSize = 1 ∧ ¬ Drawn drawn view shards (rejects ∧ accepts)
      fun s => Samples drawn s true ∧ Samples drawn s false

end Drawn

/-- No draw that the weights admit makes the loop end with another number of samples. -/
def Exact (gsl : RngType) (view : BufferView (WeightedRecord K V W))
    (shards : List (Alias K V W)) (parms : Parameters) : Prop :=
  ExactFor Drawable gsl view shards parms

/-- Everything that is drawn by is a number. -/
def Numbers (view : BufferView (WeightedRecord K V W)) (shards : List (Alias K V W)) : Prop :=
  none ∉ shares view shards ∧ ∀ shard ∈ shards, none ∉ shard.normWeights

def queryPlan (lib : AliasLib) (gsl : RngType) (view : BufferView (WeightedRecord K V W))
    (shards : List (Alias K V W)) : Plan Rng (Wrapped (WeightedRecord K V W)) :=
  plan lib gsl view shards (shares view shards)

theorem query_eq (fuel : Nat) :
    query lib gsl view shards parms fuel =
      List.map Wrapped.record <$> (queryPlan lib gsl view shards).run fuel parms.sampleSize := by
  have hzero : ((shards.map fun shard => localPreproc shard parms).map
      fun q => { q with sampleSize := 0 }) = sized shards parms fun _ => 0 :=
    List.ext_getElem (by simp [sized]) fun i h₁ h₂ => by simp [sized, localPreproc]
  have hweights : normalizedWeights (shards.map fun shard => localPreproc shard parms)
      (localPreprocBuffer view parms) = shares view shards := by
    have hsources : (localPreprocBuffer view parms).totalWeight ::
        (shards.map fun shard => localPreproc shard parms).map LocalQuery.totalWeight =
          sourceWeights view shards := by
      rw [sourceWeights, List.map_map]
      rfl
    simp only [normalizedWeights, hsources, List.foldl_map]
    rfl
  have hstart : distributeQuery lib parms (shards.map fun shard => localPreproc shard parms)
      (localPreprocBuffer view parms) =
      (fun sizes => (sized shards parms sizes,
        sizedBuffer view parms (shares view shards) sizes)) <$>
          scatter (queryPlan lib gsl view shards).pick parms.sampleSize fun _ => 0 := by
    have halias : (localPreprocBuffer view parms).shardAlias = none := rfl
    rw [distributeQuery, halias]
    simp only [hweights, hzero]
    exact deal_eq view shards parms _ _ _ fun _ => 0
  rw [query, hstart, bind_map_left, Plan.run, map_bind]
  exact bind_congr fun sizes =>
    queryLoop_eq lib gsl view shards parms _ fuel parms.sampleSize sizes []

theorem wf_queryPlan : (queryPlan lib gsl view shards).Wf where
  pick_lt := (lib.get_fair _).mono fun i hi => by
    refine ⟨?_, hi⟩
    have hlt := lib.get_lt _ i hi
    simpa [queryPlan, plan, shares, sourceWeights] using hlt
  draws_fair draw hdraw := by
    rcases List.mem_cons.mp hdraw with rfl | hdraw
    · exact fair_bufferDraw
    · obtain ⟨shard, -, rfl⟩ := List.mem_map.mp hdraw
      exact fair_shardDraw

theorem exists_pick_iff {p : Nat → Prop} {buffer : Prop} {shard : Alias K V W → Prop}
    (hbuffer : p 0 ↔ buffer) (hshard : ∀ k s, shards[k]? = some s → (p (k + 1) ↔ shard s)) :
    (∃ i, Can (queryPlan lib gsl view shards).pick i ∧ p i) ↔
      Drawn (fun weights i => Can (lib.get weights) i) view shards buffer shard := by
  constructor
  · rintro ⟨i, hi, hp⟩
    cases i with
    | zero => exact .inl ⟨hi, hbuffer.mp hp⟩
    | succ k =>
      have hlt : k < shards.length := by
        have := lib.get_lt _ _ hi
        simpa [shares, sourceWeights] using this
      have hk := List.getElem?_eq_getElem hlt
      exact .inr ⟨k, _, hk, hi, (hshard k _ hk).mp hp⟩
  · rintro (⟨hi, hb⟩ | ⟨k, s, hk, hi, hsh⟩)
    · exact ⟨0, hi, hbuffer.mpr hb⟩
    · exact ⟨k + 1, hi, (hshard k s hk).mpr hsh⟩

theorem exact_queryPlan : (queryPlan lib gsl view shards).Exact parms.sampleSize ↔
    ExactFor (fun weights i => Can (lib.get weights) i) gsl view shards parms := by
  have hdraw : ∀ {k s}, shards[k]? = some s →
      (queryPlan lib gsl view shards).draws[k + 1]? = some (shardDraw lib s) := by
    intro k s hs
    simp [queryPlan, plan, hs]
  have hacc₀ : (queryPlan lib gsl view shards).Accepts 0 ↔
      ∃ idx, idx < bufferCutoff view ∧ Keeps gsl view (view.get idx) := by
    constructor
    · rintro ⟨draw, hd, w, hcan⟩
      obtain ⟨idx, hidx, rfl, hkeep⟩ := can_bufferDraw_some.mp (Option.some.inj hd ▸ hcan)
      exact ⟨idx, hidx, hkeep⟩
    · rintro ⟨idx, hidx, hkeep⟩
      exact ⟨_, rfl, _, can_bufferDraw_some.mpr ⟨idx, hidx, rfl, hkeep⟩⟩
  have hrej₀ : (queryPlan lib gsl view shards).Rejects 0 ↔
      ∃ idx, idx < bufferCutoff view ∧ Drops gsl view (view.get idx) := by
    constructor
    · rintro ⟨draw, hd, hcan⟩
      exact can_bufferDraw_none.mp (Option.some.inj hd ▸ hcan)
    · exact fun h => ⟨_, rfl, can_bufferDraw_none.mpr h⟩
  have hacc : ∀ k s, shards[k]? = some s → ((queryPlan lib gsl view shards).Accepts (k + 1) ↔
      Samples (fun weights i => Can (lib.get weights) i) s false) := by
    intro k s hs
    constructor
    · rintro ⟨draw, hd, hcan⟩
      rw [hdraw hs] at hd
      exact can_shardDraw_some.mp (Option.some.inj hd ▸ hcan)
    · exact fun h => ⟨_, hdraw hs, can_shardDraw_some.mpr h⟩
  have hrej : ∀ k s, shards[k]? = some s → ((queryPlan lib gsl view shards).Rejects (k + 1) ↔
      Samples (fun weights i => Can (lib.get weights) i) s true) := by
    intro k s hs
    constructor
    · rintro ⟨draw, hd, hcan⟩
      rw [hdraw hs] at hd
      exact can_shardDraw_none.mp (Option.some.inj hd ▸ hcan)
    · exact fun h => ⟨_, hdraw hs, can_shardDraw_none.mpr h⟩
  have hkeep : (queryPlan lib gsl view shards).keep = true := rfl
  have hboth : (∃ i, Can (queryPlan lib gsl view shards).pick i ∧
      (queryPlan lib gsl view shards).Rejects i ∧ (queryPlan lib gsl view shards).Accepts i) ↔
      Drawn (fun weights i => Can (lib.get weights) i) view shards
        ((∃ idx, idx < bufferCutoff view ∧ Drops gsl view (view.get idx)) ∧
          ∃ idx, idx < bufferCutoff view ∧ Keeps gsl view (view.get idx))
        fun s => Samples (fun weights i => Can (lib.get weights) i) s true ∧
          Samples (fun weights i => Can (lib.get weights) i) s false :=
    exists_pick_iff
      (p := fun i => (queryPlan lib gsl view shards).Rejects i ∧
        (queryPlan lib gsl view shards).Accepts i)
      (and_congr hrej₀ hacc₀) fun k s hs => and_congr (hrej k s hs) (hacc k s hs)
  have hsome : (∃ i, Can (queryPlan lib gsl view shards).pick i ∧
      (queryPlan lib gsl view shards).Rejects i) ↔ _ := exists_pick_iff hrej₀ hrej
  have hkept : (∃ i, Can (queryPlan lib gsl view shards).pick i ∧
      (queryPlan lib gsl view shards).Accepts i) ↔ _ := exists_pick_iff hacc₀ hacc
  rw [ExactFor, Plan.Exact, hkeep, ← hsome, ← hkept, ← hboth]
  simp only [not_exists, not_and, reduceCtorEq, false_or]

theorem only_query_iff_exactFor :
    (∀ fuel, Only (query lib gsl view shards parms fuel) fun out =>
      out.length = parms.sampleSize) ↔
      ExactFor (fun weights i => Can (lib.get weights) i) gsl view shards parms := by
  have hexact : (queryPlan lib gsl view shards).Exact parms.sampleSize ↔
    ExactFor (fun weights i => Can (lib.get weights) i) gsl view shards parms := exact_queryPlan
  rw [← hexact, ← Plan.run_only_iff wf_queryPlan]
  refine forall_congr' fun fuel => ?_
  rw [query_eq, only_map]
  simp only [List.length_map]

section Drawn
variable {drawn drawn' : List (Option ℚ) → Nat → Prop}

theorem Drawn.imp {buffer : Prop} {shard shard' : Alias K V W → Prop}
    (h : Drawn drawn view shards buffer shard)
    (hdrawn : ∀ i, drawn (shares view shards) i → drawn' (shares view shards) i)
    (hshard : ∀ s ∈ shards, shard s → shard' s) : Drawn drawn' view shards buffer shard' := by
  rcases h with ⟨h₀, hb⟩ | ⟨k, s, hk, hi, hs⟩
  · exact .inl ⟨hdrawn 0 h₀, hb⟩
  · exact .inr ⟨k, s, hk, hdrawn _ hi, hshard s (List.mem_of_getElem? hk) hs⟩

theorem ExactFor.anti (h : ExactFor drawn' gsl view shards parms)
    (hshares : ∀ i, drawn (shares view shards) i → drawn' (shares view shards) i)
    (hshards : ∀ s ∈ shards, ∀ i, drawn s.normWeights i → drawn' s.normWeights i) :
    ExactFor drawn gsl view shards parms := by
  have hsamples : ∀ b, ∀ s ∈ shards, Samples drawn s b → Samples drawn' s b :=
    fun b s hs ⟨idx, w, hidx, hw⟩ => ⟨idx, w, hshards s hs idx hidx, hw⟩
  refine h.imp_right fun h => ?_
  rcases h with h | h | ⟨hone, h⟩
  · exact .inl fun hd => h (hd.imp hshares (hsamples true))
  · exact .inr (.inl fun hd => h (hd.imp hshares (hsamples false)))
  · exact .inr (.inr ⟨hone, fun hd => h (hd.imp hshares fun s hs hboth =>
      ⟨hsamples true s hs hboth.1, hsamples false s hs hboth.2⟩)⟩)

end Drawn

theorem only_query_iff : (∀ lib fuel, Only (query lib gsl view shards parms fuel) fun out =>
    out.length = parms.sampleSize) ↔ Exact gsl view shards parms := by
  constructor
  · intro h
    exact (only_query_iff_exactFor.mp (h AliasLib.even)).anti
      (fun _ => AliasLib.can_drawOne_iff.mpr) fun _ _ _ => AliasLib.can_drawOne_iff.mpr
  · intro h lib
    exact only_query_iff_exactFor.mpr
      (h.anti (fun _ => lib.drawable_of_can) fun _ _ _ => lib.drawable_of_can)

theorem only_query_iff_of_numbers (h : Numbers view shards) :
    (∀ fuel, Only (query lib gsl view shards parms fuel) fun out =>
      out.length = parms.sampleSize) ↔ Exact gsl view shards parms := by
  rw [only_query_iff_exactFor]
  constructor
  · intro hexact
    exact hexact.anti (fun i => (lib.can_get_iff_drawable h.1 i).mpr)
      fun s hs i => (lib.can_get_iff_drawable (h.2 s hs) i).mpr
  · intro hexact
    exact hexact.anti (fun _ => lib.drawable_of_can) fun _ _ _ => lib.drawable_of_can

end Spec

section Coverage
variable {K V W : Type} [Weight W] {gsl : RngType} {view : BufferView (WeightedRecord K V W)}

/-- Some call of `local_query_buffer` on the view returns the record. -/
def CanReturn (gsl : RngType) (view : BufferView (WeightedRecord K V W))
    (w : Wrapped (WeightedRecord K V W)) : Prop :=
  ∃ parms n rng out rest, (localQueryBuffer gsl
    { localPreprocBuffer view parms with sampleSize := n }).run rng = some (out, rest) ∧ w ∈ out

/-- Exactly the undeleted records can be returned, each call draws from a range that is not
empty and lies in the view, and the cutoff of an empty view is zero. -/
def Covers (gsl : RngType) (view : BufferView (WeightedRecord K V W)) : Prop :=
  (∀ w, CanReturn gsl view w ↔ w ∈ view.records ∧ w.isDeleted = false) ∧
  (∀ parms, view.getRecordCount ≠ 0 → 1 ≤ (localPreprocBuffer view parms).cutoff ∧
    ∀ i, i < (localPreprocBuffer view parms).cutoff → i < view.getRecordCount) ∧
  (∀ parms, view.getRecordCount = 0 → (localPreprocBuffer view parms).cutoff = 0)

theorem canReturn_iff {w : Wrapped (WeightedRecord K V W)} :
    CanReturn gsl view w ↔
      ∃ idx, idx < bufferCutoff view ∧ view.get idx = w ∧ Keeps gsl view w := by
  rw [← can_bufferDraw_some]
  constructor
  · rintro ⟨parms, n, rng, out, rest, hrun, hw⟩
    exact mem_attempts fair_bufferDraw n rng out rest hrun w hw
  · intro h
    have hyield : Can (attempts (bufferDraw gsl view) 1) [w] :=
      h.bind ((can_pure []).bind (can_pure _))
    obtain ⟨rng, hrun⟩ := hyield ⟨fun _ => 0⟩
    exact ⟨⟨1⟩, 1, rng, [w], _, hrun, List.mem_singleton_self w⟩

theorem Covers.last (h : Covers gsl view) : 2 ≤ view.getRecordCount ∧
    ((view.get (view.getRecordCount - 1)).isDeleted = true ∨ ∃ i, i + 1 < view.getRecordCount ∧
      view.get i = view.get (view.getRecordCount - 1)) := by
  obtain ⟨hset, hrange, hempty⟩ := h
  have hne : view.getRecordCount ≠ 0 := by
    intro hzero
    have hcutoff : bufferCutoff view = 0 := hempty ⟨0⟩ hzero
    rw [bufferCutoff, if_pos hzero] at hcutoff
    exact absurd hcutoff (by decide)
  have hcutoff : bufferCutoff view = view.getRecordCount - 1 := if_neg hne
  have hpos : 1 ≤ bufferCutoff view := (hrange ⟨0⟩ hne).1
  refine ⟨by omega, ?_⟩
  cases hdel : (view.get (view.getRecordCount - 1)).isDeleted with
  | true => exact .inl rfl
  | false =>
    have hmem : view.get (view.getRecordCount - 1) ∈ view.records :=
      List.mem_map_of_mem (List.mem_range.mpr (by omega))
    obtain ⟨idx, hidx, heq, -⟩ := canReturn_iff.mp ((hset _).mpr ⟨hmem, hdel⟩)
    exact .inr ⟨idx, by omega, heq⟩

theorem covers_iff (hpos : ∀ w ∈ view.records, w.isDeleted = false → 0 < w.record.weight) :
    Covers gsl view ↔ 2 ≤ view.getRecordCount ∧
      ((view.get (view.getRecordCount - 1)).isDeleted = true ∨
        ∃ i, i + 1 < view.getRecordCount ∧
          view.get i = view.get (view.getRecordCount - 1)) := by
  refine ⟨Covers.last, fun ⟨hcount, hlast⟩ => ?_⟩
  have hne : view.getRecordCount ≠ 0 := by omega
  have hcutoff : bufferCutoff view = view.getRecordCount - 1 := if_neg hne
  refine ⟨fun w => ?_, fun parms _ => ⟨?_, fun i hi => ?_⟩, fun parms hzero => absurd hzero hne⟩
  · rw [canReturn_iff, hcutoff]
    constructor
    · rintro ⟨idx, hidx, rfl, hdel, -⟩
      exact ⟨List.mem_map_of_mem (List.mem_range.mpr (by omega)), hdel⟩
    · rintro ⟨hw, hdel⟩
      have hkeep : Keeps gsl view w := by
        refine ⟨hdel, 0, gsl.exists_zero, ?_⟩
        rw [test, zero_mul, roundRat_zero]
        exact Weight.toDouble_nonneg _ (hpos w hw hdel).le
      obtain ⟨idx, hidx, rfl⟩ := List.mem_map.mp hw
      rw [List.mem_range] at hidx
      by_cases hbefore : idx < view.getRecordCount - 1
      · exact ⟨idx, hbefore, rfl, hkeep⟩
      · -- the last record is undeleted, so an equal one stands before it
        obtain rfl : idx = view.getRecordCount - 1 := by omega
        rcases hlast with hlast | ⟨i, hi, heq⟩
        · rw [hdel] at hlast
          cases hlast
        · exact ⟨i, by omega, heq, hkeep⟩
  · show 1 ≤ bufferCutoff view
    omega
  · have hi' : i < bufferCutoff view := hi
    omega

end Coverage

section Samples

/-- A view of undeleted records of the weight `1` -/
def plainView (n : Nat) : BufferView (WeightedRecord Nat Nat (Fin (2 ^ 32))) :=
  ⟨fun i => ⟨4#32, i, 0, 1⟩, 0, n, 8, 0⟩

/-- The last of two records is marked deleted. -/
def taggedView : BufferView (WeightedRecord Nat Nat (Fin (2 ^ 32))) :=
  ⟨fun i => ⟨if i = 1 then 6#32 else 4#32, i, 0, 1⟩, 0, 2, 8, 0⟩

theorem covers_iff_sample : Covers .mt19937 taggedView :=
  (covers_iff fun w hw _ => by
    obtain ⟨i, -, rfl⟩ := List.mem_map.mp hw
    exact zero_lt_one).mpr ⟨by decide, .inl (by decide)⟩

/-- The cutoff of an empty view wraps around, that of a single record is zero, and the last
of two records is never returned. -/
theorem not_covers : ¬ Covers .mt19937 (plainView 0) ∧ ¬ Covers .mt19937 (plainView 1) ∧
    ¬ Covers .mt19937 (plainView 2) := by
  refine ⟨fun h => absurd h.last.1 (by decide), fun h => absurd h.last.1 (by decide),
    fun h => ?_⟩
  rcases h.last.2 with hdel | ⟨i, hi, heq⟩
  · exact absurd hdel (by decide)
  · have hcount : (plainView 2).getRecordCount = 2 := rfl
    rw [hcount] at hi
    obtain rfl : i = 0 := by omega
    have hkey : ((plainView 2).get 0).record.key = ((plainView 2).get 1).record.key :=
      congrArg (fun w => w.record.key) heq
    exact absurd hkey (by decide)

end Samples

end Wss

section SampleSizes

/-- For both kinds of queries: whenever the loop can end, on whatever stream, it ends with
as many samples as were asked for, if and only if the state is as described. Where some
weighted shares are no numbers, this is of all alias structures together. -/
theorem sampleSizes_iff {K V W : Type} [LinearOrder K] [Weight W] (gsl : RngType) :
    (∀ (lib : AliasLib) (rejection : Bool) (view : BufferView (Record K V))
      (shards : List (Irs.Shard K V)) (parms : Irs.Parameters K),
      (∀ fuel rng out rest, (Irs.query lib rejection view shards parms fuel).run rng =
        some (out, rest) → out.length = parms.sampleSize) ↔
        Irs.Exact rejection view shards parms) ∧
    ∀ (view : BufferView (WeightedRecord K V W)) (shards : List (Alias K V W))
      (parms : Wss.Parameters),
      ((∀ lib fuel rng out rest, (Wss.query lib gsl view shards parms fuel).run rng =
        some (out, rest) → out.length = parms.sampleSize) ↔ Wss.Exact gsl view shards parms) ∧
      (Wss.Numbers view shards → ∀ lib,
        (∀ fuel rng out rest, (Wss.query lib gsl view shards parms fuel).run rng =
          some (out, rest) → out.length = parms.sampleSize) ↔ Wss.Exact gsl view shards parms) :=
  ⟨fun _ _ _ _ _ => Irs.only_query_iff, fun _ _ _ =>
    ⟨Wss.only_query_iff, fun h _ => Wss.only_query_iff_of_numbers h⟩⟩

/-- The keys `1` and `9` -/
def keyView : BufferView (Record Nat Nat) :=
  ⟨fun i => ⟨4#32, if i = 0 then 1 else 9, 0⟩, 0, 2, 8, 0⟩

/-- Three records, the first of them marked deleted -/
def deletedView : BufferView (WeightedRecord Nat Nat (Fin (2 ^ 32))) :=
  ⟨fun i => ⟨if i = 0 then 6#32 else 4#32, i, 0, 1⟩, 0, 3, 8, 0⟩

/-- Of two keys asked for from `[0, 5]` one is returned, as the `9` is drawn twice. Of one
weighted record asked for two are, as the deleted one is drawn first. -/
theorem wrong_sampleSizes :
    (∃ fuel rng out rest, (Irs.query AliasLib.even true keyView [] ⟨0, 5, 2⟩ fuel).run rng =
      some (out, rest) ∧ out.length = 1) ∧
    ∃ fuel rng out rest, (Wss.query AliasLib.even .mt19937 deletedView [] ⟨1⟩ fuel).run rng =
      some (out, rest) ∧ out.length = 2 := by
  have hirs : (((Irs.query AliasLib.even true keyView [] ⟨0, 5, 2⟩ 2).run
      ⟨fun i => [0, 0, 0, 1, 0, 1].getD i 0⟩).map fun p => p.1.length) = some 1 := by
    decide +kernel
  have hwss : (((Wss.query AliasLib.even .mt19937 deletedView [] ⟨1⟩ 2).run
      ⟨fun i => [0, 0, 0, 0, 1, 0, 1, 0].getD i 0⟩).map fun p => p.1.length) = some 2 := by
    decide +kernel
  obtain ⟨⟨out, rest⟩, hrun, hlen⟩ := Option.map_eq_some_iff.mp hirs
  obtain ⟨⟨out', rest'⟩, hrun', hlen'⟩ := Option.map_eq_some_iff.mp hwss
  exact ⟨⟨2, _, out, rest, hrun, hlen⟩, 2, _, out', rest', hrun', hlen'⟩

end SampleSizes

end De
