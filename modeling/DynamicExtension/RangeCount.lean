import DynamicExtension.RangeAnswers
set_option autoImplicit false

namespace De
open RangeQuery (Parameters LocalQuery localPreproc stored)

namespace RangeCount

/-- `LocalResultType` -/
structure LocalResult where
  recordCount : Nat
  tombstoneCount : Nat

section Tally
variable {R : Type}

/-- The body of the counting loops -/
def LocalResult.tally (res : LocalResult) (w : Wrapped R) : LocalResult :=
  if w.isDeleted then res
  else ⟨res.recordCount + 1, if w.isTombstone then res.tombstoneCount + 1 else res.tombstoneCount⟩

theorem foldl_tally (l : List (Wrapped R)) (res : LocalResult) :
    l.foldl LocalResult.tally res =
      ⟨res.recordCount + l.countP (fun w => !w.isDeleted),
        res.tombstoneCount + l.countP fun w => !w.isDeleted && w.isTombstone⟩ := by
  induction l generalizing res with
  | nil => rfl
  | cons w l ih =>
    rw [List.foldl_cons, ih, LocalResult.tally, List.countP_cons, List.countP_cons]
    cases w.isDeleted <;> cases w.isTombstone <;> simp [Nat.add_assoc, Nat.add_comm]

end Tally

section Defs
variable {K V : Type} [LinearOrder K] [LinearOrder V]

def localQuery (shard : SortedShard K V) (query : LocalQuery K) : List LocalResult :=
  if query.startIdx = shard.data.length then
    []
  else
    let ptr := ((shard.data.take query.stopIdx).drop query.startIdx).dropWhile
      fun w => w.record.key < query.globalParms.lowerBound
    [(ptr.takeWhile fun w => w.record.key ≤ query.globalParms.upperBound).foldl
      LocalResult.tally ⟨0, 0⟩]

def localQueryBuffer (buffer : BufferView (Record K V)) (globalParms : Parameters K) :
    List LocalResult :=
  [(buffer.records.filter fun w => globalParms.lowerBound ≤ w.record.key ∧
    w.record.key ≤ globalParms.upperBound).foldl LocalResult.tally ⟨0, 0⟩]

/-- The first element of an empty local result has no defined value. -/
def combine (localResults : List (List LocalResult)) : Option (List Nat) := do
  let firsts ← localResults.mapM List.head?
  let reccnt := (firsts.map LocalResult.recordCount).sum
  let tscnt := (firsts.map LocalResult.tombstoneCount).sum
  let tscnt := if tscnt > reccnt then reccnt else tscnt
  return [reccnt - tscnt]

/-- What `async_query` computes on the buffer and the shards of its epoch -/
def query (view : BufferView (Record K V)) (shards : List (SortedShard K V))
    (parms : Parameters K) : Option (List Nat) :=
  combine (localQueryBuffer view parms ::
    shards.map fun shard => localQuery shard (localPreproc shard parms))

end Defs

section Spec
variable {K V : Type} [LinearOrder K] [LinearOrder V]

/-- What a source adds to the two counters -/
def resultOf (l : List (Wrapped (Record K V))) : LocalResult :=
  ⟨l.countP fun w => !w.isDeleted, l.countP fun w => !w.isDeleted && w.isTombstone⟩

/-- A shard counts the part of its array that is in the range, unless its lower bound
is past its records. -/
theorem localQuery_eq (shard : SortedShard K V) (parms : Parameters K) :
    localQuery shard (localPreproc shard parms) =
      if shard.getLowerBound parms.lowerBound = shard.data.length then []
      else [resultOf (shard.data.filter fun w => parms.Contains w.record)] := by
  have hrange := RangeQuery.localQuery_eq shard parms
  rw [RangeQuery.localQuery, RangeQuery.localQueryOn] at hrange
  rw [localQuery]
  by_cases hend : shard.getLowerBound parms.lowerBound = shard.data.length
  · rw [if_pos (by exact hend), if_pos hend]
  · rw [if_neg (by exact hend)] at hrange
    rw [if_neg (by exact hend), if_neg hend, ← hrange]
    simp only [foldl_tally, Nat.zero_add]
    rfl

omit [LinearOrder K] [LinearOrder V] in
theorem mapM_head (ls : List (List (Wrapped (Record K V)))) :
    (ls.map fun l => [resultOf l]).mapM List.head? = some (ls.map resultOf) := by
  induction ls with
  | nil => rfl
  | cons l ls ih => simp [List.mapM_cons, ih]

omit [LinearOrder K] [LinearOrder V] in
theorem combine_eq (ls : List (List (Wrapped (Record K V)))) :
    combine (ls.map fun l => [resultOf l]) =
      some [ls.flatten.countP fun w => !w.isDeleted && !w.isTombstone] := by
  have hrecords : ((ls.map resultOf).map LocalResult.recordCount).sum =
      ls.flatten.countP fun w => !w.isDeleted := by
    rw [List.map_map, List.countP_flatten]
    rfl
  have htombs : ((ls.map resultOf).map LocalResult.tombstoneCount).sum =
      ls.flatten.countP fun w => !w.isDeleted && w.isTombstone := by
    rw [List.map_map, List.countP_flatten]
    rfl
  have hsplit : ∀ l : List (Wrapped (Record K V)), l.countP (fun w => !w.isDeleted) =
      (l.countP fun w => !w.isDeleted && w.isTombstone) +
        l.countP fun w => !w.isDeleted && !w.isTombstone := by
    intro l
    induction l with
    | nil => rfl
    | cons w l ih =>
      simp only [List.countP_cons, ih]
      cases w.isDeleted <;> cases w.isTombstone <;> simp <;> omega
  have hle := hsplit ls.flatten
  simp only [combine, mapM_head, Option.bind_eq_bind, Option.bind_some, hrecords, htombs,
    Option.pure_def]
  rw [if_neg (by omega), hle, Nat.add_sub_cancel_left]

/-- `combine` fails on an empty local result. -/
theorem combine_eq_none {ls : List (List LocalResult)} (h : [] ∈ ls) : combine ls = none := by
  have hnone : ls.mapM List.head? = none := by
    induction ls with
    | nil => cases h
    | cons l ls ih =>
      rw [List.mapM_cons]
      rcases List.mem_cons.mp h with rfl | h
      · rfl
      · cases l.head? <;> simp [ih h]
  rw [combine, hnone]
  rfl

theorem query_eq (view : BufferView (Record K V)) (shards : List (SortedShard K V))
    (parms : Parameters K) :
    query view shards parms =
      if ∀ shard ∈ shards, shard.getLowerBound parms.lowerBound ≠ shard.data.length then
        some [((stored view shards).filter fun w => parms.Contains w.record).countP
          fun w => !w.isDeleted && !w.isTombstone]
      else none := by
  split
  · rename_i hall
    have hshards : (shards.map fun shard => localQuery shard (localPreproc shard parms)) =
        (shards.map fun shard => shard.data.filter fun w => parms.Contains w.record).map
          fun l => [resultOf l] := by
      rw [List.map_map]
      refine List.map_congr_left fun shard hs => ?_
      rw [localQuery_eq, if_neg (hall shard hs)]
      rfl
    have hbuffer : localQueryBuffer view parms =
        [resultOf (view.records.filter fun w => parms.Contains w.record)] := by
      simp only [localQueryBuffer, foldl_tally, Nat.zero_add]
      rfl
    have hflat : ((view.records.filter fun w => parms.Contains w.record) ::
        shards.map fun shard => shard.data.filter fun w => parms.Contains w.record).flatten =
        (stored view shards).filter fun w => parms.Contains w.record := by
      rw [stored, List.filter_append, List.flatten_cons, List.filter_flatten, List.map_map]
      rfl
    rw [query, hshards, hbuffer, ← List.map_cons (f := fun l => [resultOf l]), combine_eq, hflat]
  · rename_i hsome
    obtain ⟨shard, hs, hend⟩ : ∃ shard ∈ shards,
        shard.getLowerBound parms.lowerBound = shard.data.length := by
      simpa only [ne_eq, not_forall, not_not, exists_prop] using hsome
    refine combine_eq_none (List.mem_cons_of_mem _ (List.mem_map.mpr ⟨shard, hs, ?_⟩))
    rw [localQuery_eq, if_pos hend]

theorem sum_visible (l : List (Wrapped (Record K V))) (s : Finset (Record K V)) :
    ∑ r ∈ s, visible l r = (l.map fun w => if w.record ∈ s then liveWeight w else 0).sum := by
  induction l with
  | nil => simp
  | cons w l ih => simp [visible_cons, Finset.sum_add_distrib, ih]

omit [LinearOrder K] [LinearOrder V] in
theorem sum_liveWeight (l : List (Wrapped (Record K V))) :
    (l.map liveWeight).sum = (l.countP fun w => !w.isDeleted && !w.isTombstone : ℤ) -
      l.countP (·.isTombstone) := by
  induction l with
  | nil => rfl
  | cons w l ih =>
    simp only [List.map_cons, List.sum_cons, ih, List.countP_cons, liveWeight]
    cases w.isDeleted <;> cases w.isTombstone <;> simp <;> omega

/-- The query outputs one number, the live copies in the range that are not marked
deleted less the tombstones, summed over the records. -/
def Counts (view : BufferView (Record K V)) (shards : List (SortedShard K V))
    (parms : Parameters K) : Prop :=
  ∃ n, query view shards parms = some [n] ∧
    (n : ℤ) = ∑ r ∈ ((stored view shards).map Wrapped.record).toFinset with parms.Contains r,
      visible (stored view shards) r

theorem sum_range (view : BufferView (Record K V)) (shards : List (SortedShard K V))
    (parms : Parameters K) :
    ∑ r ∈ ((stored view shards).map Wrapped.record).toFinset with parms.Contains r,
        visible (stored view shards) r =
      (((stored view shards).filter fun w => parms.Contains w.record).map liveWeight).sum := by
  rw [sum_visible]
  generalize stored view shards = l
  have hmem : ∀ w ∈ l, (if w.record ∈ ((l.map Wrapped.record).toFinset.filter
      fun r => parms.Contains r) then liveWeight w else 0) =
      if parms.Contains w.record then liveWeight w else 0 := by
    intro w hw
    have : ∃ v ∈ l, v.record = w.record := ⟨w, hw, rfl⟩
    simp [this]
  rw [List.map_congr_left hmem]
  clear hmem
  induction l with
  | nil => rfl
  | cons w l ih =>
    by_cases hw : parms.Contains w.record <;> simp [hw, ih]

/-- The query counts right if and only if no shard's lower bound is past its records
and no tombstone is in the range. -/
theorem counts_iff (view : BufferView (Record K V)) (shards : List (SortedShard K V))
    (parms : Parameters K) :
    Counts view shards parms ↔
      (∀ shard ∈ shards, shard.getLowerBound parms.lowerBound ≠ shard.data.length) ∧
      ∀ w ∈ stored view shards, parms.Contains w.record → w.isTombstone = false := by
  have htombs : (∀ w ∈ stored view shards, parms.Contains w.record → w.isTombstone = false) ↔
      ((stored view shards).filter fun w => parms.Contains w.record).countP
        (·.isTombstone) = 0 := by
    simp [List.countP_eq_zero]
  rw [Counts, query_eq, sum_range, sum_liveWeight, htombs]
  constructor
  · rintro ⟨n, hquery, hn⟩
    split at hquery
    · rename_i hall
      refine ⟨hall, ?_⟩
      have hcount := List.cons.inj (Option.some.inj hquery)
      omega
    · cases hquery
  · rintro ⟨hall, hzero⟩
    refine ⟨_, if_pos hall, ?_⟩
    rw [hzero]
    simp

/-- A buffered record and three shards over `(1, 5)`, `(3, 0)` and `(3, 2)`: a tree, windows
and a scan. -/
theorem counts_iff_sample : ∃ t : SortedShard Nat Nat, t.data = keyRun ∧
    Counts (BufferView.ofList [Wrapped.fresh ⟨2, 7⟩ false])
      [t, SortedShard.keyRunWindows, SortedShard.keyRunScan] ⟨2, 3⟩ := by
  obtain ⟨t, hdata, hbound⟩ := SortedShard.exists_keyRunTree
  have hlive : ∀ w ∈ stored (BufferView.ofList [Wrapped.fresh ⟨2, 7⟩ false])
      [t, SortedShard.keyRunWindows, SortedShard.keyRunScan], w.isTombstone = false := by
    rw [stored, List.map_cons, hdata]
    decide
  refine ⟨t, hdata, (counts_iff _ _ _).mpr ⟨?_, fun w hw _ => hlive w hw⟩⟩
  rw [List.forall_mem_cons, hbound, hdata]
  decide

/-- An insert, another one and the erase of the first: both counters see the
tombstone, and the record that it erases is counted. -/
theorem not_counts :
    let view : BufferView (Record Nat Nat) := BufferView.ofList
      [Wrapped.fresh ⟨1, 5⟩ false, Wrapped.fresh ⟨2, 6⟩ false, Wrapped.fresh ⟨1, 5⟩ true]
    (∀ r, 0 ≤ visible (stored view []) r) ∧
    query view [] ⟨0, 9⟩ = some [2] ∧ ¬ Counts view [] ⟨0, 9⟩ := by
  intro view
  have hstored : stored view [] = [Wrapped.fresh ⟨1, 5⟩ false, Wrapped.fresh ⟨2, 6⟩ false,
      Wrapped.fresh ⟨1, 5⟩ true] := rfl
  have hnet : ∀ r, visible (stored view []) r =
      (if r = ⟨2, 6⟩ then 1 else 0) := by
    intro r
    by_cases h1 : r = ⟨1, 5⟩
    · subst h1
      decide
    · by_cases h2 : r = ⟨2, 6⟩
      · subst h2
        decide
      · have h1' : ⟨1, 5⟩ ≠ r := fun h => h1 h.symm
        have h2' : ⟨2, 6⟩ ≠ r := fun h => h2 h.symm
        rw [hstored]
        simp [visible_cons, Wrapped.fresh, h1', h2', h2]
  have hquery : query view [] ⟨0, 9⟩ = some [2] := by decide
  refine ⟨fun r => ?_, hquery, ?_⟩
  · rw [hnet]
    split <;> decide
  · rintro ⟨n, hn, hsum⟩
    obtain rfl : 2 = n := List.cons.inj (Option.some.inj (hquery.symm.trans hn)) |>.1
    simp only [hnet] at hsum
    revert hsum
    decide

end Spec

end RangeCount

end De
