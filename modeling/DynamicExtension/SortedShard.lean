import DynamicExtension.ArrayLookup
set_option autoImplicit false

namespace De

/-- What `rq::Query` asks of a shard: the record array, in record order, and a lower
bound with nothing of the range before it -/
structure SortedShard (K V : Type) [LinearOrder K] [LinearOrder V] where
  data : List (Wrapped (Record K V))
  getLowerBound : K → Nat
  sorted : data.Pairwise fun a b => a.record ≤ b.record
  below : ∀ key, ∀ w ∈ data.take (getLowerBound key), w.record.key < key

namespace SortedShard
variable {K V : Type} [LinearOrder K] [LinearOrder V]

/-- A `MemoryISAMTree` as its constructors leave it, over the records of a sorted array -/
def ofMemoryISAMTree {leafFanout internalFanout : Nat} (t : MemoryISAMTree K V)
    (h : MemoryISAMTree.Indexed leafFanout internalFanout t.data t) (hne : t.data ≠ [])
    (hF : 0 < internalFanout) (hs : t.data.Pairwise fun a b => a.record ≤ b.record) :
    SortedShard K V where
  data := t.data
  getLowerBound key := (t.getLowerBound internalFanout key).getD t.data.length
  sorted := hs
  below key := by
    rw [MemoryISAMTree.getLowerBound_spec h hne hF hs key]
    exact (⟨le_rfl, id⟩ : BoundsBelow t.data key (lowerPosition t.data key)).take

theorem getLowerBound_ofMemoryISAMTree {leafFanout internalFanout : Nat} (t : MemoryISAMTree K V)
    (h : MemoryISAMTree.Indexed leafFanout internalFanout t.data t) (hne : t.data ≠ [])
    (hF : 0 < internalFanout) (hs : t.data.Pairwise fun a b => a.record ≤ b.record) (key : K) :
    t.getLowerBound internalFanout key =
      some ((ofMemoryISAMTree t h hne hF hs).getLowerBound key) := by
  simp [ofMemoryISAMTree, MemoryISAMTree.getLowerBound_spec h hne hF hs key]

def ofPGM (shard : PGM K V) (hs : shard.data.Pairwise fun a b => a.record ≤ b.record)
    (h : ∀ key, (shard.search key).Holds shard.data key) : SortedShard K V where
  data := shard.data
  getLowerBound := shard.getLowerBound
  sorted := hs
  below key := (shard.getLowerBound_spec hs (h key)).take

def ofTrieSpline {lib : SplineLibrary K} (shard : TrieSpline lib V) (h : shard.WellFormed)
    (hne : shard.data.length ≠ 50) : SortedShard K V where
  data := shard.data
  getLowerBound := shard.getLowerBound
  sorted := h.sorted
  below key := (h.getLowerBound_spec hne key).take

section Samples

def keyRunWindows : SortedShard Nat Nat := ofPGM keyRunPGM sorted_keyRun fun key =>
  ⟨Nat.zero_le _, lowerPosition_le keyRun key, le_rfl⟩

def keyRunScan : SortedShard Nat Nat :=
  ofTrieSpline keyRunSpline (TrieSpline.wellFormed_finish 1 3 sorted_keyRun rfl) (by decide)

theorem exists_keyRunTree : ∃ t : SortedShard Nat Nat, t.data = keyRun ∧
    ∀ key, t.getLowerBound key = lowerPosition keyRun key := by
  obtain ⟨t, -, h⟩ := MemoryISAMTree.buildInternalLevels_spec (by decide : 0 < 2) (le_refl 2)
    (by decide : keyRun ≠ [])
  have hdata : t.data = keyRun := h.data_eq
  have hs : t.data.Pairwise fun a b => a.record ≤ b.record := hdata ▸ sorted_keyRun
  refine ⟨ofMemoryISAMTree t (hdata ▸ h) (by rw [hdata]; decide) (by decide) hs, hdata,
    fun key => Option.some.inj ?_⟩
  rw [← getLowerBound_ofMemoryISAMTree]
  exact MemoryISAMTree.getLowerBound_spec h (by decide) (by decide) sorted_keyRun key

end Samples

end SortedShard

namespace RangeQuery
variable {K V : Type} [LinearOrder K] [LinearOrder V]

def localPreproc (shard : SortedShard K V) (parms : Parameters K) : LocalQuery K :=
  ⟨shard.getLowerBound parms.lowerBound, shard.data.length, parms⟩

def localQuery (shard : SortedShard K V) (query : LocalQuery K) : List (Wrapped (Record K V)) :=
  localQueryOn shard.data query

theorem localQuery_eq (shard : SortedShard K V) (parms : Parameters K) :
    localQuery shard (localPreproc shard parms) =
      shard.data.filter fun w => parms.Contains w.record :=
  localQueryOn_eq shard.sorted parms (shard.below parms.lowerBound)

end RangeQuery

end De
