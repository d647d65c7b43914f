import DynamicExtension.StructureSteps
import Mathlib.Algebra.BigOperators.Group.List.Basic
import Mathlib.Data.BitVec
set_option autoImplicit false

namespace De
open Rounding
variable {R : Type} [DecidableEq R] {T : ShardType R} {L : LayoutPolicy}

/-- `ts_prop > max_delete_prop`, where `ts_prop` is a `long double` of 64 significant bits.
It is infinite for a capacity of 0, and no number if the count is 0, too. -/
def tsPropAbove (maxDeleteProp : ℚ) (count capacity : Nat) : Bool :=
  if capacity = 0 then count ≠ 0 else maxDeleteProp < divBits 64 count capacity

/-- `ts_prop <= max_delete_prop`, which does not hold of what is no number -/
def tsPropWithin (maxDeleteProp : ℚ) (count capacity : Nat) : Bool :=
  capacity ≠ 0 ∧ divBits 64 count capacity ≤ maxDeleteProp

theorem tsPropWithin_of_above {maxDeleteProp : ℚ} {count capacity : Nat}
    (h : tsPropAbove maxDeleteProp count capacity = true) :
    tsPropWithin maxDeleteProp count capacity = false := by
  rw [tsPropAbove] at h
  rw [tsPropWithin, decide_eq_false_iff_not]
  rintro ⟨hcap, hle⟩
  rw [if_neg hcap, decide_eq_true_eq] at h
  exact absurd h (not_lt.mpr hle)

theorem tsPropAbove_one {count capacity : Nat} (h : count ≤ capacity) :
    tsPropAbove 1 count capacity = false := by
  rw [tsPropAbove]
  split
  · simp only [decide_eq_false_iff_not, not_not]
    omega
  · rw [decide_eq_false_iff_not, not_lt]
    exact divBits_le_one (by decide) h

theorem tsPropWithin_zero {maxDeleteProp : ℚ} {capacity : Nat} (hmax : 0 ≤ maxDeleteProp)
    (hcap : 0 < capacity) : tsPropWithin maxDeleteProp 0 capacity = true := by
  simp [tsPropWithin, hcap.ne', hmax]

/-- `get_tombstone_count` of a level, which adds up those of its shards -/
def InternalLevel.getTombstoneCount (tombstoneCount : T.Shard → BitVec 64) (l : InternalLevel T) :
    BitVec 64 :=
  (((l.shards.take l.shardCnt).filterMap id).map tombstoneCount).sum

theorem InternalLevel.getTombstoneCount_eq (tombstoneCount : T.Shard → BitVec 64)
    (l : InternalLevel T) :
    l.getTombstoneCount tombstoneCount = (l.live.map tombstoneCount).sum := by
  rw [getTombstoneCount, take_shards]
  simp [List.filterMap_map]

namespace ExtensionStructure
variable (maxDeleteProp : ℚ) (tombstoneCount : T.Shard → BitVec 64)

def validateTombstoneProportion (s : ExtensionStructure T L) : Bool :=
  s.levels.zipIdx.all fun (l, i) =>
    !tsPropAbove maxDeleteProp (l.getTombstoneCount tombstoneCount).toNat
      (s.calcLevelRecordCapacity i)

/-- The overload for one level -/
def validateLevel (s : ExtensionStructure T L) (i : Nat) : Bool :=
  tsPropWithin maxDeleteProp ((s.levelAt i).getTombstoneCount tombstoneCount).toNat
    (s.calcLevelRecordCapacity i)

end ExtensionStructure

end De
