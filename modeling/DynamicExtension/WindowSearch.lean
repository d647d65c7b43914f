import DynamicExtension.SortedBuffer
import DynamicExtension.Library.Bisection
set_option autoImplicit false

namespace De
open Bisect RangeQuery

section Defs
variable {K V : Type} [LinearOrder K] [LinearOrder V]

/-- The first position whose key is not below the searched one -/
def lowerPosition (data : List (Wrapped (Record K V))) (key : K) : Nat :=
  data.findIdx fun w => key ≤ w.record.key

/-- `m_data[i].rec.key < key` -/
def keyBelow (data : List (Wrapped (Record K V))) (key : K) (i : Nat) : Bool :=
  data[i]?.any fun w => w.record.key < key

/-- The window that a learned index answers a search with -/
structure SearchBound where
  lo : Nat
  hi : Nat
  deriving DecidableEq, Repr

/-- Scan a narrow window, halve a wide one. -/
def windowSearch (data : List (Wrapped (Record K V))) (bound : SearchBound) (key : K) : Nat :=
  if bound.hi - bound.lo < 256 then
    advance (keyBelow data key) bound.lo (bound.hi - bound.lo)
  else
    halve (keyBelow data key) (bound.hi - bound.lo) bound.lo bound.hi

/-- `m_data[idx].rec.key > key && idx > 0 && m_data[idx-1].rec.key <= key` -/
def stepsBack (data : List (Wrapped (Record K V))) (key : K) (idx : Nat) : Bool :=
  (data[idx]?.any fun w => key < w.record.key) && 0 < idx &&
    (data[idx - 1]?.any fun w => w.record.key ≤ key)

/-- What is assumed of a window: the position searched for is in it. -/
structure SearchBound.Holds (bound : SearchBound) (data : List (Wrapped (Record K V)))
    (key : K) : Prop where
  lo_le : bound.lo ≤ lowerPosition data key
  le_hi : lowerPosition data key ≤ bound.hi
  hi_le : bound.hi ≤ data.length

/-- What is asked of a lower bound: it is no later than the position searched for, and it
is the end of the array where every key is smaller. -/
structure BoundsBelow (data : List (Wrapped (Record K V))) (key : K) (idx : Nat) : Prop where
  le : idx ≤ lowerPosition data key
  past : lowerPosition data key = data.length → idx = data.length

/-- The `PGM` shard: its record array, and the searches of `m_pgm` -/
structure PGM (K V : Type) where
  data : List (Wrapped (Record K V))
  search : K → SearchBound

namespace PGM

def getLowerBound (shard : PGM K V) (key : K) : Nat :=
  let bound := shard.search key
  if shard.data.length ≤ bound.lo then
    shard.data.length
  else
    let idx := windowSearch shard.data bound key
    if idx = shard.data.length then idx
    else if stepsBack shard.data key idx then idx - 1
    else if shard.data[idx]?.any fun w => key ≤ w.record.key then idx
    else shard.data.length

/-- `rq::Query::local_preproc` on the shard -/
def localPreproc (shard : PGM K V) (parms : Parameters K) : LocalQuery K :=
  ⟨shard.getLowerBound parms.lowerBound, shard.data.length, parms⟩

end PGM

end Defs

section Search
variable {K V : Type} [LinearOrder K] [LinearOrder V] {data : List (Wrapped (Record K V))} {key : K}

omit [LinearOrder V] in
theorem lowerPosition_le (data : List (Wrapped (Record K V))) (key : K) :
    lowerPosition data key ≤ data.length := List.findIdx_le_length

omit [LinearOrder V] in
theorem key_of_lt {i : Nat} {w : Wrapped (Record K V)} (hi : i < lowerPosition data key)
    (hw : data[i]? = some w) : w.record.key < key := by
  obtain ⟨hlt, rfl⟩ := List.getElem?_eq_some_iff.mp hw
  simpa using List.not_of_lt_findIdx hi

theorem key_of_le (hs : data.Pairwise fun a b => a.record ≤ b.record) {i : Nat}
    {w : Wrapped (Record K V)} (hi : lowerPosition data key ≤ i) (hw : data[i]? = some w) :
    key ≤ w.record.key := by
  obtain ⟨hlt, -⟩ := List.getElem?_eq_some_iff.mp hw
  have hpos : lowerPosition data key < data.length := hi.trans_lt hlt
  have hat : key ≤ data[lowerPosition data key].record.key :=
    of_decide_eq_true (List.findIdx_getElem (w := hpos))
  exact hat.trans (ISAMTree.key_mono hs hi (List.getElem?_eq_getElem hpos) hw)

theorem turns_lowerPosition (hs : data.Pairwise fun a b => a.record ≤ b.record) (key : K) :
    Turns (keyBelow data key) 0 data.length (lowerPosition data key) := by
  have h : data.Pairwise fun a b => decide (b.record.key < key) = true →
      decide (a.record.key < key) = true := hs.imp fun hab => by
    simpa using (Record.key_le_of_le hab).trans_lt
  have hnot : lowerPosition data key = data.findIdx fun w => !decide (w.record.key < key) := by
    simp only [lowerPosition, ← decide_not, not_lt]
  rw [hnot]
  exact turns_findIdx h

theorem windowSearch_eq (hs : data.Pairwise fun a b => a.record ≤ b.record) {bound : SearchBound}
    (h : bound.Holds data key) : windowSearch data bound key = lowerPosition data key := by
  have hturns := (turns_lowerPosition hs key).narrow (Nat.zero_le _) h.hi_le h.lo_le h.le_hi
  rw [windowSearch]
  split
  · exact advance_eq hturns
  · exact halve_eq _ le_rfl hturns

omit [LinearOrder V] in
theorem BoundsBelow.take {idx : Nat} (h : BoundsBelow data key idx) :
    ∀ w ∈ data.take idx, w.record.key < key := by
  intro w hw
  obtain ⟨i, hi⟩ := List.mem_iff_getElem?.mp hw
  rw [List.getElem?_take] at hi
  split at hi
  · rename_i hlt
    exact key_of_lt (hlt.trans_le h.le) hi
  · cases hi

namespace PGM

theorem getLowerBound_spec (shard : PGM K V)
    (hs : shard.data.Pairwise fun a b => a.record ≤ b.record)
    (h : (shard.search key).Holds shard.data key) :
    BoundsBelow shard.data key (shard.getLowerBound key) := by
  have hle := lowerPosition_le shard.data key
  have hlo := h.lo_le
  rw [getLowerBound]
  by_cases hempty : shard.data.length ≤ (shard.search key).lo
  · rw [if_pos hempty]
    exact ⟨by omega, fun _ => rfl⟩
  · rw [if_neg hempty]
    simp only [windowSearch_eq hs h]
    by_cases hend : lowerPosition shard.data key = shard.data.length
    · rw [if_pos hend]
      exact ⟨le_rfl, id⟩
    · have hat : (shard.data[lowerPosition shard.data key]?.any fun w => key ≤ w.record.key) := by
        have hget := List.getElem?_eq_getElem (lt_of_le_of_ne hle hend)
        simpa [hget] using key_of_le hs le_rfl hget
      rw [if_neg hend, if_pos hat]
      split
      · exact ⟨Nat.sub_le _ _, fun heq => absurd heq hend⟩
      · exact ⟨le_rfl, fun heq => absurd heq hend⟩

/-- The query yields the records in the bounds, in order, wherever the window lies. -/
theorem localQuery_exact (shard : PGM K V)
    (hs : shard.data.Pairwise fun a b => a.record ≤ b.record) (parms : Parameters K)
    (h : (shard.search parms.lowerBound).Holds shard.data parms.lowerBound) :
    localQueryOn shard.data (shard.localPreproc parms) =
      shard.data.filter fun w => parms.Contains w.record :=
  localQueryOn_eq hs parms (shard.getLowerBound_spec hs h).take

/-- A key that is absent, in a window of two records -/
theorem localQuery_exact_sample :
    let shard : PGM Nat Nat := ⟨[(1, 5), (3, 0), (3, 2), (6, 1)].map fun p =>
      Wrapped.fresh ⟨p.1, p.2⟩ false, fun _ => ⟨0, 2⟩⟩
    localQueryOn shard.data (shard.localPreproc ⟨2, 5⟩) =
      [Wrapped.fresh ⟨3, 0⟩ false, Wrapped.fresh ⟨3, 2⟩ false] := by
  intro shard
  rw [shard.localQuery_exact (by decide) ⟨2, 5⟩ ⟨by decide, by decide, by decide⟩]
  rfl

end PGM

end Search

end De
