import DynamicExtension.MemoryISAMTree
import DynamicExtension.TrieSpline
set_option autoImplicit false

namespace De
open Bisect PQ

section Defs
variable {K V : Type} [LinearOrder K] [LinearOrder V]

/-- The loop that the array shards share from their lower bound `idx` on, with the index
of the record found. The last comparison reads the array wherever the loop stops; past
the end there is nothing to read. -/
def arrayLookup (data : List (Wrapped (Record K V))) (idx : Nat) (rec : Record K V) :
    Option (Option Nat) :=
  if idx ≥ data.length then
    some none
  else do
    let idx := advance (fun i => data[i]?.any fun w => w.record < rec) idx (data.length - idx)
    let w ← data[idx]?
    return if w.record = rec then some idx else none

/-- The filter is looked up through a null pointer. -/
def MemoryISAMTree.pointLookup (internalFanout : Nat) (t : MemoryISAMTree K V) (rec : Record K V)
    (filter : Bool) : Option (Option Nat) := do
  if filter then none
  else arrayLookup t.data (← t.getLowerBound internalFanout rec.key) rec

def PGM.pointLookup (shard : PGM K V) (rec : Record K V) (_filter : Bool) : Option (Option Nat) :=
  arrayLookup shard.data (shard.getLowerBound rec.key) rec

/-- `m_bf` is null, so that the filter is not asked. -/
def TrieSpline.pointLookup {lib : SplineLibrary K} (shard : TrieSpline lib V) (rec : Record K V)
    (_filter : Bool) : Option (Option Nat) :=
  arrayLookup shard.data (shard.getLowerBound rec.key) rec

/-- The lookup reads the array only, and yields a stored record equal to `rec` if there
is one. -/
def LooksUp (data : List (Wrapped (Record K V))) (rec : Record K V)
    (res : Option (Option Nat)) : Prop :=
  ∃ out, res = some out ∧
    (∀ i, out = some i → ∃ w, data[i]? = some w ∧ w.record = rec) ∧
    (out = none → ∀ w ∈ data, w.record ≠ rec)

/-- Some stored record is not below `rec`, or every stored key is below its key. -/
def StopsInside (data : List (Wrapped (Record K V))) (rec : Record K V) : Prop :=
  (∃ w ∈ data, rec ≤ w.record) ∨ ∀ w ∈ data, w.record.key < rec.key

end Defs

section Lookup
variable {K V : Type} [LinearOrder K] [LinearOrder V] {data : List (Wrapped (Record K V))}
  {rec : Record K V} {idx : Nat}

omit [LinearOrder V] in
theorem lowerPosition_eq_length {key : K} :
    lowerPosition data key = data.length ↔ ∀ w ∈ data, w.record.key < key := by
  simp [lowerPosition, List.findIdx_eq_length]

/-- The loop stops at the first record, from the lower bound on, that is not below `rec`. -/
theorem advance_record_eq (hs : data.Pairwise fun a b => a.record ≤ b.record)
    (h : idx ≤ lowerPosition data rec.key) :
    advance (fun i => data[i]?.any fun w => w.record < rec) idx (data.length - idx) =
      data.findIdx fun w => rec ≤ w.record := by
  have hnot : (data.findIdx fun w => rec ≤ w.record) =
      data.findIdx fun w => !decide (w.record < rec) := by simp only [← decide_not, not_lt]
  have hturns := turns_findIdx (q := fun w : Wrapped (Record K V) => decide (w.record < rec))
    (hs.imp fun hab => by simpa using hab.trans_lt)
  rw [hnot]
  refine advance_eq (hturns.narrow (Nat.zero_le idx) le_rfl ?_ hturns.le_hi)
  rw [← hnot]
  by_contra hgt
  have hlt := not_le.mp hgt
  have hin := hlt.trans_le (h.trans (lowerPosition_le data rec.key))
  have hat : rec ≤ data[data.findIdx fun w => rec ≤ w.record].record :=
    of_decide_eq_true (List.findIdx_getElem (w := hin))
  have hkey := key_of_lt (hlt.trans_le h) (List.getElem?_eq_getElem hin)
  exact absurd (Record.key_le_of_le hat) (not_le.mpr hkey)

theorem looksUp_arrayLookup (hs : data.Pairwise fun a b => a.record ≤ b.record)
    (h : BoundsBelow data rec.key idx) :
    LooksUp data rec (arrayLookup data idx rec) ↔ StopsInside data rec := by
  by_cases hpast : lowerPosition data rec.key = data.length
  · have hbelow := lowerPosition_eq_length.mp hpast
    rw [arrayLookup, if_pos (h.past hpast).ge]
    refine iff_of_true ⟨none, rfl, fun i hi => ?_, fun _ w hw heq => ?_⟩ (.inr hbelow)
    · cases hi
    · have := hbelow w hw
      rw [heq] at this
      exact lt_irrefl _ this
  · have hlt : idx < data.length :=
      h.le.trans_lt (lt_of_le_of_ne (lowerPosition_le data rec.key) hpast)
    have hno : ¬ ∀ w ∈ data, w.record.key < rec.key := mt lowerPosition_eq_length.mpr hpast
    rw [arrayLookup, if_neg (not_le.mpr hlt), StopsInside, or_iff_left hno]
    simp only [advance_record_eq hs h.le]
    set i := data.findIdx fun w => rec ≤ w.record with hi
    constructor
    · rintro ⟨out, hout, -⟩
      obtain ⟨w, hw, -⟩ := Option.bind_eq_some_iff.mp hout
      obtain ⟨hin, rfl⟩ := List.getElem?_eq_some_iff.mp hw
      exact ⟨_, List.getElem_mem hin, of_decide_eq_true (List.findIdx_getElem (w := hin))⟩
    · rintro ⟨v, hv, hle⟩
      have hin : i < data.length := List.findIdx_lt_length_of_exists ⟨v, hv, by simpa using hle⟩
      have hat : rec ≤ data[i].record := of_decide_eq_true (List.findIdx_getElem (w := hin))
      simp only [List.getElem?_eq_getElem hin, Option.bind_eq_bind, Option.bind_some]
      refine ⟨_, rfl, fun j hj => ?_, fun hnone u hu heq => ?_⟩
      · split at hj
        · rename_i heq
          obtain rfl : i = j := by simpa using hj
          exact ⟨data[i], List.getElem?_eq_getElem hin, heq⟩
        · cases hj
      · split at hnone
        · cases hnone
        · rename_i hne
          -- an equal record lies no later than the one the loop stops at, and no earlier
          obtain ⟨j, hj, rfl⟩ := List.getElem_of_mem hu
          have hij : i ≤ j := by
            by_contra hji
            have := List.not_of_lt_findIdx (not_le.mp hji)
            simp [heq] at this
          rcases Nat.eq_or_lt_of_le hij with rfl | hij
          · exact hne heq
          · have hle' := List.pairwise_iff_getElem.mp hs i j hin hj hij
            rw [heq] at hle'
            exact hne (le_antisymm hle' hat)

/-- The three array shards look a record up rightly, and without reading past the array,
if and only if some stored record is not below it or no key reaches its key. -/
theorem pointLookups_iff (hs : data.Pairwise fun a b => a.record ≤ b.record)
    (rec : Record K V) (internalFanout : Nat) (lib : SplineLibrary K) :
    (∀ t : MemoryISAMTree K V, t.data = data →
      (∀ key, ∃ idx, t.getLowerBound internalFanout key = some idx ∧ BoundsBelow data key idx) →
      (LooksUp data rec (t.pointLookup internalFanout rec false) ↔ StopsInside data rec)) ∧
    (∀ shard : PGM K V, shard.data = data →
      (∀ key, BoundsBelow data key (shard.getLowerBound key)) →
      (LooksUp data rec (shard.pointLookup rec false) ↔ StopsInside data rec)) ∧
    (∀ shard : TrieSpline lib V, shard.data = data →
      (∀ key, BoundsBelow data key (shard.getLowerBound key)) →
      (LooksUp data rec (shard.pointLookup rec false) ↔ StopsInside data rec)) := by
  refine ⟨fun t hdata hbound => ?_, fun shard hdata hbound => ?_, fun shard hdata hbound => ?_⟩
  · obtain ⟨idx, hidx, h⟩ := hbound rec.key
    rw [MemoryISAMTree.pointLookup, hidx, hdata]
    exact looksUp_arrayLookup hs h
  · rw [PGM.pointLookup, hdata]
    exact looksUp_arrayLookup hs (hbound rec.key)
  · rw [TrieSpline.pointLookup, hdata]
    exact looksUp_arrayLookup hs (hbound rec.key)

end Lookup

section Samples

def keyRun : List (Wrapped (Record Nat Nat)) :=
  [(1, 5), (3, 0), (3, 2)].map fun p => Wrapped.fresh ⟨p.1, p.2⟩ false

theorem sorted_keyRun : keyRun.Pairwise fun a b => a.record ≤ b.record := by decide

theorem exists_memoryISAMTree : ∃ t : MemoryISAMTree Nat Nat, t.data = keyRun ∧
    ∀ key, ∃ idx, t.getLowerBound 2 key = some idx ∧ BoundsBelow keyRun key idx := by
  obtain ⟨t, -, h⟩ := MemoryISAMTree.buildInternalLevels_spec (by decide : 0 < 2) (le_refl 2)
    (by decide : keyRun ≠ [])
  exact ⟨t, h.data_eq, fun key => ⟨_, MemoryISAMTree.getLowerBound_spec h (by decide) (by decide)
    sorted_keyRun key, le_rfl, id⟩⟩

/-- Windows over the whole array -/
def keyRunPGM : PGM Nat Nat := ⟨keyRun, fun _ => ⟨0, 3⟩⟩

theorem boundsBelow_keyRunPGM (key : Nat) :
    BoundsBelow keyRun key (keyRunPGM.getLowerBound key) :=
  keyRunPGM.getLowerBound_spec sorted_keyRun
    ⟨Nat.zero_le _, lowerPosition_le keyRun key, le_rfl⟩

def keyRunSpline : TrieSpline (SplineLibrary.whole Nat) Nat :=
  TrieSpline.finish (SplineLibrary.whole Nat) 1 3 keyRun ⟨3, 0⟩

theorem boundsBelow_keyRunSpline (key : Nat) :
    BoundsBelow keyRun key (keyRunSpline.getLowerBound key) :=
  (TrieSpline.wellFormed_finish 1 3 sorted_keyRun rfl).getLowerBound_spec (by decide) key

/-- A record that is stored -/
theorem pointLookups_iff_sample :
    (∃ t : MemoryISAMTree Nat Nat, t.data = keyRun ∧
      LooksUp keyRun ⟨3, 2⟩ (t.pointLookup 2 ⟨3, 2⟩ false)) ∧
    LooksUp keyRun ⟨3, 2⟩ (keyRunPGM.pointLookup ⟨3, 2⟩ false) ∧
    LooksUp keyRun ⟨3, 2⟩ (keyRunSpline.pointLookup ⟨3, 2⟩ false) := by
  have hstops : StopsInside keyRun ⟨3, 2⟩ := .inl ⟨Wrapped.fresh ⟨3, 2⟩ false, by decide, le_rfl⟩
  obtain ⟨hisam, hpgm, hspline⟩ :=
    pointLookups_iff sorted_keyRun ⟨3, 2⟩ 2 (SplineLibrary.whole Nat)
  obtain ⟨t, hdata, hbound⟩ := exists_memoryISAMTree
  exact ⟨⟨t, hdata, (hisam t hdata hbound).mpr hstops⟩,
    (hpgm keyRunPGM rfl boundsBelow_keyRunPGM).mpr hstops,
    (hspline keyRunSpline rfl boundsBelow_keyRunSpline).mpr hstops⟩

/-- `(3, 7)` is above every stored record, and its key is stored. -/
theorem reads_past_end :
    (∃ t : MemoryISAMTree Nat Nat, t.data = keyRun ∧
      (∀ key, ∃ idx, t.getLowerBound 2 key = some idx ∧ BoundsBelow keyRun key idx) ∧
      ¬ LooksUp keyRun ⟨3, 7⟩ (t.pointLookup 2 ⟨3, 7⟩ false)) ∧
    ((∀ key, BoundsBelow keyRun key (keyRunPGM.getLowerBound key)) ∧
      ¬ LooksUp keyRun ⟨3, 7⟩ (keyRunPGM.pointLookup ⟨3, 7⟩ false)) ∧
    (∀ key, BoundsBelow keyRun key (keyRunSpline.getLowerBound key)) ∧
      ¬ LooksUp keyRun ⟨3, 7⟩ (keyRunSpline.pointLookup ⟨3, 7⟩ false) := by
  have hnot : ∀ {idx}, BoundsBelow keyRun 3 idx →
      ¬ LooksUp keyRun ⟨3, 7⟩ (arrayLookup keyRun idx ⟨3, 7⟩) := by
    intro idx h
    rw [looksUp_arrayLookup sorted_keyRun h]
    unfold StopsInside
    decide
  obtain ⟨t, hdata, hbound⟩ := exists_memoryISAMTree
  refine ⟨⟨t, hdata, hbound, ?_⟩, ⟨boundsBelow_keyRunPGM, hnot (boundsBelow_keyRunPGM 3)⟩,
    boundsBelow_keyRunSpline, hnot (boundsBelow_keyRunSpline 3)⟩
  obtain ⟨idx, hidx, h⟩ := hbound 3
  rw [MemoryISAMTree.pointLookup, hidx, hdata]
  exact hnot h

end Samples

end De
