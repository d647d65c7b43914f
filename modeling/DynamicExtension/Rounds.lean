import DynamicExtension.ConservationBSM
set_option autoImplicit false

namespace De
variable {R : Type} [DecidableEq R] {T : ShardType R} {L : LayoutPolicy}

def ShardType.MergesRecords (T : ShardType R) : Prop :=
  ∀ xs, (∀ x ∈ xs, 0 < T.recordCount x) → (T.ofShards xs).isSome

theorem ISAMTree.mergesRecords {K V : Type} [LinearOrder K] [LinearOrder V] (lay : NodeLayout)
    (std : StdLib (Record K V)) : (ISAMTree.shardType lay std).MergesRecords :=
  fun _ hpos => mergeShards_isSome_iff.mpr hpos

namespace ExtensionStructure

/-- What holds of every structure of a run whose rounds were all in order -/
def Intact (s : ExtensionStructure T L) : Prop :=
  match L, s with
  | .bsm, s => s.SoundBSM
  | .leveling, s => s.Settled ∧ 0 < s.scaleFactor
  | .teiring, s => s.Settled ∧ 0 < s.scaleFactor

/-- The shard lists that a round hands to the merging constructor -/
def mergeInputs (s : ExtensionStructure T L) (hwm : Nat) (v : BufferView R) :
    List (List T.Shard) :=
  match L, s with
  | .bsm, s => s.roundMergesBSM hwm
  | .leveling, s => s.roundMerges hwm v
  | .teiring, s => s.roundMerges hwm v

/-- The flush finds a slot for its shard, which only BSM may refuse. -/
def FindsSlot (s : ExtensionStructure T L) : Prop :=
  match L, s with
  | .bsm, s => s.HasSlot
  | .leveling, _ => True
  | .teiring, _ => True

/-- No shard without records is merged in a round, its flush finds a slot, and the capacity
of level 0 is enough for the view. -/
structure RoundOk (s : ExtensionStructure T L) (hwm : Nat) (v : BufferView R) : Prop where
  merges : ∀ xs ∈ s.mergeInputs hwm v, ∀ x ∈ xs, 0 < T.recordCount x
  slot : s.FindsSlot
  capacity : s.HasCapacity v.getRecordCount

instance (s : ExtensionStructure T L) : Decidable s.FindsSlot :=
  match L, s with
  | .bsm, s => inferInstanceAs (Decidable
    ((s.levelAt 0).getRecordCount ≠ 0 ∨ (s.levelAt 0).free ≠ 0))
  | .leveling, _ => isTrue trivial
  | .teiring, _ => isTrue trivial

theorem roundOk_iff (s : ExtensionStructure T L) (hwm : Nat) (v : BufferView R) :
    s.RoundOk hwm v ↔
      (∀ xs ∈ s.mergeInputs hwm v, ∀ x ∈ xs, 0 < T.recordCount x) ∧ s.FindsSlot ∧
        s.HasCapacity v.getRecordCount :=
  ⟨fun h => ⟨h.merges, h.slot, h.capacity⟩, fun h => ⟨h.1, h.2.1, h.2.2⟩⟩

instance (s : ExtensionStructure T L) (hwm : Nat) (v : BufferView R) :
    Decidable (s.RoundOk hwm v) := decidable_of_iff _ (s.roundOk_iff hwm v).symm

theorem intact_iff (h : L ≠ .bsm) (s : ExtensionStructure T L) :
    s.Intact ↔ s.Settled ∧ 0 < s.scaleFactor := by
  cases L with
  | leveling => exact Iff.rfl
  | teiring => exact Iff.rfl
  | bsm => exact absurd rfl h

theorem mergeInputs_eq (h : L ≠ .bsm) (s : ExtensionStructure T L) (hwm : Nat)
    (v : BufferView R) : s.mergeInputs hwm v = s.roundMerges hwm v := by
  cases L with
  | leveling => rfl
  | teiring => rfl
  | bsm => exact absurd rfl h

theorem intact_new (T : ShardType R) (L : LayoutPolicy) (hwm scale : Nat) (hpos : 0 < scale) :
    (new T L hwm scale).Intact := by
  cases L with
  | leveling => exact ⟨settled_new T _ hwm scale, hpos⟩
  | teiring => exact ⟨settled_new T _ hwm scale, hpos⟩
  | bsm => exact sound_new_bsm T hwm scale

/-- A round whose merges are all defined and whose flush finds a slot and room completes
and regroups the shards with the flushed one. If that one holds a record, the next
flush finds a slot too. -/
theorem Intact.round_of_isSome {hwm : Nat} {s : ExtensionStructure T L} (hs : s.Intact)
    {v : BufferView R} (hv : v.getRecordCount ≤ hwm)
    (hm : ∀ xs ∈ s.mergeInputs hwm v, (T.ofShards xs).isSome) (hslot : s.FindsSlot)
    (hcap : s.HasCapacity v.getRecordCount) :
    ∃ s', s.round hwm v = some s' ∧ s'.Intact ∧
      Regroup T (s.shards + {T.ofBuffer v}) s'.shards ∧
      (0 < T.recordCount (T.ofBuffer v) → s'.FindsSlot) := by
  by_cases h : L = .bsm
  · subst h
    obtain ⟨s₁, s', hs₁, hflush, hs', hr, hlive⟩ := round_slot hs hm hslot v
    refine ⟨s', ?_, hs', hr, fun hpos => .inl ?_⟩
    · rw [ExtensionStructure.round, hs₁]
      exact hflush
    · rw [InternalLevel.getRecordCount_eq, hlive, List.map_append, List.sum_append,
        List.map_singleton, List.sum_singleton]
      omega
  · obtain ⟨hset, hpos⟩ := (intact_iff h s).mp hs
    have hsome := round_isSome h hset hpos hv hcap fun xs hxs => hm xs (by rwa [mergeInputs_eq h])
    obtain ⟨s', hrun⟩ := Option.isSome_iff_exists.mp hsome
    have ha := round_spec h hset hrun
    refine ⟨s', hrun, (intact_iff h s').mpr ⟨ha.settled, ?_⟩, ha.regroup, fun _ => ?_⟩
    · rwa [ha.scaleFactor]
    · cases L with
      | leveling => exact trivial
      | teiring => exact trivial
      | bsm => exact absurd rfl h

theorem Intact.round (hT : T.MergesRecords) {hwm : Nat} {s : ExtensionStructure T L}
    (hs : s.Intact) {v : BufferView R} (hv : v.getRecordCount ≤ hwm) (hok : s.RoundOk hwm v) :
    ∃ s', s.round hwm v = some s' ∧ s'.Intact ∧
      Regroup T (s.shards + {T.ofBuffer v}) s'.shards := by
  obtain ⟨s', hrun, hs', hr, -⟩ :=
    hs.round_of_isSome hv (fun xs hxs => hT xs (hok.merges xs hxs)) hok.slot hok.capacity
  exact ⟨s', hrun, hs', hr⟩

end ExtensionStructure

end De
