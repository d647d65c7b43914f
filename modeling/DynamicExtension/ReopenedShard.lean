import DynamicExtension.TreeSearch
set_option autoImplicit false

namespace De
namespace ISAMTree
variable {K V : Type} [LinearOrder K] [LinearOrder V] [Zero K] [Zero V]

/-- Counting, iterating and looking up give the same on both trees. -/
structure SameReads (lay : NodeLayout) (t t' : ISAMTree K V) : Prop where
  reccnt : t'.reccnt = t.reccnt
  iterate : ∀ key fuel, (getIterator lay t' key).bind (Iterator.drain lay fuel) =
    (getIterator lay t key).bind (Iterator.drain lay fuel)
  lookup : ∀ past rec, pointLookup lay past t' rec = pointLookup lay past t rec

/-- Merges with the same other shards end for both trees or for neither, and then
leave shards with the same value of `f`. -/
def SameMerges {α : Type} (lay : NodeLayout) (std : StdLib (Record K V)) (f : ISAMTree K V → α)
    (t t' : ISAMTree K V) : Prop :=
  ∀ xs ys : List (ISAMTree K V),
    (ofShards lay std (xs ++ t' :: ys)).map f = (ofShards lay std (xs ++ t :: ys)).map f

/-- The reopened tree `t'` stands in for `t` everywhere. -/
structure Reopens (lay : NodeLayout) (std : StdLib (Record K V)) (t t' : ISAMTree K V) : Prop where
  reads : SameReads lay t t'
  tombstones : t'.tombstoneCnt = t.tombstoneCnt
  merges : SameMerges lay std (fun m => (m.records lay, m.reccnt, m.tombstoneCnt)) t t'

variable {lay : NodeLayout} {std : StdLib (Record K V)}

omit [Zero K] [Zero V] in
theorem build_tombstoneCnt (shards : Bool) (runs : List (File K V × Nat)) (reccnt : Nat)
    (ts ts' : BitVec 64) :
    (build lay std shards runs reccnt ts').map (fun m => (m.records lay, m.reccnt)) =
      (build lay std shards runs reccnt ts).map fun m => (m.records lay, m.reccnt) := by
  unfold build
  cases externalMergeSort lay std shards runs File.empty with
  | none => rfl
  | some st =>
    simp only [Option.bind_eq_bind, Option.bind_some]
    split
    · cases buildInternalLevels lay st.currPage (reccnt - 2 * st.cancelled) st.currPage st.isam 1
        st.currPage <;> rfl
    · rfl

theorem sameReads_reopened (lay : NodeLayout) (t : ISAMTree K V) :
    SameReads lay t { t with tombstoneCnt := 0 } := ⟨rfl, fun _ _ => rfl, fun _ _ => rfl⟩

omit [Zero K] [Zero V] in
theorem sameMerges_reopened (t : ISAMTree K V) :
    SameMerges lay std (fun m => (m.records lay, m.reccnt)) t { t with tombstoneCnt := 0 } := by
  intro xs ys
  simp only [ofShards, List.map_append, List.map_cons]
  exact build_tombstoneCnt true _ _ _ _

/-- The file of a shard reopens with the same records, but without its tombstone
count: the reopened shard stands in for the original if and only if that count is 0. -/
theorem reopens_iff (lay : NodeLayout) (std : StdLib (Record K V)) (x : Shard lay std) :
    ∃ t, ofFile x.1.fd = some t ∧ SameReads lay x.1 t ∧
      SameMerges lay std (fun m => (m.records lay, m.reccnt)) x.1 t ∧
      (Reopens lay std x.1 t ↔ x.1.tombstoneCnt = 0) := by
  have hopen : ofFile x.1.fd = some { x.1 with tombstoneCnt := 0 } := by
    rw [ofFile, (Shard.wellFormed x).header]
  refine ⟨_, hopen, sameReads_reopened lay x.1, sameMerges_reopened x.1,
    fun h => h.tombstones.symm, fun h => ?_⟩
  have hsame : ({ x.1 with tombstoneCnt := 0 } : ISAMTree K V) = x.1 := by rw [← h]
  rw [hsame]
  exact ⟨⟨rfl, fun _ _ => rfl, fun _ _ => rfl⟩, rfl, fun _ _ => rfl⟩

/-- The shard of an erase counts its tombstone until it is reopened. -/
theorem not_reopens :
    (sampleTree [(1, 5, true)]).1.tombstoneCnt = 1 ∧
    ∃ t, ofFile (sampleTree [(1, 5, true)]).1.fd = some t ∧
      ¬ Reopens NodeLayout.words (StdLib.sorted _) (sampleTree [(1, 5, true)]).1 t := by
  have hcnt : (sampleTree [(1, 5, true)]).1.tombstoneCnt = 1 := by decide +kernel
  refine ⟨hcnt, { (sampleTree [(1, 5, true)]).1 with tombstoneCnt := 0 }, ?_, fun h => ?_⟩
  · rw [ofFile, (Shard.wellFormed (sampleTree [(1, 5, true)])).header]
  · have := h.tombstones
    rw [hcnt] at this
    exact absurd this (by decide)

end ISAMTree

end De
