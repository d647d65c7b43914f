import DynamicExtension.ISAMTree
set_option autoImplicit false

namespace De

/-- A shard type as the framework uses it: constructors from a buffer view,
from shards and from a file, and the contract they keep. Merging is partial,
since it may be given shards on which the constructor has no defined result. -/
structure ShardType (R : Type) [DecidableEq R] where
  Shard : Type
  File : Type
  ofBuffer : BufferView R → Shard
  ofShards : List Shard → Option Shard
  ofFile : File → Shard
  file : Shard → File
  recordCount : Shard → Nat
  records : Shard → List (Wrapped R)
  recordCount_eq : ∀ x, recordCount x = (records x).length
  ofBuffer_net : ∀ v, net (records (ofBuffer v)) = net v.records
  ofBuffer_count : ∀ v, recordCount (ofBuffer v) ≤ v.getRecordCount
  ofShards_net : ∀ xs x, ofShards xs = some x →
    net (records x) = (xs.map fun y => net (records y)).sum
  ofShards_count : ∀ xs x, ofShards xs = some x → recordCount x ≤ (xs.map recordCount).sum
  ofBuffer_mem : ∀ v w, w ∈ records (ofBuffer v) → w ∈ v.records
  ofShards_mem : ∀ xs x, ofShards xs = some x → ∀ w ∈ records x, ∃ y ∈ xs, w ∈ records y
  file_ofFile : ∀ f, file (ofFile f) = f
  records_congr : ∀ x y, file x = file y → records x = records y
  ofShards_congr : ∀ xs ys, xs.map file = ys.map file →
    (ofShards xs).map file = (ofShards ys).map file

namespace ShardType

/-- Every merge is defined: shards are their multisets of records and nothing else. -/
def Total {R : Type} [DecidableEq R] (T : ShardType R) : Prop := ∀ xs, (T.ofShards xs).isSome

/-- Shards that keep the records they are given as a list, less the pairs that
meet their opposite -/
def lists (R : Type) [DecidableEq R] : ShardType R where
  Shard := List (Wrapped R)
  File := List (Wrapped R)
  ofBuffer v := cancelPairs v.records
  ofShards xs := some (cancelPairs xs.flatten)
  ofFile := id
  file := id
  recordCount := List.length
  records := id
  recordCount_eq _ := rfl
  ofBuffer_net v := net_cancelPairs v.records
  ofBuffer_count v := (cancelPairs_sublist _).length_le.trans v.length_records.le
  ofShards_net xs x h := by
    cases h
    exact (net_cancelPairs _).trans (net_flatten xs)
  ofShards_count xs x h := by
    cases h
    exact (cancelPairs_sublist _).length_le.trans List.length_flatten.le
  ofBuffer_mem v w h := (cancelPairs_sublist _).subset h
  ofShards_mem xs x h w hw := by
    cases h
    exact List.mem_flatten.mp ((cancelPairs_sublist _).subset hw)
  file_ofFile _ := rfl
  records_congr _ _ h := h
  ofShards_congr xs ys h := by
    simp only [List.map_id] at h
    rw [h]

theorem total_lists (R : Type) [DecidableEq R] : (lists R).Total := fun _ => rfl

end ShardType

namespace ISAMTree
variable {K V : Type} [LinearOrder K] [LinearOrder V]
variable (lay : NodeLayout) (std : StdLib (Record K V))

/-- A page-file tree that one of its constructors built. -/
abbrev Shard := {t : ISAMTree K V // Built lay std t}

/-- A file that a built tree left. -/
abbrev ShardFile := {f : File K V // ∃ t, Built lay std t ∧ t.fd = f}

variable {lay std}

def mergeShards (xs : List (Shard lay std)) : Option (Shard lay std) :=
  match h : ofShards lay std (xs.map Subtype.val) with
  | none => none
  | some t => some ⟨t, Built.shards (by
      intro x hx
      obtain ⟨y, -, rfl⟩ := List.mem_map.mp hx
      exact y.2) h⟩

theorem mergeShards_val (xs : List (Shard lay std)) :
    (mergeShards xs).map Subtype.val = ofShards lay std (xs.map Subtype.val) := by
  unfold mergeShards
  split
  · rename_i h
    exact h.symm
  · rename_i t h
    exact h.symm

theorem ofFile_isSome (f : ShardFile lay std) : (ISAMTree.ofFile f.1).isSome := by
  obtain ⟨f, t, ht, rfl⟩ := f
  obtain ⟨recs, hwf⟩ := ht.wellFormed
  obtain ⟨t', ht', -⟩ := hwf.ofFile
  simp [ht']

def openShard (f : ShardFile lay std) : Shard lay std :=
  ⟨(ISAMTree.ofFile f.1).get (ofFile_isSome f), by
    obtain ⟨f, t, ht, rfl⟩ := f
    exact Built.file ht (Option.some_get _).symm⟩

def shardFile (x : Shard lay std) : ShardFile lay std := ⟨x.1.fd, x.1, x.2, rfl⟩

theorem openShard_fd (f : ShardFile lay std) : (openShard f).1.fd = f.1 := by
  obtain ⟨f, t, ht, rfl⟩ := f
  obtain ⟨recs, hwf⟩ := ht.wellFormed
  obtain ⟨t', ht', hfd, -⟩ := hwf.ofFile
  simp only [openShard, ht', Option.get_some, hfd]

theorem Shard.wellFormed (x : Shard lay std) : WellFormed lay x.1 (x.1.records lay) := by
  obtain ⟨recs, hwf⟩ := x.2.wellFormed
  rw [hwf.records_eq]
  exact hwf

theorem reccnt_congr {x y : Shard lay std} (h : x.1.fd = y.1.fd) : x.1.reccnt = y.1.reccnt := by
  have hx := (Shard.wellFormed x).header
  rw [h, (Shard.wellFormed y).header, Option.some.injEq, Page.header.injEq] at hx
  exact hx.2.2.1.symm

theorem records_congr {x y : Shard lay std} (h : x.1.fd = y.1.fd) :
    x.1.records lay = y.1.records lay := by
  rw [records, records, h, reccnt_congr h]

theorem sorted_records (xs : List (Shard lay std)) :
    ∀ l ∈ xs.map (fun y => y.1.records lay), l.Pairwise (fun a b => a.record ≤ b.record) := by
  intro l hl
  obtain ⟨y, -, rfl⟩ := List.mem_map.mp hl
  exact (Shard.wellFormed y).sorted

theorem forall₂_wellFormed (xs : List (Shard lay std)) :
    List.Forall₂ (fun t l => WellFormed lay t l) (xs.map Subtype.val)
      (xs.map fun y => y.1.records lay) := by
  rw [List.forall₂_map_left_iff, List.forall₂_map_right_iff, List.forall₂_same]
  exact fun y _ => Shard.wellFormed y

theorem mergeShards_tree {xs : List (Shard lay std)} {x : Shard lay std}
    (h : mergeShards xs = some x) :
    MergedTree lay std (xs.map fun y => y.1.records lay) ((xs.map Subtype.val).map tombstoneCnt).sum
      x.1 := by
  have hx : ofShards lay std (xs.map Subtype.val) = some x.1 := by
    rw [← mergeShards_val, h]
    rfl
  have hne : ∀ l ∈ xs.map (fun y => y.1.records lay), l ≠ [] := by
    rintro l hl rfl
    obtain ⟨y, hy, hnil⟩ := List.mem_map.mp hl
    rw [ofShards_eq_none (List.mem_map_of_mem hy) (hnil ▸ Shard.wellFormed y)] at hx
    exact absurd hx (by simp)
  obtain ⟨t, ht, hm⟩ := ofShards_spec std (forall₂_wellFormed xs) hne
  rw [hx, Option.some.injEq] at ht
  exact ht ▸ hm

theorem mergeShards_isSome_iff {xs : List (Shard lay std)} :
    (mergeShards xs).isSome ↔ ∀ x ∈ xs, 0 < x.1.reccnt := by
  have hval := mergeShards_val xs
  constructor
  · intro h x hx
    by_contra hpos
    have hnil : x.1.records lay = [] :=
      List.length_eq_zero_iff.mp (by rw [← (Shard.wellFormed x).reccnt]; omega)
    rw [ofShards_eq_none (List.mem_map_of_mem hx) (hnil ▸ Shard.wellFormed x),
      Option.map_eq_none_iff] at hval
    simp [hval] at h
  · intro hpos
    obtain ⟨t, ht, -⟩ := ofShards_spec std (forall₂_wellFormed xs) (by
      intro l hl hnil
      obtain ⟨y, hy, rfl⟩ := List.mem_map.mp hl
      have hcnt := hpos y hy
      simp [(Shard.wellFormed y).reccnt, hnil] at hcnt)
    rw [ht] at hval
    obtain ⟨x, hx, -⟩ := Option.map_eq_some_iff.mp hval
    exact Option.isSome_iff_exists.mpr ⟨x, hx⟩

theorem mergeShards_records {xs : List (Shard lay std)} {x : Shard lay std}
    (h : mergeShards xs = some x) :
    x.1.records lay = mergedRecords std (xs.map fun y => y.1.records lay) :=
  (mergeShards_tree h).wellFormed.records_eq

theorem mergeShards_spec {xs : List (Shard lay std)} {x : Shard lay std}
    (h : mergeShards xs = some x) :
    MergeOf (xs.map fun y => y.1.records lay) (x.1.records lay) := by
  rw [mergeShards_records h]
  exact mergeOf_mergedRecords std (sorted_records xs)

theorem length_mergeOf {R : Type} [LinearOrder R] {ls : List (List (Wrapped R))}
    {recs w : List (Wrapped R)} (hw : w.Perm ls.flatten) (hr : recs = cancelPairs w) :
    recs.length ≤ (ls.map List.length).sum := by
  rw [hr, ← List.length_flatten, ← hw.length_eq]
  exact (cancelPairs_sublist w).length_le

variable (lay std) in
theorem bufferShard_tree (v : BufferView (Record K V)) :
    MergedTree lay std (bufferRuns lay std v) (BitVec.ofNat 64 v.getTombstoneCount)
      (bufferShard lay std v) := by
  obtain ⟨t, ht, hm⟩ := ofBuffer_spec lay std v
  have hget : bufferShard lay std v = t := by simp [bufferShard, ht]
  exact hget ▸ hm

variable (lay std) in
theorem bufferShard_records (v : BufferView (Record K V)) :
    (bufferShard lay std v).records lay = mergedRecords std (bufferRuns lay std v) :=
  (bufferShard_tree lay std v).wellFormed.records_eq

variable (lay std) in
theorem bufferShard_spec (v : BufferView (Record K V)) :
    MergeOf [v.records] ((bufferShard lay std v).records lay) := by
  rw [bufferShard_records]
  exact mergeOf_bufferRuns lay std v

theorem mem_mergeOf {ls : List (List (Wrapped (Record K V)))}
    {recs : List (Wrapped (Record K V))} (h : MergeOf ls recs) {w : Wrapped (Record K V)}
    (hw : w ∈ recs) : ∃ l ∈ ls, w ∈ l := by
  obtain ⟨ws, hperm, -, rfl⟩ := h
  exact List.mem_flatten.mp (hperm.mem_iff.mp ((cancelPairs_sublist ws).subset hw))

theorem ofShards_fd_congr {xs ys : List (Shard lay std)}
    (h : xs.map shardFile = ys.map shardFile) :
    (ofShards lay std (xs.map Subtype.val)).map ISAMTree.fd =
      (ofShards lay std (ys.map Subtype.val)).map ISAMTree.fd := by
  have hruns : ((xs.map Subtype.val).map fun s => (s.fd, s.reccnt)) =
      ((ys.map Subtype.val).map fun s => (s.fd, s.reccnt)) := by
    induction xs generalizing ys with
    | nil => cases ys <;> simp_all
    | cons x xs ih =>
      cases ys with
      | nil => simp at h
      | cons y ys =>
        simp only [List.map_cons, List.cons.injEq] at h ⊢
        have hfd : x.1.fd = y.1.fd := congrArg Subtype.val h.1
        exact ⟨by rw [hfd, reccnt_congr hfd], ih h.2⟩
  have hsum : ((xs.map Subtype.val).map reccnt).sum = ((ys.map Subtype.val).map reccnt).sum := by
    have := congrArg (fun l => (l.map Prod.snd).sum) hruns
    simpa [List.map_map, Function.comp_def] using this
  simp only [ofShards, build, hruns, hsum]
  cases externalMergeSort lay std true ((ys.map Subtype.val).map fun s => (s.fd, s.reccnt))
      File.empty with
  | none => rfl
  | some st =>
    simp only [Option.bind_eq_bind, Option.bind_some]
    split
    · cases buildInternalLevels lay _ _ _ st.isam 1 _ <;> rfl
    · rfl

variable (lay std)

/-- The page-file tree as a shard type of the framework. A shard file is named
by a fresh uuid and never written again, so its content stands for its name. -/
def shardType : ShardType (Record K V) where
  Shard := Shard lay std
  File := ShardFile lay std
  ofBuffer v := ⟨bufferShard lay std v, built_bufferShard v⟩
  ofShards := mergeShards
  ofFile := openShard
  file := shardFile
  recordCount x := x.1.reccnt
  records x := x.1.records lay
  recordCount_eq x := (Shard.wellFormed x).reccnt
  ofBuffer_net v := by
    rw [net_mergeOf (bufferShard_spec lay std v)]
    simp
  ofBuffer_count v := by
    have hwf := Shard.wellFormed (⟨bufferShard lay std v, built_bufferShard v⟩ : Shard lay std)
    obtain ⟨w, hw, -, hr⟩ := bufferShard_spec lay std v
    have hl := length_mergeOf hw hr
    rw [hwf.reccnt]
    simpa using hl
  ofShards_net xs x h := by
    rw [net_mergeOf (mergeShards_spec h), List.map_map]
    rfl
  ofShards_count xs x h := by
    obtain ⟨w, hw, -, hr⟩ := mergeShards_spec h
    have hl := length_mergeOf hw hr
    rw [(Shard.wellFormed x).reccnt]
    refine le_trans hl (le_of_eq ?_)
    rw [List.map_map]
    exact congrArg List.sum (List.map_congr_left fun y _ => (Shard.wellFormed y).reccnt.symm)
  ofBuffer_mem v w h := by
    obtain ⟨l, hl, hw⟩ := mem_mergeOf (bufferShard_spec lay std v) h
    rwa [List.mem_singleton.mp hl] at hw
  ofShards_mem xs x h w hw := by
    obtain ⟨l, hl, hw⟩ := mem_mergeOf (mergeShards_spec h) hw
    obtain ⟨y, hy, rfl⟩ := List.mem_map.mp hl
    exact ⟨y, hy, hw⟩
  file_ofFile f := Subtype.ext (openShard_fd f)
  records_congr x y h := records_congr (congrArg Subtype.val h)
  ofShards_congr xs ys h := by
    have hcongr := ofShards_fd_congr h
    rw [← mergeShards_val, ← mergeShards_val, Option.map_map, Option.map_map] at hcongr
    cases hx : mergeShards xs <;> cases hy : mergeShards ys <;>
      simp_all [shardFile]

end ISAMTree

end De
