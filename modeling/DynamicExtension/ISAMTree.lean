import DynamicExtension.ExternalMergeSort
import DynamicExtension.IndexLevels
set_option autoImplicit false

namespace De

/-- The page-file `ISAMTree`. Its file name is a fresh uuid and its filter is
always null, so neither is kept. A `PageNum` has 32 bits, and the page numbers here are those
of a file with a last page before `2 ^ 32`. -/
structure ISAMTree (K V : Type) where
  fd : File K V
  rootPage : Nat
  lastDataPage : Nat
  reccnt : Nat
  tombstoneCnt : BitVec 64
  internalNodeCnt : Nat

namespace ISAMTree
variable {K V : Type} [LinearOrder K] [LinearOrder V]

section Defs
variable (lay : NodeLayout) (std : StdLib (Record K V))

/-- `create_sorted_runs`: one sorted page for each `LEAF_FANOUT` records of the view. -/
def createSortedRuns (v : BufferView (Record K V)) : List (File K V × Nat) :=
  (List.range (pageCount lay.leafFanout v.getRecordCount)).map fun j =>
    let start := j * lay.leafFanout
    let chunkSize := min lay.leafFanout (v.getRecordCount - start)
    let chunk := std.sort ((List.range chunkSize).map fun i => v.get (start + i))
    (File.empty.pwrite 0 (.data chunk), chunkSize)

/-- The part the two building constructors share: merge the runs, index the
data pages and write the header. -/
def build (shards : Bool) (runs : List (File K V × Nat)) (reccnt : Nat)
    (tombstoneCnt : BitVec 64) : Option (ISAMTree K V) := do
  let st ← externalMergeSort lay std shards runs File.empty
  let reccnt := reccnt - 2 * st.cancelled
  let lastDataPage := if 0 < reccnt then st.currPage else 0
  let (fd, rootPage) ←
    if 0 < reccnt then
      buildInternalLevels lay lastDataPage reccnt lastDataPage st.isam 1 lastDataPage
    else some (st.isam, 0)
  let internalNodeCnt := rootPage - lastDataPage
  some
    { fd := fd.pwrite 0 (.header rootPage lastDataPage reccnt internalNodeCnt)
      rootPage := rootPage
      lastDataPage := lastDataPage
      reccnt := reccnt
      tombstoneCnt := tombstoneCnt - BitVec.ofNat 64 st.cancelled
      internalNodeCnt := internalNodeCnt }

/-- `ISAMTree(BufferView<R>)`. -/
def ofBuffer (v : BufferView (Record K V)) : Option (ISAMTree K V) :=
  build lay std false (createSortedRuns lay std v) v.getRecordCount
    (BitVec.ofNat 64 v.getTombstoneCount)

/-- `ISAMTree(std::vector<ISAMTree *>)`. -/
def ofShards (shards : List (ISAMTree K V)) : Option (ISAMTree K V) :=
  build lay std true (shards.map fun s => (s.fd, s.reccnt)) (shards.map reccnt).sum
    (shards.map tombstoneCnt).sum

omit [LinearOrder K] [LinearOrder V] in
/-- `ISAMTree(std::string)` on the file a shard left. The tombstone count is
not in the header. -/
def ofFile (fd : File K V) : Option (ISAMTree K V) :=
  match fd 0 with
  | some (.header rootPage lastDataPage reccnt internalNodeCnt) =>
    some ⟨fd, rootPage, lastDataPage, reccnt, 0, internalNodeCnt⟩
  | _ => none

/-- The shards the constructors build. -/
inductive Built : ISAMTree K V → Prop where
  | buffer {v : BufferView (Record K V)} {t : ISAMTree K V} :
      ofBuffer lay std v = some t → Built t
  | shards {xs : List (ISAMTree K V)} {t : ISAMTree K V} :
      (∀ x ∈ xs, Built x) → ofShards lay std xs = some t → Built t
  | file {x t : ISAMTree K V} : Built x → ofFile x.fd = some t → Built t

omit [LinearOrder K] [LinearOrder V] in
/-- The records on the data pages, in page and slot order. -/
def records (t : ISAMTree K V) : List (Wrapped (Record K V)) :=
  (List.range t.reccnt).filterMap fun i =>
    match t.fd (i / lay.leafFanout + 1) with
    | some (.data recs) => recs[i % lay.leafFanout]?
    | _ => none

/-- The tree stores the records `recs` and can be searched and read back. -/
structure WellFormed (t : ISAMTree K V) (recs : List (Wrapped (Record K V))) : Prop where
  reccnt : t.reccnt = recs.length
  sorted : recs.Pairwise (fun a b => a.record ≤ b.record)
  lastDataPage : t.lastDataPage = pageCount lay.leafFanout recs.length
  holds : Holds lay.leafFanout 1 t.fd recs
  noPage : recs = [] → t.fd 1 = none
  index : recs ≠ [] → ∃ d, d < t.rootPage ∧
    Covers lay recs t.lastDataPage t.fd d t.rootPage 1 (t.lastDataPage + 1)
  noRoot : recs = [] → t.rootPage = 0
  header : t.fd 0 = some (.header t.rootPage t.lastDataPage t.reccnt t.internalNodeCnt)

end Defs

variable {lay : NodeLayout} {std : StdLib (Record K V)}

omit [LinearOrder K] [LinearOrder V] in
theorem holds_congr {lf : Nat} {f f' : File K V} {l : List (Wrapped (Record K V))}
    (h : Holds lf 1 f l) (hf : ∀ q, 1 ≤ q → f' q = f q) : Holds lf 1 f' l := by
  intro p hp
  rw [hf _ (Nat.le_add_left 1 p), h p hp]

/-- What a built shard stores: all records of its runs in record order, with
opposite neighbours cancelled. -/
def MergeOf (ls : List (List (Wrapped (Record K V)))) (recs : List (Wrapped (Record K V))) :
    Prop :=
  ∃ w, w.Perm ls.flatten ∧ w.Pairwise (fun a b => a.record ≤ b.record) ∧ recs = cancelPairs w

/-- What a merge of the sorted lists `ls` keeps: their records in the order in which the heap
gives them, with opposite neighbours cancelled -/
def mergedRecords (std : StdLib (Record K V)) (ls : List (List (Wrapped (Record K V)))) :
    List (Wrapped (Record K V)) := cancelPairs (KWay.start std.queue ls).order

theorem mergeOf_mergedRecords (std : StdLib (Record K V))
    {ls : List (List (Wrapped (Record K V)))}
    (hsort : ∀ l ∈ ls, l.Pairwise (fun a b => a.record ≤ b.record)) :
    MergeOf ls (mergedRecords std ls) := by
  obtain ⟨hperm, hsorted⟩ := KWay.State.order_spec (KWay.start_ready ls hsort)
  rw [KWay.start_content, Multiset.coe_eq_coe] at hperm
  exact ⟨_, hperm, hsorted, rfl⟩

/-- The tree that is built of the sorted lists `ls` by a constructor that counts
`tombstones` in its sources -/
structure MergedTree (lay : NodeLayout) (std : StdLib (Record K V))
    (ls : List (List (Wrapped (Record K V)))) (tombstones : BitVec 64) (t : ISAMTree K V) :
    Prop where
  wellFormed : WellFormed lay t (mergedRecords std ls)
  tombstoneCnt : ∃ cancelled, t.tombstoneCnt = tombstones - BitVec.ofNat 64 cancelled ∧
    (mergedRecords std ls).length + 2 * cancelled = ls.flatten.length

theorem build_of_nil {shards : Bool} {runs : List (File K V × Nat)} {reccnt : Nat}
    {tombstoneCnt : BitVec 64} {ls : List (List (Wrapped (Record K V)))} {st : MergeState std}
    (hst : externalMergeSort lay std shards runs File.empty = some st)
    (hm : Merged lay.leafFanout ls st []) (hlen : reccnt - 2 * st.cancelled = 0) :
    ∃ t, build lay std shards runs reccnt tombstoneCnt = some t ∧ WellFormed lay t [] ∧
      t.tombstoneCnt = tombstoneCnt - BitVec.ofNat 64 st.cancelled := by
  have hpc : pageCount lay.leafFanout ([] : List (Wrapped (Record K V))).length = 0 := by
    have hpos := lay.leafFanout_pos
    rw [List.length_nil, pageCount]
    exact Nat.div_eq_of_lt (by omega)
  refine ⟨⟨st.isam.pwrite 0 (.header 0 0 0 (0 - 0)), 0, 0, 0,
    tombstoneCnt - BitVec.ofNat 64 st.cancelled, 0 - 0⟩, ?_, ?_, rfl⟩
  · simp only [build, hst, hlen, Option.bind_eq_bind, Option.bind_some, if_neg (lt_irrefl 0)]
  · refine ⟨rfl, .nil, hpc.symm, fun p hp => ?_, fun _ => ?_, fun h => absurd rfl h, fun _ => rfl,
      by simp⟩
    · simp at hp
    · simp only
      rw [File.pwrite_of_ne _ _ (by decide)]
      exact hm.fresh 1 (Or.inr (by omega))

theorem build_of_ne_nil {shards : Bool} {runs : List (File K V × Nat)} {reccnt : Nat}
    {tombstoneCnt : BitVec 64} {ls : List (List (Wrapped (Record K V)))} {st : MergeState std}
    {out : List (Wrapped (Record K V))}
    (hst : externalMergeSort lay std shards runs File.empty = some st)
    (hm : Merged lay.leafFanout ls st out) (hlen : reccnt - 2 * st.cancelled = out.length)
    (hne : out ≠ []) (hsorted : out.Pairwise fun a b => a.record ≤ b.record) :
    ∃ t, build lay std shards runs reccnt tombstoneCnt = some t ∧ WellFormed lay t out ∧
      t.tombstoneCnt = tombstoneCnt - BitVec.ofNat 64 st.cancelled := by
  have hpos : 0 < out.length := List.length_pos_iff.mpr hne
  have hcur := hm.last hne
  have hpc : 0 < st.currPage := by
    rw [hcur, lt_pageCount_iff lay.leafFanout_pos]
    simpa using hpos
  obtain ⟨fd, root, d, hbuild, hf, hkeep, hcov, hd⟩ :=
    buildInternalLevels_spec hcur st.currPage 0 st.currPage st.isam hm.holds 1 st.currPage 1
      (st.currPage + 1) hpc (Nat.le_refl _) (Nat.add_comm _ _) Nat.one_pos (Nat.le_refl _)
      (tiles_data st.isam 1 st.currPage (Nat.le_refl 1) (Nat.add_comm _ _))
  set fd' := fd.pwrite 0 (.header root st.currPage out.length (root - st.currPage)) with hfd'
  have hsame : ∀ q, 1 ≤ q → fd' q = fd q := fun q hq =>
    File.pwrite_of_ne _ _ (Nat.ne_of_gt hq)
  refine ⟨⟨fd', root, st.currPage, out.length,
    tombstoneCnt - BitVec.ofNat 64 st.cancelled, root - st.currPage⟩, ?_, ?_, rfl⟩
  · simp only [build, hst, hlen, Option.bind_eq_bind, Option.bind_some, if_pos hpos, hbuild, hfd']
  · exact ⟨rfl, hsorted, hcur, holds_congr hf hsame, fun h => absurd h hne,
      fun _ => ⟨d, hd, hcov.congr fun q h1 _ => hsame q h1⟩, fun h => absurd h hne,
      by simp only [hfd', File.pwrite_self]⟩

variable (std) in
theorem build_spec (shards : Bool) {runs : List (File K V × Nat)}
    {ls : List (List (Wrapped (Record K V)))} (reccnt : Nat) (tombstoneCnt : BitVec 64)
    (hruns : List.Forall₂ (fun r l => Holds lay.leafFanout (if shards then 1 else 0) r.1 l ∧
      r.2 = l.length) runs ls) (hne : ∀ l ∈ ls, l ≠ [])
    (hsort : ∀ l ∈ ls, l.Pairwise (fun a b => a.record ≤ b.record))
    (hcnt : reccnt = ls.flatten.length) :
    ∃ t, build lay std shards runs reccnt tombstoneCnt = some t ∧
      MergedTree lay std ls tombstoneCnt t := by
  obtain ⟨st, hst, hm⟩ := externalMergeSort_order std hruns hne hsort
  rw [← mergedRecords] at hm
  have hlen : reccnt - 2 * st.cancelled = (mergedRecords std ls).length := by
    have := hm.length
    omega
  have hbuild : ∃ t, build lay std shards runs reccnt tombstoneCnt = some t ∧
      WellFormed lay t (mergedRecords std ls) ∧
      t.tombstoneCnt = tombstoneCnt - BitVec.ofNat 64 st.cancelled := by
    by_cases hnil : mergedRecords std ls = []
    · rw [hnil] at hm hlen ⊢
      exact build_of_nil hst hm hlen
    · obtain ⟨w, -, hw, hcancel⟩ := hm.order
      exact build_of_ne_nil hst hm hlen hnil (hcancel ▸ hw.sublist (cancelPairs_sublist w))
  obtain ⟨t, ht, hwf, htomb⟩ := hbuild
  exact ⟨t, ht, hwf, st.cancelled, htomb, hm.length⟩

omit [LinearOrder K] [LinearOrder V] in
theorem chunk_eq_pageOf (v : BufferView (Record K V)) (j : Nat) :
    ((List.range (min lay.leafFanout (v.getRecordCount - j * lay.leafFanout))).map
      fun i => v.get (j * lay.leafFanout + i)) = pageOf lay.leafFanout v.records j := by
  apply List.ext_getElem?
  intro i
  by_cases hi : i < lay.leafFanout
  · rw [getElem?_pageOf_of_lt _ _ _ hi, BufferView.records, List.getElem?_map, List.getElem?_map]
    by_cases hn : j * lay.leafFanout + i < v.getRecordCount
    · rw [List.getElem?_range (by omega), List.getElem?_range hn]
      rfl
    · rw [List.getElem?_eq_none (by simp; omega), List.getElem?_eq_none (by simp; omega)]
      rfl
  · rw [List.getElem?_eq_none (by simp; omega),
      List.getElem?_eq_none (by rw [length_pageOf]; omega)]

theorem flatten_pages {α : Type} {lf : Nat} (hlf : 0 < lf) (l : List α) :
    ((List.range (pageCount lf l.length)).map (pageOf lf l)).flatten = l := by
  have hmain : ∀ k, ((List.range k).map (pageOf lf l)).flatten = l.take (k * lf) := by
    intro k
    induction k with
    | zero => simp
    | succ k ih =>
      rw [List.range_succ, List.map_append, List.flatten_append, ih, Nat.succ_mul, List.take_add]
      simp [pageOf]
  rw [hmain, List.take_of_length_le]
  by_contra h
  exact Nat.lt_irrefl _ ((lt_pageCount_iff hlf).mpr (Nat.lt_of_not_le h))

/-- The lists on the runs of a view -/
def bufferRuns (lay : NodeLayout) (std : StdLib (Record K V)) (v : BufferView (Record K V)) :
    List (List (Wrapped (Record K V))) :=
  (List.range (pageCount lay.leafFanout v.getRecordCount)).map
    fun j => std.sort (pageOf lay.leafFanout v.records j)

variable (lay std) in
theorem bufferRuns_sorted (v : BufferView (Record K V)) :
    ∀ l ∈ bufferRuns lay std v, l.Pairwise (fun a b => a.record ≤ b.record) := by
  intro l hl
  obtain ⟨j, -, rfl⟩ := List.mem_map.mp hl
  exact std.sort_sorted _

variable (lay std) in
theorem bufferRuns_perm (v : BufferView (Record K V)) :
    (bufferRuns lay std v).flatten.Perm v.records := by
  have hpages := flatten_pages lay.leafFanout_pos v.records
  rw [v.length_records] at hpages
  have hperm : ∀ js : List Nat,
      ((js.map fun j => std.sort (pageOf lay.leafFanout v.records j)).flatten).Perm
        ((js.map (pageOf lay.leafFanout v.records)).flatten) := by
    intro js
    induction js with
    | nil => exact List.Perm.refl _
    | cons j js ih => exact (std.sort_perm _).append ih
  exact (hperm _).trans (by rw [hpages])

variable (lay std) in
theorem createSortedRuns_spec (v : BufferView (Record K V)) :
    List.Forall₂ (fun r l => Holds lay.leafFanout 0 r.1 l ∧ r.2 = l.length)
        (createSortedRuns lay std v) (bufferRuns lay std v) ∧
      ∀ l ∈ bufferRuns lay std v, l ≠ [] := by
  have hpos := lay.leafFanout_pos
  have hlen := v.length_records
  refine ⟨?_, ?_⟩
  · rw [createSortedRuns, bufferRuns, List.forall₂_map_left_iff, List.forall₂_map_right_iff,
      List.forall₂_same]
    intro j hj
    simp only [chunk_eq_pageOf]
    have hl := (std.sort_perm (pageOf lay.leafFanout v.records j)).length_eq
    rw [length_pageOf, hlen] at hl
    refine ⟨fun p hp => ?_, hl.symm⟩
    have hp0 : p = 0 := by
      rcases Nat.eq_zero_or_pos p with h | h
      · exact h
      · have := Nat.le_mul_of_pos_left lay.leafFanout h
        omega
    subst hp0
    have hone : pageOf lay.leafFanout (std.sort (pageOf lay.leafFanout v.records j)) 0 =
        std.sort (pageOf lay.leafFanout v.records j) := by
      rw [pageOf, Nat.zero_mul, List.drop_zero, List.take_of_length_le (by omega)]
    rw [hone]
    exact File.pwrite_self _ _ _
  · intro l hl hnil
    obtain ⟨j, hj, rfl⟩ := List.mem_map.mp hl
    have hlt := (lt_pageCount_iff hpos).mp (List.mem_range.mp hj)
    have hlj := (std.sort_perm (pageOf lay.leafFanout v.records j)).length_eq
    rw [hnil, length_pageOf, hlen, List.length_nil] at hlj
    omega

variable (lay std) in
/-- A shard can be built from every view. -/
theorem ofBuffer_spec (v : BufferView (Record K V)) :
    ∃ t, ofBuffer lay std v = some t ∧
      MergedTree lay std (bufferRuns lay std v) (BitVec.ofNat 64 v.getTombstoneCount) t := by
  obtain ⟨hruns, hne⟩ := createSortedRuns_spec lay std v
  exact build_spec std false _ _ hruns hne (bufferRuns_sorted lay std v)
    (by rw [(bufferRuns_perm lay std v).length_eq, v.length_records])

variable (lay std) in
theorem mergeOf_bufferRuns (v : BufferView (Record K V)) :
    MergeOf [v.records] (mergedRecords std (bufferRuns lay std v)) := by
  obtain ⟨w, hw, hsorted, hrecs⟩ := mergeOf_mergedRecords std (bufferRuns_sorted lay std v)
  exact ⟨w, by simpa using hw.trans (bufferRuns_perm lay std v), hsorted, hrecs⟩

theorem net_mergeOf {ls : List (List (Wrapped (Record K V)))}
    {recs : List (Wrapped (Record K V))} (h : MergeOf ls recs) : net recs = (ls.map net).sum := by
  obtain ⟨w, hw, -, rfl⟩ := h
  rw [net_cancelPairs, net_perm hw, net_flatten]

/-- The tree's data pages: all but the last hold `LEAF_FANOUT` records, and the last
one holds at least one. -/
structure DataPages (lay : NodeLayout) (t : ISAMTree K V)
    (pages : List (List (Wrapped (Record K V)))) : Prop where
  reccnt : t.reccnt = pages.flatten.length
  lastDataPage : t.lastDataPage = pages.length
  stored : ∀ p page, pages[p]? = some page → t.fd (p + 1) = some (.data page)
  full : ∀ p page, pages[p]? = some page → p + 1 < pages.length → page.length = lay.leafFanout
  nonempty : ∀ page ∈ pages, 0 < page.length ∧ page.length ≤ lay.leafFanout

theorem WellFormed.dataPages {t : ISAMTree K V} {recs : List (Wrapped (Record K V))}
    (h : WellFormed lay t recs) : ∃ pages, DataPages lay t pages ∧ pages.flatten = recs := by
  have hpos := lay.leafFanout_pos
  set n := pageCount lay.leafFanout recs.length with hn
  have hflat := flatten_pages hpos recs
  have hlt : ∀ p < n, p * lay.leafFanout < recs.length := fun p hp => (lt_pageCount_iff hpos).mp hp
  have hget : ∀ p page, ((List.range n).map (pageOf lay.leafFanout recs))[p]? = some page →
      p < n ∧ page = pageOf lay.leafFanout recs p := by
    intro p page hp
    rw [List.getElem?_map] at hp
    obtain ⟨q, hq, rfl⟩ := Option.map_eq_some_iff.mp hp
    obtain ⟨hin, rfl⟩ := List.getElem?_eq_some_iff.mp hq
    rw [List.length_range] at hin
    rw [List.getElem_range]
    exact ⟨hin, rfl⟩
  refine ⟨(List.range n).map (pageOf lay.leafFanout recs), ⟨?_, ?_, fun p page hp => ?_,
    fun p page hp hnext => ?_, fun page hp => ?_⟩, hflat⟩
  · rw [hflat, h.reccnt]
  · rw [h.lastDataPage, List.length_map, List.length_range]
  · obtain ⟨hin, rfl⟩ := hget p page hp
    exact h.holds p (hlt p hin)
  · obtain ⟨-, rfl⟩ := hget p page hp
    rw [List.length_map, List.length_range] at hnext
    have := hlt (p + 1) hnext
    rw [Nat.succ_mul] at this
    rw [length_pageOf]
    omega
  · obtain ⟨p, hin, rfl⟩ := List.mem_map.mp hp
    have := hlt p (List.mem_range.mp hin)
    rw [length_pageOf]
    omega

variable (lay std) in
/-- Building a shard from a view keeps the view's contents. -/
theorem ofBuffer_dataPages (v : BufferView (Record K V)) :
    ∃ t pages, ofBuffer lay std v = some t ∧ DataPages lay t pages ∧
      pages.flatten.Pairwise (fun a b => a.record ≤ b.record) ∧
      net pages.flatten = net v.records := by
  obtain ⟨t, ht, hm⟩ := ofBuffer_spec lay std v
  obtain ⟨pages, hpages, hflat⟩ := hm.wellFormed.dataPages
  refine ⟨t, pages, ht, hpages, hflat ▸ hm.wellFormed.sorted, ?_⟩
  rw [hflat, net_mergeOf (mergeOf_bufferRuns lay std v)]
  simp

theorem sorted_of_wellFormed {xs : List (ISAMTree K V)}
    {ls : List (List (Wrapped (Record K V)))}
    (h : List.Forall₂ (fun x l => WellFormed lay x l) xs ls) :
    ∀ l ∈ ls, l.Pairwise (fun a b => a.record ≤ b.record) := by
  induction h with
  | nil => simp
  | cons hx _ ih => simpa using ⟨hx.sorted, ih⟩

variable (std) in
theorem ofShards_spec {xs : List (ISAMTree K V)} {ls : List (List (Wrapped (Record K V)))}
    (h : List.Forall₂ (fun x l => WellFormed lay x l) xs ls) (hne : ∀ l ∈ ls, l ≠ []) :
    ∃ t, ofShards lay std xs = some t ∧
      MergedTree lay std ls (xs.map tombstoneCnt).sum t := by
  apply build_spec std true
  · rw [List.forall₂_map_left_iff]
    exact h.imp fun x l hx => ⟨hx.holds, hx.reccnt⟩
  · exact hne
  · exact sorted_of_wellFormed h
  · clear hne
    induction h with
    | nil => rfl
    | cons hx _ ih => simp [hx.reccnt, ih]

theorem ofShards_eq_none {xs : List (ISAMTree K V)} {x : ISAMTree K V} (hx : x ∈ xs)
    (h : WellFormed lay x []) : ofShards lay std xs = none := by
  obtain ⟨i, hi⟩ := List.mem_iff_getElem?.mp hx
  have hmap : (xs.map fun s => (s.fd, s.reccnt))[i]? = some (x.fd, x.reccnt) := by
    rw [List.getElem?_map, hi]
    rfl
  have hinit := mergeInit_eq_none lay std true File.empty hmap (h.noPage rfl)
  simp only [ofShards, build, externalMergeSort, hinit]
  rfl

theorem WellFormed.ofFile {t : ISAMTree K V} {recs : List (Wrapped (Record K V))}
    (h : WellFormed lay t recs) :
    ∃ t', ISAMTree.ofFile t.fd = some t' ∧ t'.fd = t.fd ∧ t'.reccnt = t.reccnt ∧
      WellFormed lay t' recs := by
  refine ⟨⟨t.fd, t.rootPage, t.lastDataPage, t.reccnt, 0, t.internalNodeCnt⟩, ?_, rfl, rfl,
    h.reccnt, h.sorted, h.lastDataPage, h.holds, h.noPage, h.index, h.noRoot, h.header⟩
  rw [ISAMTree.ofFile, h.header]

theorem Built.wellFormed {t : ISAMTree K V} (h : Built lay std t) :
    ∃ recs, WellFormed lay t recs := by
  induction h with
  | @buffer v t ht =>
    obtain ⟨t', ht', hm⟩ := ofBuffer_spec lay std v
    rw [ht, Option.some.injEq] at ht'
    exact ⟨_, ht' ▸ hm.wellFormed⟩
  | @shards xs t hxs ht ih =>
    have hls : ∃ ls, List.Forall₂ (fun x l => WellFormed lay x l) xs ls := by
      clear hxs ht
      induction xs with
      | nil => exact ⟨[], List.Forall₂.nil⟩
      | cons x xs ihx =>
        obtain ⟨l, hl⟩ := ih x (by simp)
        obtain ⟨ls, hls⟩ := ihx fun y hy => ih y (by simp [hy])
        exact ⟨l :: ls, List.Forall₂.cons hl hls⟩
    obtain ⟨ls, hls⟩ := hls
    have hne : ∀ l ∈ ls, l ≠ [] := by
      rintro l hl rfl
      obtain ⟨i, hi⟩ := List.mem_iff_getElem?.mp hl
      obtain ⟨x, hx, hwf⟩ := forall₂_getElem? hls hi
      rw [ofShards_eq_none (List.mem_of_getElem? hx) hwf] at ht
      exact absurd ht (by simp)
    obtain ⟨t', ht', hm⟩ := ofShards_spec std hls hne
    rw [ht, Option.some.injEq] at ht'
    exact ⟨_, ht' ▸ hm.wellFormed⟩
  | @file x t hx ht ih =>
    obtain ⟨recs, hwf⟩ := ih
    obtain ⟨t', ht', -, -, hwf'⟩ := hwf.ofFile
    rw [ht, Option.some.injEq] at ht'
    exact ⟨recs, ht' ▸ hwf'⟩

omit [LinearOrder K] [LinearOrder V] in
theorem filterMap_range_getElem? (l : List (Wrapped (Record K V))) :
    (List.range l.length).filterMap (fun i => l[i]?) = l := by
  induction l using List.reverseRecOn with
  | nil => rfl
  | append_singleton l a ih =>
    have hcongr : (List.range l.length).filterMap (fun i => (l ++ [a])[i]?) =
        (List.range l.length).filterMap (fun i => l[i]?) := by
      apply List.filterMap_congr
      intro i hi
      rw [List.getElem?_append_left (List.mem_range.mp hi)]
    rw [List.length_append, List.length_singleton, List.range_succ, List.filterMap_append, hcongr,
      ih]
    simp

theorem WellFormed.records_eq {t : ISAMTree K V} {recs : List (Wrapped (Record K V))}
    (h : WellFormed lay t recs) : t.records lay = recs := by
  have hpos := lay.leafFanout_pos
  have hslot : ∀ i ∈ List.range t.reccnt, (match t.fd (i / lay.leafFanout + 1) with
      | some (.data recs) => recs[i % lay.leafFanout]?
      | _ => none) = recs[i]? := by
    intro i hi
    rw [List.mem_range, h.reccnt] at hi
    rw [h.holds _ (Nat.lt_of_le_of_lt (Nat.div_mul_le_self i _) hi)]
    exact getElem?_pageOf hpos recs i
  rw [records, List.filterMap_congr hslot, h.reccnt, filterMap_range_getElem?]

theorem ofBuffer_isSome (v : BufferView (Record K V)) : (ofBuffer lay std v).isSome := by
  obtain ⟨t, ht, -⟩ := ofBuffer_spec lay std v
  rw [ht]
  rfl

/-- The shard built from a view. -/
def bufferShard (lay : NodeLayout) (std : StdLib (Record K V)) (v : BufferView (Record K V)) :
    ISAMTree K V := (ofBuffer lay std v).get (ofBuffer_isSome v)

theorem built_bufferShard (v : BufferView (Record K V)) :
    Built lay std (bufferShard lay std v) :=
  Built.buffer (Option.some_get (ofBuffer_isSome v)).symm

theorem exists_wellFormed {xs : List (ISAMTree K V)} (h : ∀ x ∈ xs, Built lay std x) :
    List.Forall₂ (fun x l => WellFormed lay x l) xs (xs.map (records lay)) := by
  rw [List.forall₂_map_right_iff, List.forall₂_same]
  intro x hx
  obtain ⟨recs, hwf⟩ := (h x hx).wellFormed
  rw [hwf.records_eq]
  exact hwf

/-- The merging constructor ends with data pages that hold, in record order,
the records of the shards less the cancelled pairs. -/
def MergePreserves (lay : NodeLayout) (std : StdLib (Record K V)) (xs : List (ISAMTree K V)) :
    Prop :=
  ∃ t, ofShards lay std xs = some t ∧ (t.records lay).length = t.reccnt ∧
    (t.records lay).Pairwise (fun a b => a.record ≤ b.record) ∧
    net (t.records lay) = (xs.map fun x => net (x.records lay)).sum ∧
    ∃ w, w.Perm (xs.flatMap (records lay)) ∧ t.records lay = cancelPairs w

/-- Merging works on exactly the lists without a shard that has no record. -/
theorem mergePreserves_iff (xs : List (ISAMTree K V)) (h : ∀ x ∈ xs, Built lay std x) :
    MergePreserves lay std xs ↔ ∀ x ∈ xs, 0 < x.reccnt := by
  have hwf := exists_wellFormed h
  constructor
  · rintro ⟨t, ht, -⟩ x hx
    obtain ⟨recs, hx'⟩ := (h x hx).wellFormed
    by_contra hpos
    have hnil : recs = [] := List.length_eq_zero_iff.mp (by rw [← hx'.reccnt]; omega)
    rw [ofShards_eq_none hx (hnil ▸ hx')] at ht
    exact absurd ht (by simp)
  · intro hpos
    have hne : ∀ l ∈ xs.map (records lay), l ≠ [] := by
      rintro l hl rfl
      obtain ⟨x, hx, hnil⟩ := List.mem_map.mp hl
      obtain ⟨recs, hx'⟩ := (h x hx).wellFormed
      have hcnt := hpos x hx
      rw [hx'.records_eq] at hnil
      simp [hx'.reccnt, hnil] at hcnt
    obtain ⟨t, ht, hm⟩ := ofShards_spec std hwf hne
    have ht' := hm.wellFormed
    have hof := mergeOf_mergedRecords std (sorted_of_wellFormed hwf)
    have hnet := net_mergeOf hof
    obtain ⟨w, hw, -, hcp⟩ := hof
    refine ⟨t, ht, ?_⟩
    rw [ht'.records_eq]
    refine ⟨ht'.reccnt.symm, ht'.sorted, ?_, w, ?_, hcp⟩
    · rw [hnet, List.map_map]
      rfl
    · rwa [List.flatMap_def]

end ISAMTree

/-- The node sizes for 8-byte keys and values. -/
def NodeLayout.words : NodeLayout :=
  ⟨4096, 24, 341, by decide, by decide, by decide⟩

/-- A library whose sort is insertion sort and whose queue is a sorted list. -/
def StdLib.sorted (R : Type) [LinearOrder R] : StdLib R where
  sort l := l.insertionSort (fun a b => a.record ≤ b.record)
  sort_perm l := List.perm_insertionSort _ l
  sort_sorted l := by
    have : Std.Total (fun a b : Wrapped R => a.record ≤ b.record) := ⟨fun a b => le_total _ _⟩
    have : IsTrans (Wrapped R) (fun a b => a.record ≤ b.record) :=
      ⟨fun _ _ _ h₁ h₂ => le_trans h₁ h₂⟩
    exact List.pairwise_insertionSort _ l
  queue := PQ.PriorityQueue.sorted _

def BufferView.ofList {R : Type} [Zero R] (l : List (Wrapped R)) : BufferView R :=
  ⟨fun i => l.getD i 0, 0, l.length, 2 * (l.length + 1), l.countP (·.isTombstone)⟩

namespace ISAMTree

/-- The shard of a view with these insertions and deletions. -/
def sampleShard (l : List (Nat × Nat × Bool)) : ISAMTree Nat Nat :=
  bufferShard NodeLayout.words (StdLib.sorted _)
    (BufferView.ofList (l.map fun c => Wrapped.fresh ⟨c.1, c.2.1⟩ c.2.2))

theorem mergePreserves_iff_sample :
    MergePreserves NodeLayout.words (StdLib.sorted _)
        [sampleShard [(1, 5, false), (3, 7, true)], sampleShard [(2, 6, false), (3, 7, false)]] ↔
      ∀ x ∈ [sampleShard [(1, 5, false), (3, 7, true)], sampleShard [(2, 6, false), (3, 7, false)]],
        0 < x.reccnt := by
  apply mergePreserves_iff
  intro x hx
  rcases List.mem_cons.mp hx with rfl | hx
  · exact built_bufferShard _
  · rw [List.mem_singleton.mp hx]
    exact built_bufferShard _

/-- A flush of one record and its tombstone leaves a shard that no merge takes. -/
theorem not_mergePreserves_cancelled :
    (∀ x ∈ [sampleShard [(1, 5, false), (1, 5, true)], sampleShard [(2, 6, false), (3, 7, false)]],
      Built NodeLayout.words (StdLib.sorted _) x) ∧
    ¬ MergePreserves NodeLayout.words (StdLib.sorted _)
      [sampleShard [(1, 5, false), (1, 5, true)], sampleShard [(2, 6, false), (3, 7, false)]] := by
  refine ⟨fun x hx => ?_, ?_⟩
  · rcases List.mem_cons.mp hx with rfl | hx
    · exact built_bufferShard _
    · rw [List.mem_singleton.mp hx]
      exact built_bufferShard _
  rintro ⟨t, ht, -⟩
  have hnone : (ofShards NodeLayout.words (StdLib.sorted _)
      [sampleShard [(1, 5, false), (1, 5, true)],
        sampleShard [(2, 6, false), (3, 7, false)]]).isNone = true := by decide +kernel
  rw [ht] at hnone
  exact absurd hnone (by simp)

end ISAMTree

end De
