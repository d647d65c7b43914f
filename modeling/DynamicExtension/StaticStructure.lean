import DynamicExtension.Cancellation
import DynamicExtension.RangeScan
set_option autoImplicit false

namespace De

theorem mapM_eq_some_iff {α β : Type} {f : α → Option β} {as : List α} {bs : List β} :
    as.mapM f = some bs ↔ List.Forall₂ (fun a b => f a = some b) as bs := by
  induction as generalizing bs with
  | nil => cases bs <;> simp
  | cons a as ih =>
    rw [List.mapM_cons, List.forall₂_cons_left_iff]
    simp only [Option.bind_eq_bind, Option.bind_eq_some_iff, Option.pure_def, Option.some.injEq, ih]
    constructor
    · rintro ⟨b, hb, bs', hbs, rfl⟩
      exact ⟨b, bs', hb, hbs, rfl⟩
    · rintro ⟨b, bs', hb, hbs, rfl⟩
      exact ⟨b, hb, bs', hbs, rfl⟩

theorem exists_forall₂ {α β : Type} {P : α → β → Prop} {as : List α}
    (h : ∀ a ∈ as, ∃ b, P a b) : ∃ bs, List.Forall₂ P as bs := by
  induction as with
  | nil => exact ⟨[], .nil⟩
  | cons a as ih =>
    obtain ⟨b, hb⟩ := h a (by simp)
    obtain ⟨bs, hbs⟩ := ih fun a ha => h a (by simp [ha])
    exact ⟨b :: bs, .cons hb hbs⟩

theorem forall₂_mem {α β : Type} {P : α → β → Prop} {as : List α} {bs : List β}
    (h : List.Forall₂ P as bs) {b : β} (hb : b ∈ bs) : ∃ a ∈ as, P a b := by
  obtain ⟨i, hi⟩ := List.mem_iff_getElem?.mp hb
  obtain ⟨a, ha, hab⟩ := forall₂_getElem? h hi
  exact ⟨a, List.mem_of_getElem? ha, hab⟩

section Defs
variable {R : Type} [DecidableEq R] {T : ShardType R} {L : LayoutPolicy}

/-- `get_combined_shard`; the inner `none` is a null pointer. -/
def InternalLevel.getCombinedShard (l : InternalLevel T) : Option (Option T.Shard) :=
  if l.shardCnt = 0 then some none
  else (T.ofShards l.live).map some

namespace DynamicExtension

/-- `await_next_epoch`. On the calling thread a wait for the next epoch has no end. -/
def awaitNextEpoch (d : DynamicExtension T L) : Option Unit := guard d.nextEpoch.epoch.isNone

/-- One shard for each level with records, the deepest first; to merge a null
pointer is fatal. -/
def combinedShards (levels : List (InternalLevel T)) : Option (List T.Shard) :=
  (levels.reverse.filter fun l => l.getRecordCount > 0).mapM fun l => l.getCombinedShard.join

def createStaticStructure (awaitReconstructionCompletion : Bool) (d : DynamicExtension T L) :
    Option (T.Shard × DynamicExtension T L) := do
  if awaitReconstructionCompletion then
    d.awaitNextEpoch
  let (epoch, d) ← d.getActiveEpoch
  let shards ← combinedShards epoch.vers.levels
  let (bv, buffer) ← d.buffer.getBufferView epoch.bufferHead
  let shards := if bv.getRecordCount > 0 then shards ++ [T.ofBuffer bv] else shards
  let buffer ← buffer.releaseHeadReference bv.head
  let flattened ← T.ofShards shards
  let d ← { d with buffer := buffer }.endJob epoch
  return (flattened, d)

theorem combinedShards_eq_some {levels : List (InternalLevel T)} {shards : List T.Shard} :
    combinedShards levels = some shards ↔
      List.Forall₂ (fun l x => T.ofShards l.live = some x)
        (levels.reverse.filter fun l => l.getRecordCount > 0) shards := by
  have hjoin : ∀ l : InternalLevel T, l.getRecordCount > 0 →
      l.getCombinedShard.join = T.ofShards l.live := by
    intro l hl
    have hcnt : l.shardCnt ≠ 0 := by
      intro h0
      rw [InternalLevel.getRecordCount_eq, (InternalLevel.shardCnt_eq_zero l).mp h0] at hl
      simp at hl
    rw [InternalLevel.getCombinedShard, if_neg hcnt]
    cases T.ofShards l.live <;> rfl
  have hpos : ∀ l ∈ levels.reverse.filter (fun l => l.getRecordCount > 0),
      l.getRecordCount > 0 := fun l hl => by simpa using (List.mem_filter.mp hl).2
  rw [combinedShards, mapM_eq_some_iff]
  generalize levels.reverse.filter (fun l => l.getRecordCount > 0) = ls at hpos ⊢
  constructor
  · intro h
    refine ((List.forall₂_and_left ls shards).mpr ⟨hpos, h⟩).imp fun l x ⟨hl, hx⟩ => ?_
    rw [← hjoin l hl, hx]
  · intro h
    refine ((List.forall₂_and_left ls shards).mpr ⟨hpos, h⟩).imp fun l x ⟨hl, hx⟩ => ?_
    rw [hjoin l hl, hx]

/-- What the flattened shard is merged of -/
def flattened (levels : List (InternalLevel T)) (bv : BufferView R) : Option T.Shard := do
  let shards ← combinedShards levels
  T.ofShards (if bv.getRecordCount > 0 then shards ++ [T.ofBuffer bv] else shards)

omit [DecidableEq R] in
theorem sum_map_filter {α : Type} {f : α → R → ℤ} {p : α → Bool} (h : ∀ a, p a = false → f a = 0)
    (as : List α) : ((as.filter p).map f).sum = (as.map f).sum := by
  induction as with
  | nil => rfl
  | cons a as ih =>
    cases hp : p a with
    | false => simp [hp, ih, h a hp]
    | true => simp [hp, ih]

theorem net_of_getRecordCount {l : InternalLevel T} (h : ¬ l.getRecordCount > 0) : l.net = 0 := by
  rw [InternalLevel.getRecordCount_eq, not_lt, Nat.le_zero, List.sum_eq_zero_iff] at h
  refine List.sum_eq_zero fun f hf => ?_
  obtain ⟨x, hx, rfl⟩ := List.mem_map.mp hf
  have hcnt := h _ (List.mem_map_of_mem hx)
  rw [T.recordCount_eq, List.length_eq_zero_iff] at hcnt
  rw [hcnt]
  rfl

theorem flattened_net {levels : List (InternalLevel T)} {bv : BufferView R} {x : T.Shard}
    (h : flattened levels bv = some x) :
    net (T.records x) = (levels.map InternalLevel.net).sum + net bv.records := by
  obtain ⟨shards, hshards, hx⟩ := Option.bind_eq_some_iff.mp h
  have hlevels : (shards.map fun y => net (T.records y)).sum =
      (levels.map InternalLevel.net).sum := by
    have hnets : ((levels.reverse.filter fun l => l.getRecordCount > 0).map
        InternalLevel.net).sum = (shards.map fun y => net (T.records y)).sum := by
      have hmerged := combinedShards_eq_some.mp hshards
      clear hshards hx
      generalize levels.reverse.filter (fun l => l.getRecordCount > 0) = ls at hmerged
      induction hmerged with
      | nil => rfl
      | cons hl _ ih =>
        rw [List.map_cons, List.map_cons, List.sum_cons, List.sum_cons, ih, T.ofShards_net _ _ hl]
        rfl
    rw [← hnets, sum_map_filter fun l hl => net_of_getRecordCount (by simpa using hl)]
    exact ((List.reverse_perm levels).map _).sum_eq
  rw [T.ofShards_net _ _ hx]
  split
  · rw [List.map_append, List.sum_append, hlevels, List.map_singleton, List.sum_singleton,
      T.ofBuffer_net]
  · rename_i hcnt
    have hnil : bv.records = [] := by
      rw [← List.length_eq_zero_iff, bv.length_records]
      omega
    rw [hlevels, hnil, net_nil, add_zero]

theorem Idle.createStaticStructure {d : DynamicExtension T L} {e : Epoch T L} {pins oldPins : Nat}
    (h : Idle d e pins oldPins) (await : Bool) :
    d.createStaticStructure await =
      (flattened e.vers.levels (e.view d.buffer)).map fun x => (x, d) := by
  have hawait : d.awaitNextEpoch = some () := by simp [awaitNextEpoch, h.next, guard]
  have hrel : MutableBuffer.releaseHeadReference { d.buffer with head := ⟨e.bufferHead, 1⟩ }
      (e.view d.buffer).head = some d.buffer := h.releaseHeadReference
  have hrun : d.createStaticStructure false =
      (flattened e.vers.levels (e.view d.buffer)).map fun x => (x, d) := by
    simp only [DynamicExtension.createStaticStructure, flattened, Option.pure_def,
      h.getActiveEpoch, h.getBufferView, Option.bind_eq_bind, Option.bind_some]
    cases combinedShards e.vers.levels with
    | none => rfl
    | some shards =>
      simp only [Bool.false_eq_true, if_false, Option.bind_some, hrel, h.endJob_active]
      rw [Option.map_eq_bind]
      rfl
  cases await with
  | false => exact hrun
  | true =>
    rw [← hrun]
    simp only [DynamicExtension.createStaticStructure, if_true, hawait, Option.bind_eq_bind,
      Option.bind_some, Bool.false_eq_true, if_false]

end DynamicExtension

end Defs

variable {K V : Type} [LinearOrder K] [LinearOrder V] {lay : NodeLayout}
variable {std : StdLib (Record K V)} {L : LayoutPolicy}

/-- Of some record a copy stays when the sorted lists `ls` are merged. -/
def Keeps (std : StdLib (Record K V)) (ls : List (List (Wrapped (Record K V)))) : Prop :=
  ∃ r, leaves false (tieOrder std ls r) = false ∨ leaves true (tieOrder std ls r) = false

theorem keeps_iff {ls : List (List (Wrapped (Record K V)))}
    (hsort : ∀ l ∈ ls, l.Pairwise (fun a b => a.record ≤ b.record)) :
    Keeps std ls ↔ ISAMTree.mergedRecords std ls ≠ [] := by
  obtain ⟨-, hsorted⟩ := KWay.State.order_spec
    (show (KWay.start std.queue ls).Ready from KWay.start_ready ls hsort)
  have hcopies : ∀ r, ∀ w ∈ ((KWay.start std.queue ls).order.filter fun w => w.record = r),
      w.record = r := fun r w hw => by simpa using (List.mem_filter.mp hw).2
  have hleaves : ∀ r b, leaves b (tieOrder std ls r) = false ↔
      ∃ w ∈ ISAMTree.mergedRecords std ls, w.record = r ∧ w.isTombstone ≠ b := by
    intro r b
    rw [← Bool.not_eq_true, tieOrder, leaves_iff (hcopies r), ← filter_cancelPairs hsorted]
    simp [ISAMTree.mergedRecords]
  simp only [Keeps, hleaves]
  constructor
  · rintro ⟨r, ⟨w, hw, -⟩ | ⟨w, hw, -⟩⟩ <;> exact List.ne_nil_of_mem hw
  · intro hne
    obtain ⟨w, hw⟩ := List.exists_mem_of_ne_nil _ hne
    cases ht : w.isTombstone with
    | false => exact ⟨w.record, .inr ⟨w, hw, rfl, by simp [ht]⟩⟩
    | true => exact ⟨w.record, .inl ⟨w, hw, rfl, by simp [ht]⟩⟩

/-- A merge keeps a record of each source that it has, and something is left of each
level with records and of the buffer. -/
structure FlattenOk (levels : List (InternalLevel (ISAMTree.shardType lay std)))
    (bv : BufferView (Record K V)) : Prop where
  full : ∀ l ∈ levels, l.getRecordCount > 0 →
    ∀ x ∈ l.live, 0 < (ISAMTree.shardType lay std).recordCount x
  level : ∀ l ∈ levels, l.getRecordCount > 0 →
    Keeps std (l.live.map (ISAMTree.shardType lay std).records)
  buffer : bv.getRecordCount > 0 → Keeps std (ISAMTree.bufferRuns lay std bv)


theorem ofShards_isSome_iff {xs : List (ISAMTree.shardType lay std).Shard} :
    (∃ x, (ISAMTree.shardType lay std).ofShards xs = some x) ↔
      ∀ x ∈ xs, 0 < (ISAMTree.shardType lay std).recordCount x :=
  Option.isSome_iff_exists.symm.trans ISAMTree.mergeShards_isSome_iff

theorem recordCount_of_mergeShards {xs : List (ISAMTree.shardType lay std).Shard}
    {x : (ISAMTree.shardType lay std).Shard}
    (h : (ISAMTree.shardType lay std).ofShards xs = some x) :
    0 < (ISAMTree.shardType lay std).recordCount x ↔
      Keeps std (xs.map (ISAMTree.shardType lay std).records) := by
  have hkeeps : Keeps std (xs.map (ISAMTree.shardType lay std).records) ↔
      (ISAMTree.shardType lay std).records x ≠ [] := by
    have hrecords := ISAMTree.mergeShards_records h
    exact (keeps_iff (ISAMTree.sorted_records xs)).trans (by rw [← hrecords]; rfl)
  rw [(ISAMTree.shardType lay std).recordCount_eq, List.length_pos_iff, hkeeps]

theorem recordCount_ofBuffer (bv : BufferView (Record K V)) :
    0 < (ISAMTree.shardType lay std).recordCount ((ISAMTree.shardType lay std).ofBuffer bv) ↔
      Keeps std (ISAMTree.bufferRuns lay std bv) := by
  rw [(ISAMTree.shardType lay std).recordCount_eq, List.length_pos_iff,
    keeps_iff (ISAMTree.bufferRuns_sorted lay std bv)]
  exact (ISAMTree.bufferShard_records lay std bv) ▸ Iff.rfl

namespace DynamicExtension

theorem flattened_iff {levels : List (InternalLevel (ISAMTree.shardType lay std))}
    {bv : BufferView (Record K V)} :
    (∃ x, flattened levels bv = some x) ↔ FlattenOk levels bv := by
  have hmem : ∀ l, l ∈ levels.reverse.filter (fun l => l.getRecordCount > 0) ↔
      l ∈ levels ∧ l.getRecordCount > 0 := by simp
  constructor
  · rintro ⟨x, hx⟩
    obtain ⟨shards, hshards, hx⟩ := Option.bind_eq_some_iff.mp hx
    have hpos := ofShards_isSome_iff.mp ⟨x, hx⟩
    have hlevel : ∀ l ∈ levels, l.getRecordCount > 0 →
        ∃ y ∈ shards, (ISAMTree.shardType lay std).ofShards l.live = some y := fun l hl hcnt =>
      forall₂_mem (combinedShards_eq_some.mp hshards).flip ((hmem l).mpr ⟨hl, hcnt⟩)
    have hin : ∀ y ∈ shards, 0 < (ISAMTree.shardType lay std).recordCount y := by
      intro y hy
      refine hpos y ?_
      split
      · exact List.mem_append_left _ hy
      · exact hy
    refine ⟨fun l hl hcnt => ?_, fun l hl hcnt => ?_, fun hcnt => ?_⟩
    · obtain ⟨y, -, hmerge⟩ := hlevel l hl hcnt
      exact ofShards_isSome_iff.mp ⟨y, hmerge⟩
    · obtain ⟨y, hy, hmerge⟩ := hlevel l hl hcnt
      exact (recordCount_of_mergeShards hmerge).mp (hin y hy)
    · refine (recordCount_ofBuffer bv).mp (hpos _ ?_)
      rw [if_pos hcnt]
      simp
  · intro h
    obtain ⟨shards, hshards⟩ : ∃ shards, List.Forall₂
        (fun l x => (ISAMTree.shardType lay std).ofShards l.live = some x)
        (levels.reverse.filter fun l => l.getRecordCount > 0) shards := by
      refine exists_forall₂ fun l hl => ?_
      obtain ⟨hl, hcnt⟩ := (hmem l).mp hl
      exact ofShards_isSome_iff.mpr (h.full l hl hcnt)
    have hpos : ∀ y ∈ shards, 0 < (ISAMTree.shardType lay std).recordCount y := by
      intro y hy
      obtain ⟨l, hl, hmerge⟩ := forall₂_mem hshards hy
      obtain ⟨hl, hcnt⟩ := (hmem l).mp hl
      exact (recordCount_of_mergeShards hmerge).mpr (h.level l hl hcnt)
    rw [flattened, combinedShards_eq_some.mpr hshards]
    refine ofShards_isSome_iff.mpr fun y hy => ?_
    split at hy
    · rename_i hcnt
      rcases List.mem_append.mp hy with hy | hy
      · exact hpos y hy
      · rw [List.mem_singleton.mp hy]
        exact (recordCount_ofBuffer bv).mpr (h.buffer hcnt)
    · exact hpos y hy

/-- Flattening ends, leaves the framework as it was and makes a shard in record order, in
which each record has `f` live copies more than tombstones. -/
def FlattensTo (d : DynamicExtension (ISAMTree.shardType lay std) L) (await : Bool)
    (f : Record K V → ℤ) : Prop :=
  ∃ x, d.createStaticStructure await = some (x, d) ∧
    ((ISAMTree.shardType lay std).records x).Pairwise (fun a b => a.record ≤ b.record) ∧
    ∀ r, net ((ISAMTree.shardType lay std).records x) r = f r

theorem Tracks.flattensTo_iff {lwm hwm : Nat} {d : DynamicExtension (ISAMTree.shardType lay std) L}
    {e : Epoch (ISAMTree.shardType lay std) L} {calls : List (Call (Record K V))}
    (h : Tracks lwm hwm d e 0 0 calls) (await : Bool) :
    d.FlattensTo await (fun r => calls.count (.insert r) - calls.count (.erase r)) ↔
      FlattenOk e.vers.levels (e.view d.buffer) := by
  rw [← flattened_iff, FlattensTo, h.serving.idle.createStaticStructure]
  constructor
  · rintro ⟨x, hx, -⟩
    obtain ⟨y, hy, -⟩ := Option.map_eq_some_iff.mp hx
    exact ⟨y, hy⟩
  · rintro ⟨x, hx⟩
    refine ⟨x, by rw [hx]; rfl, (ISAMTree.Shard.wellFormed x).sorted, fun r => ?_⟩
    have hnet := h.net
    rw [← netOf_eq_count, flattened_net hx, h.serving.view_records]
    exact congrFun hnet r

variable [Zero K] [Zero V]

/-- After calls in order, flattening works if and only if no merge of it has a source
without records. -/
theorem flattens_iff (lay : NodeLayout) (std : StdLib (Record K V)) (L : LayoutPolicy)
    {lwm hwm scale : Nat} (hlwm : 1 ≤ lwm) (hle : lwm ≤ hwm) (hscale : 2 ≤ scale)
    (hbsm : L = .bsm → scale = 2) {log : Option (List (WALEntry (Record K V)))}
    (hlog : ∀ file, log = some file → file = []) (logging : Bool) :
    ∃ d₀, new (ISAMTree.shardType lay std) L lwm hwm scale none log = some d₀ ∧
      ∀ calls, d₀.RunOk logging calls →
        ∃ d e, d₀.run logging calls = some d ∧ d.currentEpoch.epoch = some e ∧
          ∀ await, d.FlattensTo await
              (fun r => calls.count (.insert r) - calls.count (.erase r)) ↔
            FlattenOk e.vers.levels (e.view d.buffer) := by
  obtain ⟨d₀, e₀, hnew, h₀⟩ := tracks_new (ISAMTree.shardType lay std) L hlwm hle
    (by omega : 0 < scale) hbsm hlog
  refine ⟨d₀, hnew, fun calls hok => ?_⟩
  obtain ⟨d, e, hrun, h⟩ := h₀.run (ISAMTree.mergesRecords lay std) hlwm hle logging hok
  exact ⟨d, e, hrun, by rw [h.serving.idle.current], h.flattensTo_iff⟩

theorem flattens_iff_sample :
    let calls : List (Call (Record Nat Nat)) := [.insert ⟨1, 5⟩, .insert ⟨2, 6⟩, .erase ⟨1, 5⟩]
    ∃ d₀ d, new (ISAMTree.shardType NodeLayout.words (StdLib.sorted (Record Nat Nat))) .teiring
        1 1 2 none none = some d₀ ∧ d₀.run false calls = some d ∧
      d.FlattensTo false fun r => calls.count (.insert r) - calls.count (.erase r) := by
  intro calls
  obtain ⟨d₀, hnew, hall⟩ := flattens_iff NodeLayout.words (StdLib.sorted (Record Nat Nat)) .teiring
    (le_refl 1) (le_refl 1) (le_refl 2) (by decide)
    (show ∀ file, none = some file → file = [] by simp) false
  have hok : ∀ d ∈ new (ISAMTree.shardType NodeLayout.words (StdLib.sorted (Record Nat Nat)))
      .teiring 1 1 2 none none, d.RunOk false calls ∧ ∀ d' ∈ d.run false calls,
        ∀ e ∈ d'.currentEpoch.epoch, (flattened e.vers.levels (e.view d'.buffer)).isSome := by
    decide +kernel
  obtain ⟨hok, hsome⟩ := hok d₀ hnew
  obtain ⟨d, e, hrun, he, hiff⟩ := hall calls hok
  exact ⟨d₀, d, hnew, hrun, (hiff false).mpr
    (flattened_iff.mp (Option.isSome_iff_exists.mp (hsome d hrun e he)))⟩

/-- The shard of a buffer whose records cancel has nothing to merge. -/
theorem not_flattens :
    let calls : List (Call (Record Nat Nat)) := [.insert ⟨1, 5⟩, .erase ⟨1, 5⟩]
    Call.Legal calls ∧
    ∃ d₀ d, new (ISAMTree.shardType NodeLayout.words (StdLib.sorted (Record Nat Nat))) .teiring
        4 4 2 none none = some d₀ ∧ d₀.run false calls = some d ∧
      d.createStaticStructure false = none ∧
      ¬ d.FlattensTo false fun r => calls.count (.insert r) - calls.count (.erase r) := by
  intro calls
  have hrun : (new (ISAMTree.shardType NodeLayout.words (StdLib.sorted (Record Nat Nat))) .teiring
      4 4 2 none none).bind (fun d₀ => (d₀.run false calls).map fun d =>
        (d.createStaticStructure false).isNone) = some true := by decide +kernel
  obtain ⟨d₀, hnew, hrun⟩ := Option.bind_eq_some_iff.mp hrun
  obtain ⟨d, hd, hnone⟩ := Option.map_eq_some_iff.mp hrun
  rw [Option.isNone_iff_eq_none] at hnone
  refine ⟨by decide, d₀, d, hnew, hd, hnone, ?_⟩
  rintro ⟨x, hx, -⟩
  rw [hnone] at hx
  cases hx

end DynamicExtension

end De
