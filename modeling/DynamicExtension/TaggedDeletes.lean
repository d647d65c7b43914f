import DynamicExtension.RangeScan
import DynamicExtension.ViewOperations
import DynamicExtension.Library.StepRun
set_option autoImplicit false

namespace De

section Ring
variable {R : Type} [DecidableEq R]

/-- The first copy of the record gets the delete bit. -/
def markFirst (rec : R) : List (Wrapped R) → List (Wrapped R)
  | [] => []
  | w :: ws => if w.record = rec then w.setDelete :: ws else w :: markFirst rec ws

def firstCopy (rec : R) (ws : List (Wrapped R)) : Option (Wrapped R) :=
  ws.find? fun w => w.record = rec

theorem firstCopy_cons (rec : R) (w : Wrapped R) (ws : List (Wrapped R)) :
    firstCopy rec (w :: ws) = if w.record = rec then some w else firstCopy rec ws := by
  by_cases hw : w.record = rec <;> simp [firstCopy, hw]

theorem markFirst_of_none {rec : R} {ws : List (Wrapped R)} (h : firstCopy rec ws = none) :
    markFirst rec ws = ws := by
  induction ws with
  | nil => rfl
  | cons w ws ih =>
    rw [firstCopy_cons] at h
    split at h
    · cases h
    · rename_i hw
      rw [markFirst, if_neg hw, ih h]

theorem isTombstone_markFirst {rec : R} {ws : List (Wrapped R)}
    (h : ∀ w ∈ ws, w.isTombstone = false) : ∀ w ∈ markFirst rec ws, w.isTombstone = false := by
  induction ws with
  | nil => simp [markFirst]
  | cons v ws ih =>
    obtain ⟨hv, hws⟩ := List.forall_mem_cons.mp h
    rw [markFirst]
    split
    · exact List.forall_mem_cons.mpr ⟨by simpa using hv, hws⟩
    · exact List.forall_mem_cons.mpr ⟨hv, ih hws⟩

/-- Copies without the delete bit, for each record -/
def undeleted (ws : List (Wrapped R)) (r : R) : Nat :=
  ws.countP fun w => decide (w.record = r) && !w.isDeleted

theorem undeleted_append (vs ws : List (Wrapped R)) :
    undeleted (vs ++ ws) = undeleted vs + undeleted ws := by
  funext r
  simp [undeleted]

theorem undeleted_perm {vs ws : List (Wrapped R)} (h : vs.Perm ws) :
    undeleted vs = undeleted ws := by
  funext r
  exact h.countP_eq _

theorem undeleted_flatten (ls : List (List (Wrapped R))) :
    undeleted ls.flatten = (ls.map undeleted).sum := by
  induction ls with
  | nil => rfl
  | cons l ls ih => rw [List.flatten_cons, undeleted_append, ih, List.map_cons, List.sum_cons]

theorem undeleted_eq_zero {ws : List (Wrapped R)} {r : R} :
    undeleted ws r = 0 ↔ ∀ w ∈ ws, w.record = r → w.isDeleted = true := by
  simp [undeleted]

theorem visible_eq_undeleted {ws : List (Wrapped R)} (h : ∀ w ∈ ws, w.isTombstone = false) (r : R) :
    visible ws r = undeleted ws r := by
  induction ws with
  | nil => rfl
  | cons w ws ih =>
    obtain ⟨hw, hws⟩ := List.forall_mem_cons.mp h
    rw [visible_cons, ih hws, undeleted, undeleted, List.countP_cons]
    by_cases hr : w.record = r <;> cases hd : w.isDeleted <;> simp [liveWeight, hr, hw, hd]
    omega

theorem undeleted_markFirst {rec : R} {ws : List (Wrapped R)} {w : Wrapped R}
    (hw : firstCopy rec ws = some w) (r : R) :
    undeleted (markFirst rec ws) r + (if r = rec ∧ w.isDeleted = false then 1 else 0) =
      undeleted ws r := by
  induction ws with
  | nil => simp [firstCopy] at hw
  | cons v ws ih =>
    rw [firstCopy_cons] at hw
    split at hw
    · rename_i hv
      obtain rfl := Option.some.inj hw
      rw [markFirst, if_pos hv, undeleted, undeleted, List.countP_cons, List.countP_cons]
      subst hv
      by_cases hr : v.record = r
      · subst hr
        cases v.isDeleted <;> simp
      · simp [hr, Ne.symm hr]
    · rename_i hv
      have := ih hw
      rw [markFirst, if_neg hv, undeleted, undeleted, List.countP_cons, List.countP_cons]
      rw [undeleted, undeleted] at this
      omega

/-- Marking the first of the listed ring slots that has the record marks the first
copy of what they hold. -/
theorem map_update_setDelete {rec : R} {data : Nat → Wrapped R} {slots : List Nat} {i : Nat}
    (hnodup : slots.Nodup) (hi : slots.find? (fun i => (data i).record = rec) = some i) :
    slots.map (Function.update data i (data i).setDelete) = markFirst rec (slots.map data) := by
  induction slots with
  | nil => simp at hi
  | cons j slots ih =>
    obtain ⟨hj, hnodup⟩ := List.nodup_cons.mp hnodup
    by_cases hrec : (data j).record = rec
    · obtain rfl : j = i := by simpa [hrec] using hi
      rw [List.map_cons, List.map_cons, markFirst, if_pos hrec, Function.update_self]
      congr 1
      apply List.map_congr_left
      intro k hk
      have hne : k ≠ j := by
        rintro rfl
        exact hj hk
      exact Function.update_of_ne hne _ _
    · have hi' : slots.find? (fun i => (data i).record = rec) = some i := by
        simpa [hrec] using hi
      have hne : j ≠ i := by
        rintro rfl
        exact hj (List.mem_of_find?_eq_some hi')
      rw [List.map_cons, List.map_cons, markFirst, if_neg hrec, Function.update_of_ne hne,
        ih hnodup hi']

section Buffer
variable {b : MutableBuffer R}

theorem deleteRecord_records (h : b.Formed) (hpos : 0 < b.getRecordCount) (rec : R) :
    ((b.viewFrom b.head.headIdx).deleteRecord rec).1 = (firstCopy rec b.records).isSome ∧
      MutableBuffer.records { b with data := ((b.viewFrom b.head.headIdx).deleteRecord rec).2 } =
        markFirst rec b.records := by
  have hle : b.tail - b.head.headIdx ≤ b.hwm := h.count_le
  have hcap := h.hwm_lt_cap
  have hlt : 0 < b.tail - b.head.headIdx := hpos
  set v := b.viewFrom b.head.headIdx with hv
  set slots := (List.range v.getRecordCount).map v.toIdx with hslots
  have hscanned : v.scanned = slots := BufferView.scanned_eq
    (show b.head.headIdx < b.tail by omega) (show b.tail - b.head.headIdx ≤ b.cap by omega)
  have hnodup : slots.Nodup := BufferView.nodup_slots
    (show b.tail - b.head.headIdx ≤ b.cap by omega) (show 0 < b.cap by omega)
  have hrecords : ∀ data, MutableBuffer.records { b with data := data } = slots.map data :=
    fun data => BufferView.records_eq_map
  have hold : b.records = slots.map b.data := hrecords b.data
  have hfirst : firstCopy rec b.records =
      (slots.find? fun i => (b.data i).record = rec).map b.data := by
    rw [hold, firstCopy, List.find?_map]
    rfl
  have hdata : v.data = b.data := rfl
  cases hfind : slots.find? fun i => (b.data i).record = rec with
  | none =>
    have hdel : v.deleteRecord rec = (false, b.data) := by
      rw [BufferView.deleteRecord, hscanned, hdata, hfind]
    have hnone : firstCopy rec b.records = none := by
      rw [hfirst, hfind]
      rfl
    rw [hdel, hnone, markFirst_of_none hnone]
    exact ⟨rfl, rfl⟩
  | some i =>
    have hdel : v.deleteRecord rec = (true, Function.update b.data i (b.data i).setDelete) := by
      rw [BufferView.deleteRecord, hscanned, hdata, hfind]
    rw [hdel, hfirst, hfind]
    refine ⟨rfl, ?_⟩
    rw [hrecords, hold]
    exact map_update_setDelete hnodup hfind

end Buffer

end Ring

variable {K V : Type} [LinearOrder K] [LinearOrder V] [Zero K] [Zero V]
variable {lay : NodeLayout} {std : StdLib (Record K V)} {L : LayoutPolicy}

/-- What lies behind the whole slots of the scratch page when a shard's page has been
read into it -/
abbrev Scratch (lay : NodeLayout) (std : StdLib (Record K V)) :=
  (ISAMTree.shardType lay std).Shard → Wrapped (Record K V)

/-- The loop of `delete_record` over the shards of a level. `point_lookup` returns a pointer
into the scratch page, and the bit is set there: the result is the marked copy. -/
def InternalLevel.deleteIn (past : Scratch lay std) (rec : Record K V) :
    List (Option (ISAMTree.shardType lay std).Shard) → Option (Option (Wrapped (Record K V)))
  | [] => some none
  | none :: xs => deleteIn past rec xs
  | some x :: xs => do
    match ← ISAMTree.pointLookup lay (past x) x.1 rec with
    | some res => return some res.setDelete
    | none => deleteIn past rec xs

def InternalLevel.deleteRecord (past : Scratch lay std)
    (l : InternalLevel (ISAMTree.shardType lay std)) (rec : Record K V) : Option Bool :=
  if l.shardCnt = 0 then some false
  else (deleteIn past rec l.shards).map Option.isSome

/-- The loop of `tagged_delete` over the levels -/
def ExtensionStructure.deleteIn (past : Scratch lay std) (rec : Record K V) :
    List (InternalLevel (ISAMTree.shardType lay std)) → Option Nat
  | [] => some 0
  | l :: ls => do
    if ← l.deleteRecord past rec then
      return 1
    deleteIn past rec ls

def ExtensionStructure.taggedDelete (past : Scratch lay std)
    (s : ExtensionStructure (ISAMTree.shardType lay std) L) (rec : Record K V) : Option Nat :=
  deleteIn past rec s.levels

/-- `erase` under the TAGGING policy -/
def DynamicExtension.eraseTagged (d : DynamicExtension (ISAMTree.shardType lay std) L)
    (past : Scratch lay std) (rec : Record K V) :
    Option (Nat × DynamicExtension (ISAMTree.shardType lay std) L) := do
  let (view, buffer) ← d.buffer.getBufferView d.buffer.head.headIdx
  let (epoch, d) ← getActiveEpoch { d with buffer := buffer }
  if (← epoch.vers.taggedDelete past rec) ≠ 0 then
    let d ← d.endJob epoch
    let buffer ← d.buffer.releaseHeadReference view.head
    return (1, { d with buffer := buffer })
  let d ← d.endJob epoch
  let (deleted, data) := view.deleteRecord rec
  let buffer ← MutableBuffer.releaseHeadReference { d.buffer with data := data } view.head
  return (if deleted then 1 else 0, { d with buffer := buffer })

/-- The slot on which the search of a shard ends does not hold the record. -/
def Misses (past : Scratch lay std) (rec : Record K V)
    (x : (ISAMTree.shardType lay std).Shard) : Prop :=
  ∀ w ∈ ISAMTree.searchSlot lay (past x) ((ISAMTree.shardType lay std).records x) rec.key,
    w.record ≠ rec

instance (past : Scratch lay std) (rec : Record K V) : DecidablePred (Misses past rec) :=
  fun _ => inferInstanceAs (Decidable (∀ w ∈ _, _))

section Search
variable (past : Scratch lay std) (rec : Record K V)

theorem pointLookup_eq {x : (ISAMTree.shardType lay std).Shard}
    (hne : (ISAMTree.shardType lay std).records x ≠ []) :
    ∃ res, ISAMTree.pointLookup lay (past x) x.1 rec = some res ∧
      (res = none ↔ Misses past rec x) := by
  refine ⟨_, ISAMTree.pointLookup_spec (ISAMTree.Shard.wellFormed x) hne (past x) rec, ?_⟩
  rw [Option.filter_eq_none_iff]
  simp [Misses]
  rfl

theorem InternalLevel.deleteIn_eq {xs : List (Option (ISAMTree.shardType lay std).Shard)}
    (hne : ∀ x, some x ∈ xs → (ISAMTree.shardType lay std).records x ≠ []) :
    ∃ res, deleteIn past rec xs = some res ∧
      (res = none ↔ ∀ x, some x ∈ xs → Misses past rec x) := by
  induction xs with
  | nil => exact ⟨none, rfl, by simp⟩
  | cons x xs ih =>
    obtain ⟨res, hres, hmiss⟩ := ih fun y hy => hne y (List.mem_cons_of_mem _ hy)
    cases x with
    | none => exact ⟨res, hres, by simpa using hmiss⟩
    | some x =>
      obtain ⟨found, hfound, hiff⟩ := pointLookup_eq past rec (hne x List.mem_cons_self)
      rw [deleteIn, hfound, Option.bind_eq_bind, Option.bind_some]
      cases found with
      | some w =>
        refine ⟨some w.setDelete, rfl, ?_⟩
        have hx : ¬ Misses past rec x := fun h => by simpa using hiff.mpr h
        simp [hx]
      | none =>
        refine ⟨res, hres, ?_⟩
        have hx : Misses past rec x := hiff.mp rfl
        simp [hmiss, hx]

theorem InternalLevel.deleteRecord_eq {l : InternalLevel (ISAMTree.shardType lay std)}
    (hne : ∀ x ∈ l.live, (ISAMTree.shardType lay std).records x ≠ []) :
    ∃ found, l.deleteRecord past rec = some found ∧
      (found = false ↔ ∀ x ∈ l.live, Misses past rec x) := by
  have hmem : ∀ x, some x ∈ l.shards ↔ x ∈ l.live := by
    intro x
    simp [live]
  by_cases hcnt : l.shardCnt = 0
  · rw [deleteRecord, if_pos hcnt, (shardCnt_eq_zero l).mp hcnt]
    exact ⟨false, rfl, by simp⟩
  · obtain ⟨res, hres, hiff⟩ := deleteIn_eq past rec fun x hx => hne x ((hmem x).mp hx)
    refine ⟨res.isSome, by rw [deleteRecord, if_neg hcnt, hres]; rfl, ?_⟩
    simpa [hmem] using hiff

theorem ExtensionStructure.deleteIn_eq {ls : List (InternalLevel (ISAMTree.shardType lay std))}
    (hne : ∀ l ∈ ls, ∀ x ∈ l.live, (ISAMTree.shardType lay std).records x ≠ []) :
    ∃ n, deleteIn past rec ls = some n ∧ (n = 0 ↔ ∀ l ∈ ls, ∀ x ∈ l.live, Misses past rec x) := by
  induction ls with
  | nil => exact ⟨0, rfl, by simp⟩
  | cons l ls ih =>
    obtain ⟨found, hfound, hl⟩ :=
      InternalLevel.deleteRecord_eq past rec (hne l List.mem_cons_self)
    obtain ⟨n, hn, hls⟩ := ih fun l hl => hne l (List.mem_cons_of_mem _ hl)
    rw [deleteIn, hfound, Option.bind_eq_bind, Option.bind_some, List.forall_mem_cons, ← hl, ← hls]
    cases found with
    | true => exact ⟨1, rfl, by simp⟩
    | false => exact ⟨n, hn, by simp⟩

/-- The search of the shards ends, and finds nothing if and only if no shard's search
ends on the record. -/
theorem ExtensionStructure.taggedDelete_eq
    {s : ExtensionStructure (ISAMTree.shardType lay std) L}
    (hne : ∀ x ∈ s.getShards, (ISAMTree.shardType lay std).records x ≠ []) :
    ∃ n, s.taggedDelete past rec = some n ∧ (n = 0 ↔ ∀ x ∈ s.getShards, Misses past rec x) := by
  have hmem : ∀ x, x ∈ s.getShards ↔ ∃ l ∈ s.levels, x ∈ l.live := by
    intro x
    simp [getShards, InternalLevel.getShards_eq]
  obtain ⟨n, hn, hiff⟩ := deleteIn_eq past rec fun l hl x hx => hne x ((hmem x).mpr ⟨l, hl, hx⟩)
  refine ⟨n, hn, hiff.trans ⟨fun h x hx => ?_, fun h l hl x hx => h x ((hmem x).mpr ⟨l, hl, hx⟩)⟩⟩
  obtain ⟨l, hl, hxl⟩ := (hmem x).mp hx
  exact h l hl x hxl

end Search

namespace DynamicExtension

section Erase
variable {d : DynamicExtension (ISAMTree.shardType lay std) L}
  {e : Epoch (ISAMTree.shardType lay std) L} {pins oldPins : Nat}

/-- The framework with other ring contents -/
def withData (d : DynamicExtension (ISAMTree.shardType lay std) L)
    (data : Nat → Wrapped (Record K V)) : DynamicExtension (ISAMTree.shardType lay std) L :=
  { d with buffer := { d.buffer with data := data } }

omit [Zero K] [Zero V] in
theorem Idle.withData (h : Idle d e pins oldPins) (data : Nat → Wrapped (Record K V)) :
    Idle (d.withData data) e pins oldPins :=
  ⟨h.next, h.current, h.previous, h.number, h.number_le, h.head, h.oldHead, h.apart,
    ⟨h.formed.head_le, h.formed.count_le, h.formed.hwm_lt_cap⟩⟩

/-- A shard whose search ends on the record makes the erase return 1 and change nothing;
otherwise the ring is searched. -/
theorem Idle.eraseTagged (h : Idle d e pins oldPins)
    (hne : ∀ x ∈ e.vers.getShards, (ISAMTree.shardType lay std).records x ≠ [])
    (past : Scratch lay std) (rec : Record K V) :
    d.eraseTagged past rec = some (
      if ∀ x ∈ e.vers.getShards, Misses past rec x then
        (if ((e.view d.buffer).deleteRecord rec).1 then 1 else 0,
          d.withData ((e.view d.buffer).deleteRecord rec).2)
      else (1, d)) := by
  have hview : d.buffer.getBufferView d.buffer.head.headIdx =
      some (e.view d.buffer, { d.buffer with head := ⟨e.bufferHead, 1⟩ }) := by
    rw [h.head]
    exact h.getBufferView
  have hactive : DynamicExtension.getActiveEpoch
      { d with buffer := { d.buffer with head := ⟨e.bufferHead, 1⟩ } } = some (e, { d with
        buffer := { d.buffer with head := ⟨e.bufferHead, 1⟩ }
        currentEpoch := ⟨some e, pins + 1⟩ }) := by
    simp [DynamicExtension.getActiveEpoch, h.current]
  have hend := h.endJob (x := { d with
    buffer := { d.buffer with head := ⟨e.bufferHead, 1⟩ }
    currentEpoch := ⟨some e, pins + 1⟩ }) rfl rfl
  have hrel : MutableBuffer.releaseHeadReference { d.buffer with head := ⟨e.bufferHead, 1⟩ }
      (e.view d.buffer).head = some d.buffer := h.releaseHeadReference
  have hreld : ∀ data, MutableBuffer.releaseHeadReference
      { d.buffer with head := ⟨e.bufferHead, 1⟩, data := data } (e.view d.buffer).head =
        some { d.buffer with data := data } := fun data => (h.withData data).releaseHeadReference
  have hd : ({ d with currentEpoch := ⟨some e, pins⟩ } : DynamicExtension _ L) = d := by
    rw [← h.current]
  obtain ⟨n, hn, hmiss⟩ := ExtensionStructure.taggedDelete_eq past rec hne
  simp only [DynamicExtension.eraseTagged, hview, hactive, hn, hend, Option.bind_eq_bind,
    Option.bind_some, Option.pure_def]
  by_cases h0 : n = 0
  · rw [if_pos (hmiss.mp h0), if_neg (not_not_intro h0), hreld]
    rw [DynamicExtension.withData, ← h.current]
    rfl
  · rw [if_neg (mt hmiss.mpr h0), if_pos h0, hrel]
    exact congrArg (fun d => some (1, d)) hd

end Erase

end DynamicExtension

namespace ISAMTree

omit [Zero K] [Zero V] in
theorem perm_mergeShards {xs : List (Shard lay std)} {x : Shard lay std}
    (h : mergeShards xs = some x)
    (hlive : ∀ y ∈ xs, ∀ w ∈ y.1.records lay, w.isTombstone = false) :
    (x.1.records lay).Perm (xs.map fun y => y.1.records lay).flatten := by
  obtain ⟨ws, hperm, -, hrecs⟩ := mergeShards_spec h
  rw [hrecs, cancelPairs_of_live ws]
  · exact hperm
  · intro w hw
    obtain ⟨l, hl, hwl⟩ := List.mem_flatten.mp (hperm.mem_iff.mp hw)
    obtain ⟨y, hy, rfl⟩ := List.mem_map.mp hl
    exact hlive y hy w hwl

omit [Zero K] [Zero V] in
theorem perm_bufferShard {v : BufferView (Record K V)}
    (hlive : ∀ w ∈ v.records, w.isTombstone = false) :
    ((bufferShard lay std v).records lay).Perm v.records := by
  obtain ⟨ws, hperm, -, hrecs⟩ := bufferShard_spec lay std v
  rw [List.flatten_singleton] at hperm
  rw [hrecs, cancelPairs_of_live ws fun w hw => hlive w (hperm.mem_iff.mp hw)]
  exact hperm

end ISAMTree

/-- A shard with records, none of them a tombstone -/
def Untombed (x : (ISAMTree.shardType lay std).Shard) : Prop :=
  0 < (ISAMTree.shardType lay std).recordCount x ∧
    ∀ w ∈ (ISAMTree.shardType lay std).records x, w.isTombstone = false

omit [Zero K] [Zero V] in
theorem Regroup.undeleted {xs ys : Multiset (ISAMTree.shardType lay std).Shard}
    (h : Regroup (ISAMTree.shardType lay std) xs ys) (hxs : ∀ x ∈ xs, Untombed x) :
    (∀ y ∈ ys, Untombed y) ∧
      (ys.map fun y => De.undeleted ((ISAMTree.shardType lay std).records y)).sum =
        (xs.map fun x => De.undeleted ((ISAMTree.shardType lay std).records x)).sum := by
  refine h.weigh (fun zs x hne hzs hx => ?_) (fun x hx hzero => absurd hx.1 (by omega)) hxs
  have hperm : ((ISAMTree.shardType lay std).records x).Perm
      (zs.map (ISAMTree.shardType lay std).records).flatten :=
    ISAMTree.perm_mergeShards hx fun y hy => (hzs y hy).2
  refine ⟨⟨?_, fun w hw => ?_⟩, ?_⟩
  · obtain ⟨z, zs, rfl⟩ := List.exists_cons_of_ne_nil hne
    have hz := (hzs z List.mem_cons_self).1
    rw [(ISAMTree.shardType lay std).recordCount_eq] at hz ⊢
    rw [hperm.length_eq, List.map_cons, List.flatten_cons, List.length_append]
    exact Nat.add_pos_left hz _
  · obtain ⟨z, hz, hwz⟩ := (ISAMTree.shardType lay std).ofShards_mem zs x hx w hw
    exact (hzs z hz).2 w hwz
  · rw [undeleted_perm hperm, undeleted_flatten, List.map_map]
    rfl

namespace ExtensionStructure

theorem mem_mergeInputs {R : Type} [DecidableEq R] {T : ShardType R} {s : ExtensionStructure T L}
    {hwm : Nat} {v : BufferView R} {xs : List T.Shard} (hxs : xs ∈ s.mergeInputs hwm v)
    {x : T.Shard} (hx : x ∈ xs) : x ∈ s.shards + {T.ofBuffer v} := by
  have hlive : ∀ i, ∀ x ∈ (s.levelAt i).live, x ∈ s.shards := fun i x hx =>
    Multiset.mem_of_le (s.live_le_shards i) (Multiset.mem_coe.mpr hx)
  have hstep : ∀ i, ∀ xs ∈ stepMerges L (s.levelAt (i + 1)) (s.levelAt i), ∀ x ∈ xs,
      x ∈ s.shards := by
    intro i xs hxs x hx
    unfold stepMerges at hxs
    split at hxs <;> split at hxs <;> simp only [List.not_mem_nil, List.mem_singleton] at hxs
    · subst hxs
      rcases List.mem_append.mp hx with hx | hx
      · exact hlive _ x hx
      · exact hlive _ x hx
    · exact hlive i x (hxs ▸ hx)
  have hdown : ∀ b, ∀ xs ∈ s.downMerges b, ∀ x ∈ xs, x ∈ s.shards := by
    intro b
    induction b with
    | zero => simp [downMerges]
    | succ b ih =>
      intro xs hxs x hx
      rcases List.mem_append.mp hxs with hxs | hxs
      · exact hstep b xs hxs x hx
      · split at hxs
        · cases hxs
        · exact ih xs hxs x hx
  have hround : ∀ xs ∈ s.roundMerges hwm v, ∀ x ∈ xs, x ∈ s.shards + {T.ofBuffer v} := by
    intro xs hxs x hx
    rcases List.mem_append.mp hxs with hxs | hxs
    · exact Multiset.mem_add.mpr (.inl (hdown _ xs hxs x hx))
    · split at hxs
      · unfold flushMerges at hxs
        split at hxs
        · rw [List.mem_singleton.mp hxs, List.mem_append, List.mem_singleton] at hx
          rcases hx with hx | rfl
          · exact Multiset.mem_add.mpr (.inl (hlive 0 x hx))
          · exact Multiset.mem_add.mpr (.inr (Multiset.mem_singleton_self _))
        · cases hxs
      · cases hxs
  cases L with
  | leveling => exact hround xs hxs x hx
  | teiring => exact hround xs hxs x hx
  | bsm =>
    have hxs : xs ∈ s.roundMergesBSM hwm := hxs
    unfold roundMergesBSM at hxs
    split at hxs
    · cases hxs
    · rw [List.mem_singleton.mp hxs] at hx
      obtain ⟨l, hl, hxl⟩ := List.mem_flatMap.mp hx
      obtain ⟨i, -, rfl⟩ := List.mem_map.mp hl
      exact Multiset.mem_add.mpr (.inl (hlive i x hxl))

theorem Intact.findsSlot_round {R : Type} [DecidableEq R] {T : ShardType R}
    (hT : T.MergesRecords) {hwm : Nat} {s s' : ExtensionStructure T L} (hs : s.Intact)
    {v : BufferView R} (hok : s.RoundOk hwm v) (hpos : 0 < T.recordCount (T.ofBuffer v))
    (hrun : s.round hwm v = some s') : s'.FindsSlot := by
  cases L with
  | leveling => trivial
  | teiring => trivial
  | bsm =>
    obtain ⟨s₁, s₂, hs₁, hflush, -, -, hlive⟩ :=
      round_slot hs (fun xs hxs => hT xs (hok.merges xs hxs)) hok.slot v
    rw [ExtensionStructure.round, hs₁, Option.bind_eq_bind, Option.bind_some, hflush] at hrun
    obtain rfl := Option.some.inj hrun
    refine .inl ?_
    rw [InternalLevel.getRecordCount_eq, hlive, List.map_append, List.sum_append]
    simp only [List.map_singleton, List.sum_singleton]
    omega

end ExtensionStructure

theorem Scan.Returns.unique {scan : Scan lay std L} {out out' : List (Record K V)}
    (h : scan.Returns out) {fuel : Nat} (hdrain : scan.iter.drain lay fuel = some out') :
    out' = out := by
  induction fuel generalizing scan out out' with
  | zero => cases hdrain
  | succ fuel ih =>
    rw [RangeScanIterator.drain] at hdrain
    cases hn : scan.iter.hasNext with
    | false =>
      rw [h.not_hasNext hn]
      simpa [hn] using hdrain.symm
    | true =>
      obtain ⟨r, iter, rest, hnext, rfl, hrest⟩ := h.next hn
      rw [if_pos hn, hnext, Option.bind_eq_bind, Option.bind_some] at hdrain
      obtain ⟨rest', hrest', hcons⟩ := Option.bind_eq_some_iff.mp hdrain
      obtain rfl := Option.some.inj hcons
      rw [ih hrest hrest']

/-- A call of `insert`, or of `erase` under the TAGGING policy with a scratch page -/
inductive TaggedCall (lay : NodeLayout) (std : StdLib (Record K V)) where
  | insert (rec : Record K V) (logging : Bool)
  | erase (past : Scratch lay std) (rec : Record K V)

namespace TaggedCall

/-- What a call does to a multiset of records -/
def apply (m : Multiset (Record K V)) : TaggedCall lay std → Multiset (Record K V)
  | .insert rec _ => rec ::ₘ m
  | .erase _ rec => m.erase rec

/-- The records that the calls leave -/
def contents (calls : List (TaggedCall lay std)) : Multiset (Record K V) := calls.foldl apply 0

end TaggedCall

namespace DynamicExtension

def taggedCall (d : DynamicExtension (ISAMTree.shardType lay std) L) :
    TaggedCall lay std → Option (Nat × DynamicExtension (ISAMTree.shardType lay std) L)
  | .insert rec logging => d.insert rec logging
  | .erase past rec => d.eraseTagged past rec

def taggedStep (d : DynamicExtension (ISAMTree.shardType lay std) L) (c : TaggedCall lay std) :
    Option (DynamicExtension (ISAMTree.shardType lay std) L) := (d.taggedCall c).map Prod.snd

/-- No search of a shard ends on the record, and the first copy in the buffer has no delete
bit. When the buffer has none, no shard has an undeleted copy, and an empty buffer's ring
holds the record nowhere. -/
structure EraseOk (past : Scratch lay std) (d : DynamicExtension (ISAMTree.shardType lay std) L)
    (e : Epoch (ISAMTree.shardType lay std) L) (rec : Record K V) : Prop where
  missed : ∀ x ∈ e.vers.getShards, Misses past rec x
  first : ∀ w ∈ firstCopy rec d.buffer.records, w.isDeleted = false
  gone : firstCopy rec d.buffer.records = none → ∀ x ∈ e.vers.getShards,
    ∀ w ∈ (ISAMTree.shardType lay std).records x, w.record = rec → w.isDeleted = true
  ring : d.buffer.getRecordCount = 0 → ∀ i < d.buffer.cap, (d.buffer.data i).record ≠ rec

instance (past : Scratch lay std) (d : DynamicExtension (ISAMTree.shardType lay std) L)
    (e : Epoch (ISAMTree.shardType lay std) L) (rec : Record K V) :
    Decidable (EraseOk past d e rec) :=
  decidable_of_iff ((∀ x ∈ e.vers.getShards, Misses past rec x) ∧
    (∀ w ∈ firstCopy rec d.buffer.records, w.isDeleted = false) ∧
    (firstCopy rec d.buffer.records = none → ∀ x ∈ e.vers.getShards,
      ∀ w ∈ (ISAMTree.shardType lay std).records x, w.record = rec → w.isDeleted = true) ∧
    (d.buffer.getRecordCount = 0 → ∀ i < d.buffer.cap, (d.buffer.data i).record ≠ rec))
    ⟨fun h => ⟨h.1, h.2.1, h.2.2.1, h.2.2.2⟩, fun h => ⟨h.1, h.2, h.3, h.4⟩⟩

/-- If the call flushes the buffer, the capacity of level 0 is enough for it. -/
def FlushFits (d : DynamicExtension (ISAMTree.shardType lay std) L) : Prop :=
  d.buffer.isAtLowWatermark → ∀ e ∈ d.currentEpoch.epoch,
    e.vers.HasCapacity (e.view d.buffer).getRecordCount

instance (d : DynamicExtension (ISAMTree.shardType lay std) L) : Decidable d.FlushFits :=
  inferInstanceAs (Decidable (d.buffer.isAtLowWatermark → ∀ e ∈ d.currentEpoch.epoch,
    e.vers.HasCapacity (e.view d.buffer).getRecordCount))

/-- An insert finds its slot and can flush, an erase finds what it needs. -/
def TaggedOk (d : DynamicExtension (ISAMTree.shardType lay std) L) : TaggedCall lay std → Prop
  | .insert _ _ => d.buffer.SlotOk ∧ d.FlushFits
  | .erase past rec => ∀ e ∈ d.currentEpoch.epoch, EraseOk past d e rec

instance (d : DynamicExtension (ISAMTree.shardType lay std) L) :
    ∀ c : TaggedCall lay std, Decidable (d.TaggedOk c)
  | .insert _ _ => inferInstanceAs (Decidable (d.buffer.SlotOk ∧ d.FlushFits))
  | .erase past rec => inferInstanceAs
    (Decidable (∀ e ∈ d.currentEpoch.epoch, EraseOk past d e rec))

/-- Between two calls of a run under TAGGING: `m` holds what was inserted and not erased. -/
structure Tagged (lwm hwm : Nat) (d : DynamicExtension (ISAMTree.shardType lay std) L)
    (e : Epoch (ISAMTree.shardType lay std) L) (m : Multiset (Record K V)) : Prop where
  serving : Serving lwm hwm d e 0 0
  bufferLive : ∀ w ∈ d.buffer.records, w.isTombstone = false
  shards : ∀ x ∈ e.vers.shards, Untombed x
  slot : e.vers.FindsSlot
  counts : ∀ r, undeleted (copies d e) r = m.count r

section Tagged
variable {lwm hwm : Nat} {d : DynamicExtension (ISAMTree.shardType lay std) L}
  {e : Epoch (ISAMTree.shardType lay std) L} {m : Multiset (Record K V)}

omit [Zero K] [Zero V] in
theorem Serving.undeleted_copies {pins oldPins : Nat} (h : Serving lwm hwm d e pins oldPins) :
    undeleted (copies d e) = undeleted d.buffer.records +
      (e.vers.shards.map fun x => undeleted ((ISAMTree.shardType lay std).records x)).sum := by
  rw [copies, undeleted_append, h.view_records, undeleted_flatten,
    ← ExtensionStructure.coe_getShards, Multiset.map_coe, Multiset.sum_coe, List.map_map]
  rfl

omit [Zero K] [Zero V] in
theorem Tagged.copiesLive (h : Tagged lwm hwm d e m) : ∀ w ∈ copies d e, w.isTombstone = false :=
  h.serving.forall_copies h.bufferLive fun x hx => (h.shards x hx).2

omit [Zero K] [Zero V] in
theorem Tagged.flushedShard (h : Tagged lwm hwm d e m) (hpos : 0 < d.buffer.getRecordCount) :
    Untombed ((ISAMTree.shardType lay std).ofBuffer (e.view d.buffer)) ∧
      undeleted ((ISAMTree.shardType lay std).records
        ((ISAMTree.shardType lay std).ofBuffer (e.view d.buffer))) =
          undeleted d.buffer.records := by
  have hview := h.serving.view_records
  have hperm : ((ISAMTree.shardType lay std).records
      ((ISAMTree.shardType lay std).ofBuffer (e.view d.buffer))).Perm d.buffer.records :=
    hview ▸ ISAMTree.perm_bufferShard (by rw [hview]; exact h.bufferLive)
  refine ⟨⟨?_, fun w hw => h.bufferLive w (hperm.mem_iff.mp hw)⟩, undeleted_perm hperm⟩
  rw [(ISAMTree.shardType lay std).recordCount_eq, hperm.length_eq, MutableBuffer.length_records]
  exact hpos

omit [Zero K] [Zero V] in
theorem Tagged.callOk (h : Tagged lwm hwm d e m) (hlwm : 0 < lwm) (hs : d.buffer.SlotOk)
    (hfits : d.FlushFits) : d.CallOk := by
  refine ⟨hs, fun hat e' he' => ?_⟩
  obtain rfl : e = e' := by simpa [h.serving.idle.current] using he'
  have hpos : 0 < d.buffer.getRecordCount := by
    have hl := h.serving.lwm_eq
    simp only [MutableBuffer.isAtLowWatermark, ge_iff_le, decide_eq_true_eq] at hat
    omega
  refine ⟨fun xs hxs x hx => ?_, h.slot, hfits hat e he'⟩
  rcases Multiset.mem_add.mp (ExtensionStructure.mem_mergeInputs hxs hx) with hx | hx
  · exact (h.shards x hx).1
  · rw [Multiset.mem_singleton.mp hx]
    exact (h.flushedShard hpos).1.1

omit [Zero K] [Zero V] in
theorem undeleted_slotContent (rec : Record K V) (pos : Nat) (r : Record K V) :
    undeleted [MutableBuffer.slotContent rec false pos] r = if r = rec then 1 else 0 := by
  by_cases hr : r = rec
  · simp [undeleted, hr]
  · simp [undeleted, hr, Ne.symm hr]

theorem Tagged.insert_below (hle : lwm ≤ hwm) (h : Tagged lwm hwm d e m) (hs : d.buffer.SlotOk)
    (hlow : d.buffer.getRecordCount < d.buffer.lwm) (rec : Record K V) (logging : Bool) :
    ∃ d', d.insert rec logging = some (1, d') ∧ Tagged lwm hwm d' e (rec ::ₘ m) := by
  obtain ⟨b, hb, hserving, ha⟩ := h.serving.internalAppend_below hle hs hlow rec false logging
  obtain ⟨pos, hrec⟩ := ha.records
  refine ⟨_, hb, hserving, fun w hw => ?_, h.shards, h.slot, fun r => ?_⟩
  · have hw : w ∈ b.records := hw
    rw [hrec, List.mem_append, List.mem_singleton] at hw
    rcases hw with hw | rfl
    · exact h.bufferLive w hw
    · simp
  · have hold := h.counts r
    rw [h.serving.undeleted_copies, Pi.add_apply] at hold
    rw [hserving.undeleted_copies, Pi.add_apply, Multiset.count_cons]
    show undeleted b.records r + _ = _
    rw [hrec, undeleted_append, Pi.add_apply, undeleted_slotContent]
    omega

theorem Tagged.insert_at (hlwm : 0 < lwm) (h : Tagged lwm hwm d e m) (hs : d.buffer.SlotOk)
    (hfits : d.FlushFits) (hlow : d.buffer.lwm ≤ d.buffer.getRecordCount) (rec : Record K V)
    (logging : Bool) :
    ∃ d' e', d.insert rec logging = some (1, d') ∧ Tagged lwm hwm d' e' (rec ::ₘ m) := by
  have hl := h.serving.lwm_eq
  have hat : d.buffer.isAtLowWatermark := by
    simpa only [MutableBuffer.isAtLowWatermark, ge_iff_le, decide_eq_true_eq] using hlow
  have hok := h.callOk hlwm hs hfits
  have hT := ISAMTree.mergesRecords lay std
  obtain ⟨hflushed, hflushedCount⟩ := h.flushedShard (by omega)
  obtain ⟨s, b, hround, hr, hb, hserving, ha⟩ :=
    h.serving.internalAppend_at hT hlwm hok hat rec false logging
  obtain ⟨pos, hrec⟩ := ha.records
  rw [flushed_records, List.nil_append] at hrec
  have hpre : ∀ x ∈ e.vers.shards + {(ISAMTree.shardType lay std).ofBuffer (e.view d.buffer)},
      Untombed x := by
    intro x hx
    rcases Multiset.mem_add.mp hx with hx | hx
    · exact h.shards x hx
    · exact Multiset.mem_singleton.mp hx ▸ hflushed
  obtain ⟨hshards, hsum⟩ := hr.undeleted hpre
  have hroundOk := hok.round hat e (by rw [h.serving.idle.current])
  rw [h.serving.hwm_eq] at hroundOk
  refine ⟨_, ⟨d.epochCnt + 1, s, d.buffer.tail⟩, hb, hserving, fun w hw => ?_, hshards,
    h.serving.intact.findsSlot_round hT hroundOk hflushed.1 hround, fun r => ?_⟩
  · have hw : w ∈ b.records := hw
    rw [hrec, List.mem_singleton] at hw
    simp [hw]
  · have hold := h.counts r
    rw [h.serving.undeleted_copies, Pi.add_apply] at hold
    rw [hserving.undeleted_copies, Pi.add_apply, Multiset.count_cons]
    show undeleted b.records r + (s.shards.map fun x =>
      undeleted ((ISAMTree.shardType lay std).records x)).sum r = _
    rw [hrec, undeleted_slotContent, hsum, Multiset.map_add, Multiset.sum_add, Pi.add_apply,
      Multiset.map_singleton, Multiset.sum_singleton, hflushedCount]
    omega

theorem Tagged.insert (hlwm : 0 < lwm) (hle : lwm ≤ hwm) (h : Tagged lwm hwm d e m)
    (hs : d.buffer.SlotOk) (hfits : d.FlushFits) (rec : Record K V) (logging : Bool) :
    ∃ d' e', d.insert rec logging = some (1, d') ∧ Tagged lwm hwm d' e' (rec ::ₘ m) := by
  by_cases hlow : d.buffer.getRecordCount < d.buffer.lwm
  · obtain ⟨d', hd', h'⟩ := h.insert_below hle hs hlow rec logging
    exact ⟨d', e, hd', h'⟩
  · exact h.insert_at hlwm hs hfits (not_lt.mp hlow) rec logging

theorem Serving.scanYields (h : Serving lwm hwm d e 0 0) :
    d.ScanYields fun r => (visible (copies d e) r).toNat := by
  intro start finish
  obtain ⟨scan, out, hscan, he, hret, hof⟩ := h.idle.rangeScan start finish
  refine ⟨scan, _, out, hscan, hret.drain, ?_, hof.sorted, hof.count⟩
  rw [closeScan, he, h.idle.endJob_active]

theorem Serving.scanYields_iff (h : Serving lwm hwm d e 0 0) (f : Record K V → Nat) :
    d.ScanYields f ↔ ∀ r, f r = (visible (copies d e) r).toNat := by
  constructor
  · intro hf r
    obtain ⟨scan, d', out, hscan, hdrain, -, -, hcount⟩ := hf r r
    obtain ⟨scan', out', hscan', -, hret, hof⟩ := h.idle.rangeScan r r
    rw [hscan, Option.some.injEq, Prod.mk.injEq] at hscan'
    obtain ⟨rfl, -⟩ := hscan'
    obtain rfl := hret.unique hdrain
    have hleft := hcount r
    have hright := hof.count r
    rw [if_pos ⟨le_rfl, le_rfl⟩] at hleft hright
    rw [← hleft, hright]
  · intro hf
    have hfun : f = fun r => (visible (copies d e) r).toNat := funext hf
    rw [hfun]
    exact h.scanYields

theorem Tagged.scanYields_iff (h : Tagged lwm hwm d e m) (f : Record K V → Nat) :
    d.ScanYields f ↔ ∀ r, f r = m.count r := by
  have hvis : ∀ r, (visible (copies d e) r).toNat = m.count r := by
    intro r
    rw [visible_eq_undeleted h.copiesLive, h.counts, Int.toNat_natCast]
  rw [h.serving.scanYields_iff]
  exact forall_congr' fun r => by rw [hvis]

/-- The erase returns whether the record has an undeleted copy, and if it has one, a scan
finds one copy fewer. -/
def ErasesOne (past : Scratch lay std) (d : DynamicExtension (ISAMTree.shardType lay std) L)
    (e : Epoch (ISAMTree.shardType lay std) L) (rec : Record K V) : Prop :=
  ∃ d', d.eraseTagged past rec = some (if 0 < undeleted (copies d e) rec then 1 else 0, d') ∧
    d'.ScanYields fun r => undeleted (copies d e) r - if r = rec then 1 else 0

omit [Zero K] [Zero V] in
theorem erase_eq_self {m : Multiset (Record K V)} {rec : Record K V} :
    m.erase rec = m ↔ rec ∉ m := by
  refine ⟨fun h hmem => ?_, Multiset.erase_of_notMem⟩
  have hlt := Multiset.card_erase_lt_of_mem hmem
  rw [h] at hlt
  exact absurd hlt (lt_irrefl _)

theorem Tagged.erasesOne_of (h : Tagged lwm hwm d e m) {past : Scratch lay std} {rec : Record K V}
    {n : Nat} {d₁ : DynamicExtension (ISAMTree.shardType lay std) L}
    {m₁ : Multiset (Record K V)} (hrun : d.eraseTagged past rec = some (n, d₁))
    (h₁ : Tagged lwm hwm d₁ e m₁) :
    ErasesOne past d e rec ↔ n = (if rec ∈ m then 1 else 0) ∧ m₁ = m.erase rec := by
  have hpos : 0 < undeleted (copies d e) rec ↔ rec ∈ m := by
    rw [h.counts, Multiset.count_pos]
  have hcount : m₁ = m.erase rec ↔
      ∀ r, undeleted (copies d e) r - (if r = rec then 1 else 0) = m₁.count r := by
    rw [Multiset.ext]
    refine forall_congr' fun r => ?_
    rw [h.counts]
    by_cases hr : r = rec
    · subst hr
      rw [Multiset.count_erase_self, if_pos rfl, eq_comm]
    · rw [Multiset.count_erase_of_ne hr, if_neg hr, eq_comm]
      rfl
  rw [hcount, ErasesOne, hrun]
  simp only [hpos, Option.some.injEq, Prod.mk.injEq]
  constructor
  · rintro ⟨d', ⟨hn, rfl⟩, hscan⟩
    exact ⟨hn, (h₁.scanYields_iff _).mp hscan⟩
  · rintro ⟨hn, hr⟩
    exact ⟨d₁, ⟨hn, rfl⟩, (h₁.scanYields_iff _).mpr hr⟩

omit [Zero K] [Zero V] in
theorem Tagged.withData (h : Tagged lwm hwm d e m) {data : Nat → Wrapped (Record K V)}
    {m₁ : Multiset (Record K V)}
    (hlive : ∀ w ∈ (d.withData data).buffer.records, w.isTombstone = false)
    (hcount : ∀ r, undeleted (d.withData data).buffer.records r + m.count r =
      undeleted d.buffer.records r + m₁.count r) : Tagged lwm hwm (d.withData data) e m₁ := by
  have hserving : Serving lwm hwm (d.withData data) e 0 0 :=
    ⟨h.serving.idle.withData data, h.serving.scheduled, h.serving.lwm_eq, h.serving.hwm_eq,
      h.serving.intact⟩
  refine ⟨hserving, hlive, h.shards, h.slot, fun r => ?_⟩
  have hold := h.counts r
  have hnew := hcount r
  rw [h.serving.undeleted_copies, Pi.add_apply] at hold
  rw [hserving.undeleted_copies, Pi.add_apply]
  omega

omit [Zero K] [Zero V] in
theorem Tagged.gone_iff (h : Tagged lwm hwm d e m) {rec : Record K V}
    (hnone : firstCopy rec d.buffer.records = none) :
    rec ∉ m ↔ ∀ x ∈ e.vers.getShards, ∀ w ∈ (ISAMTree.shardType lay std).records x,
      w.record = rec → w.isDeleted = true := by
  have hbuffer : ∀ w ∈ d.buffer.records, w.record ≠ rec := by
    simpa [firstCopy] using hnone
  rw [← Multiset.count_eq_zero, ← h.counts, undeleted_eq_zero, copies, h.serving.view_records]
  constructor
  · intro hall x hx w hw
    exact hall w (List.mem_append_right _
      (List.mem_flatten.mpr ⟨_, List.mem_map_of_mem hx, hw⟩))
  · intro hall w hw hrec
    rcases List.mem_append.mp hw with hw | hw
    · exact absurd hrec (hbuffer w hw)
    · obtain ⟨l, hl, hwl⟩ := List.mem_flatten.mp hw
      obtain ⟨x, hx, rfl⟩ := List.mem_map.mp hl
      exact hall x hx w hwl hrec

omit [Zero K] [Zero V] in
theorem Serving.view_eq {pins oldPins : Nat} (h : Serving lwm hwm d e pins oldPins) :
    e.view d.buffer = d.buffer.viewFrom d.buffer.head.headIdx := by
  rw [h.idle.head]
  rfl

omit [Zero K] [Zero V] in
/-- Without a copy in the buffer the ring keeps what the buffer holds, and `delete_record`
returns false unless the buffer is empty and a slot holds the record. -/
theorem Tagged.deleteRecord_none (h : Tagged lwm hwm d e m) {rec : Record K V}
    (hnone : firstCopy rec d.buffer.records = none) :
    (d.withData ((e.view d.buffer).deleteRecord rec).2).buffer.records = d.buffer.records ∧
      (((e.view d.buffer).deleteRecord rec).1 = false ↔
        (d.buffer.getRecordCount = 0 → ∀ i < d.buffer.cap, (d.buffer.data i).record ≠ rec)) := by
  have hformed := h.serving.idle.formed
  rw [h.serving.view_eq]
  by_cases hzero : d.buffer.getRecordCount = 0
  · have hcap := hformed.hwm_lt_cap
    have hhead := hformed.head_le
    have hempty : d.buffer.tail - d.buffer.head.headIdx = 0 := hzero
    have hnil : ∀ b : MutableBuffer (Record K V), b.getRecordCount = 0 → b.records = [] :=
      fun b hb => List.length_eq_zero_iff.mp (by rw [MutableBuffer.length_records, hb])
    refine ⟨by rw [hnil _ hzero]; exact hnil _ hzero, ?_⟩
    have hiff := BufferView.deleteRecord_empty (v := d.buffer.viewFrom d.buffer.head.headIdx)
      (show d.buffer.head.headIdx = d.buffer.tail by omega) (show 0 < d.buffer.cap by omega) rec
    rw [← Bool.not_eq_true, hiff]
    simp only [not_exists, not_and, hzero, true_implies]
    exact Iff.rfl
  · obtain ⟨hdel, hrecords⟩ := deleteRecord_records hformed (Nat.pos_of_ne_zero hzero) rec
    refine ⟨hrecords.trans (markFirst_of_none hnone), ?_⟩
    rw [hdel, hnone]
    simp [hzero]

omit [Zero K] [Zero V] in
/-- With a copy in the buffer `delete_record` returns true, and the first copy, if it had no
delete bit, counts no more. -/
theorem Tagged.deleteRecord_some (h : Tagged lwm hwm d e m) {rec : Record K V}
    {w : Wrapped (Record K V)} (hfirst : firstCopy rec d.buffer.records = some w) :
    ((e.view d.buffer).deleteRecord rec).1 = true ∧
      (∀ v ∈ (d.withData ((e.view d.buffer).deleteRecord rec).2).buffer.records,
        v.isTombstone = false) ∧
      ∀ r, undeleted (d.withData ((e.view d.buffer).deleteRecord rec).2).buffer.records r +
        (if r = rec ∧ w.isDeleted = false then 1 else 0) = undeleted d.buffer.records r := by
  have hpos : 0 < d.buffer.getRecordCount := by
    rw [← MutableBuffer.length_records]
    exact List.length_pos_of_mem (List.mem_of_find?_eq_some hfirst)
  obtain ⟨hdel, hrecords⟩ := deleteRecord_records h.serving.idle.formed hpos rec
  rw [← h.serving.view_eq] at hdel hrecords
  have hafter : (d.withData ((e.view d.buffer).deleteRecord rec).2).buffer.records =
      markFirst rec d.buffer.records := hrecords
  refine ⟨by rw [hdel, hfirst]; rfl, fun v hv => ?_, fun r => ?_⟩
  · rw [hafter] at hv
    exact isTombstone_markFirst h.bufferLive v hv
  · rw [hafter]
    exact undeleted_markFirst hfirst r

omit [Zero K] [Zero V] in
theorem Tagged.records_ne_nil (h : Tagged lwm hwm d e m) :
    ∀ x ∈ e.vers.getShards, (ISAMTree.shardType lay std).records x ≠ [] := by
  intro x hx hnil
  have hpos := (h.shards x (ExtensionStructure.mem_getShards.mp hx)).1
  rw [(ISAMTree.shardType lay std).recordCount_eq, hnil] at hpos
  exact absurd hpos (lt_irrefl _)

section Erase
variable {past : Scratch lay std} {rec : Record K V}

theorem Tagged.not_erasesOne (h : Tagged lwm hwm d e m)
    (hrun : d.eraseTagged past rec = some (1, d)) : ¬ ErasesOne past d e rec := by
  intro hone
  obtain ⟨hret, heq⟩ := (h.erasesOne_of hrun h).mp hone
  simp [erase_eq_self.mp heq.symm] at hret

theorem Tagged.erase_absent (h : Tagged lwm hwm d e m)
    (hmiss : ∀ x ∈ e.vers.getShards, Misses past rec x)
    (hnone : firstCopy rec d.buffer.records = none)
    (hrun : d.eraseTagged past rec = some (if ((e.view d.buffer).deleteRecord rec).1 then 1 else 0,
      d.withData ((e.view d.buffer).deleteRecord rec).2)) :
    (ErasesOne past d e rec ↔ EraseOk past d e rec) ∧
      (EraseOk past d e rec →
        Tagged lwm hwm (d.withData ((e.view d.buffer).deleteRecord rec).2) e (m.erase rec)) := by
  obtain ⟨hrecords, hring⟩ := h.deleteRecord_none hnone
  have h₁ : Tagged lwm hwm (d.withData ((e.view d.buffer).deleteRecord rec).2) e m :=
    h.withData (by rw [hrecords]; exact h.bufferLive) fun r => by rw [hrecords]
  have hok : EraseOk past d e rec ↔
      rec ∉ m ∧ ((e.view d.buffer).deleteRecord rec).1 = false := by
    rw [h.gone_iff hnone, hring]
    exact ⟨fun hok => ⟨hok.gone hnone, hok.ring⟩,
      fun hok => ⟨hmiss, by simp [hnone], fun _ => hok.1, hok.2⟩⟩
  refine ⟨?_, fun hok' => ?_⟩
  · rw [h.erasesOne_of hrun h₁, hok, eq_comm (a := m), erase_eq_self]
    by_cases hmem : rec ∈ m <;> simp [hmem]
  · rwa [Multiset.erase_of_notMem (hok.mp hok').1]

theorem Tagged.erase_deleted (h : Tagged lwm hwm d e m) {w : Wrapped (Record K V)}
    (hfirst : firstCopy rec d.buffer.records = some w) (hw : w.isDeleted = true)
    (hrun : d.eraseTagged past rec = some (if ((e.view d.buffer).deleteRecord rec).1 then 1 else 0,
      d.withData ((e.view d.buffer).deleteRecord rec).2)) : ¬ ErasesOne past d e rec := by
  obtain ⟨hdel, hlive, hmark⟩ := h.deleteRecord_some hfirst
  have h₁ : Tagged lwm hwm (d.withData ((e.view d.buffer).deleteRecord rec).2) e m :=
    h.withData hlive fun r => by
      have := hmark r
      rw [hw] at this
      simp only [Bool.true_eq_false, and_false, if_false] at this
      omega
  rw [h.erasesOne_of hrun h₁, hdel, eq_comm (a := m), erase_eq_self]
  by_cases hmem : rec ∈ m <;> simp [hmem]

theorem Tagged.erase_first (h : Tagged lwm hwm d e m) {w : Wrapped (Record K V)}
    (hfirst : firstCopy rec d.buffer.records = some w) (hw : w.isDeleted = false)
    (hrun : d.eraseTagged past rec = some (if ((e.view d.buffer).deleteRecord rec).1 then 1 else 0,
      d.withData ((e.view d.buffer).deleteRecord rec).2)) :
    ErasesOne past d e rec ∧
      Tagged lwm hwm (d.withData ((e.view d.buffer).deleteRecord rec).2) e (m.erase rec) := by
  obtain ⟨hdel, hlive, hmark⟩ := h.deleteRecord_some hfirst
  simp only [hw, and_true] at hmark
  have hmem : rec ∈ m := by
    rw [← Multiset.count_pos, ← h.counts, h.serving.undeleted_copies, Pi.add_apply]
    have := hmark rec
    rw [if_pos rfl] at this
    omega
  have hcount : ∀ r, m.count r = (m.erase rec).count r + if r = rec then 1 else 0 := by
    intro r
    conv_lhs => rw [← Multiset.cons_erase hmem, Multiset.count_cons]
  have h₁ : Tagged lwm hwm (d.withData ((e.view d.buffer).deleteRecord rec).2) e
      (m.erase rec) :=
    h.withData hlive fun r => by
      have := hmark r
      rw [hcount]
      omega
  refine ⟨?_, h₁⟩
  rw [h.erasesOne_of hrun h₁, hdel]
  simp [hmem]

end Erase

/-- An erase takes one undeleted copy if and only if the state has what it needs, and then
the multiset loses the record. -/
theorem Tagged.erase (h : Tagged lwm hwm d e m) (past : Scratch lay std) (rec : Record K V) :
    (ErasesOne past d e rec ↔ EraseOk past d e rec) ∧
      (EraseOk past d e rec → ∃ n d', d.eraseTagged past rec = some (n, d') ∧
        Tagged lwm hwm d' e (m.erase rec)) := by
  have hrun := h.serving.idle.eraseTagged h.records_ne_nil past rec
  by_cases hmiss : ∀ x ∈ e.vers.getShards, Misses past rec x
  swap
  · rw [if_neg hmiss] at hrun
    have hno : ¬ EraseOk past d e rec := fun hok => hmiss hok.missed
    exact ⟨iff_of_false (h.not_erasesOne hrun) hno, fun hok => absurd hok hno⟩
  rw [if_pos hmiss] at hrun
  cases hfirst : firstCopy rec d.buffer.records with
  | none =>
    obtain ⟨hiff, hnext⟩ := h.erase_absent hmiss hfirst hrun
    exact ⟨hiff, fun hok => ⟨_, _, hrun, hnext hok⟩⟩
  | some w =>
    cases hw : w.isDeleted with
    | true =>
      have hno : ¬ EraseOk past d e rec := fun hok => by simpa [hw] using hok.first w hfirst
      exact ⟨iff_of_false (h.erase_deleted hfirst hw hrun) hno, fun hok => absurd hok hno⟩
    | false =>
      have hlen : d.buffer.getRecordCount ≠ 0 := by
        rw [← MutableBuffer.length_records]
        exact (List.length_pos_of_mem (List.mem_of_find?_eq_some hfirst)).ne'
      have hok : EraseOk past d e rec :=
        ⟨hmiss, by simp [hfirst, hw], by simp [hfirst], fun hzero => absurd hzero hlen⟩
      obtain ⟨hone, hnext⟩ := h.erase_first hfirst hw hrun
      exact ⟨iff_of_true hone hok, fun _ => ⟨_, _, hrun, hnext⟩⟩

theorem Tagged.run (hlwm : 0 < lwm) (hle : lwm ≤ hwm) (h : Tagged lwm hwm d e m)
    {calls : List (TaggedCall lay std)} (hok : StepRun.Always taggedStep TaggedOk d calls) :
    ∃ d' e', StepRun.run taggedStep d calls = some d' ∧
      Tagged lwm hwm d' e' (calls.foldl TaggedCall.apply m) := by
  induction calls generalizing d e m with
  | nil => exact ⟨d, e, rfl, h⟩
  | cons c calls ih =>
    obtain ⟨hc, hrest⟩ := hok
    obtain ⟨d₁, e₁, hstep, h₁⟩ : ∃ d₁ e₁, taggedStep d c = some d₁ ∧
        Tagged lwm hwm d₁ e₁ (TaggedCall.apply m c) := by
      cases c with
      | insert rec logging =>
        obtain ⟨d₁, e₁, hrun, h₁⟩ := h.insert hlwm hle hc.1 hc.2 rec logging
        exact ⟨d₁, e₁, by rw [taggedStep, taggedCall, hrun]; rfl, h₁⟩
      | erase past rec =>
        obtain ⟨n, d₁, hrun, h₁⟩ :=
          (h.erase past rec).2 (hc e (by rw [h.serving.idle.current]; rfl))
        exact ⟨d₁, e, by rw [taggedStep, taggedCall, hrun]; rfl, h₁⟩
    obtain ⟨d', e', hrun, h'⟩ := ih h₁ (hrest d₁ hstep)
    exact ⟨d', e', by rw [StepRun.run_cons, hstep, Option.bind_some, hrun], h'⟩

theorem tagged_new (lay : NodeLayout) (std : StdLib (Record K V)) (L : LayoutPolicy)
    {scale : Nat} (hlwm : 0 < lwm) (hle : lwm ≤ hwm) (hscale : 0 < scale)
    (hbsm : L = .bsm → scale = 2) {log : Option (List (WALEntry (Record K V)))}
    (hlog : ∀ file, log = some file → file = []) :
    ∃ d e, new (ISAMTree.shardType lay std) L lwm hwm scale none log = some d ∧
      Tagged lwm hwm d e 0 := by
  obtain ⟨d, e, hnew, htracks⟩ :=
    tracks_new (ISAMTree.shardType lay std) L hlwm hle hscale hbsm hlog
  have hvers : e.vers = ExtensionStructure.new (ISAMTree.shardType lay std) L hwm scale := by
    have hcurrent := htracks.serving.idle.current
    rw [new_eq (ISAMTree.shardType lay std) L hlwm hle hbsm hlog, Option.some.injEq] at hnew
    rw [← hnew] at hcurrent
    simp only [EpochPtr.mk.injEq, Option.some.injEq, and_true] at hcurrent
    rw [← hcurrent]
  have hshards : e.vers.shards = 0 := by
    rw [hvers]
    simp [ExtensionStructure.new, ExtensionStructure.shards]
  have hrecords : d.buffer.records = [] := by
    obtain ⟨old, recent, hcalls, -, hpay⟩ := htracks.split
    obtain ⟨-, rfl⟩ := List.append_eq_nil_iff.mp hcalls.symm
    simpa using hpay
  refine ⟨d, e, hnew, htracks.serving, by simp [hrecords], by simp [hshards], ?_, fun r => ?_⟩
  · rw [hvers]
    cases L with
    | leveling => trivial
    | teiring => trivial
    | bsm =>
      refine .inr ?_
      simp [ExtensionStructure.new, ExtensionStructure.levelAt, ExtensionStructure.shardCapacity]
      omega
  · rw [htracks.serving.undeleted_copies, hrecords, hshards]
    rfl

/-- In a run whose inserts find their slots and whose erases find what they need, a scan
returns what was inserted and not erased, and an erase takes an undeleted copy in exactly
the states that have what it needs. -/
theorem tagged_iff (lay : NodeLayout) (std : StdLib (Record K V)) (L : LayoutPolicy)
    {scale : Nat} (hlwm : 1 ≤ lwm) (hle : lwm ≤ hwm) (hscale : 2 ≤ scale)
    (hbsm : L = .bsm → scale = 2) {log : Option (List (WALEntry (Record K V)))}
    (hlog : ∀ file, log = some file → file = []) :
    ∃ d₀, new (ISAMTree.shardType lay std) L lwm hwm scale none log = some d₀ ∧
      ∀ calls, StepRun.Always taggedStep TaggedOk d₀ calls →
        ∃ d e, StepRun.run taggedStep d₀ calls = some d ∧ d.currentEpoch.epoch = some e ∧
          (∀ r, undeleted (copies d e) r = (TaggedCall.contents calls).count r) ∧
          (d.ScanYields fun r => (TaggedCall.contents calls).count r) ∧
          ∀ past rec, ErasesOne past d e rec ↔ EraseOk past d e rec := by
  obtain ⟨d₀, e₀, hnew, h₀⟩ := tagged_new lay std L hlwm hle (by omega : 0 < scale) hbsm hlog
  refine ⟨d₀, hnew, fun calls hok => ?_⟩
  obtain ⟨d, e, hrun, h⟩ := h₀.run hlwm hle hok
  exact ⟨d, e, hrun, by rw [h.serving.idle.current], h.counts,
    (h.scanYields_iff _).mpr fun _ => rfl,
    fun past rec => (h.erase past rec).1⟩

/-- One of two copies is erased while both are in the buffer; then an insert flushes it. -/
theorem tagged_iff_sample :
    let calls : List (TaggedCall NodeLayout.words (StdLib.sorted (Record Nat Nat))) :=
      [.insert ⟨1, 5⟩ true, .insert ⟨1, 5⟩ true, .erase (fun _ => 0) ⟨1, 5⟩, .insert ⟨2, 6⟩ true]
    ∃ d₀ d, new (ISAMTree.shardType NodeLayout.words (StdLib.sorted (Record Nat Nat))) .teiring
        2 2 2 none none = some d₀ ∧ StepRun.run taggedStep d₀ calls = some d ∧
      d.ScanYields fun r => (TaggedCall.contents calls).count r := by
  intro calls
  obtain ⟨d₀, hnew, hall⟩ := tagged_iff NodeLayout.words (StdLib.sorted (Record Nat Nat)) .teiring
    (show 1 ≤ 2 by decide) (le_refl 2) (le_refl 2) (by decide)
    (show ∀ file, none = some file → file = [] by simp)
  have hok : ∀ d ∈ new (ISAMTree.shardType NodeLayout.words (StdLib.sorted (Record Nat Nat)))
      .teiring 2 2 2 none none, StepRun.Always taggedStep TaggedOk d calls := by decide +kernel
  obtain ⟨d, e, hrun, -, -, hscan, -⟩ := hall calls (hok d₀ hnew)
  exact ⟨d₀, d, hnew, hrun, hscan⟩

/-- A flushed record is found in its shard: the erase returns 1, and scans go on returning
the record. -/
theorem not_tagged :
    let calls : List (TaggedCall NodeLayout.words (StdLib.sorted (Record Nat Nat))) :=
      [.insert ⟨1, 5⟩ true, .insert ⟨2, 6⟩ true]
    ∃ d₀ d e d', new (ISAMTree.shardType NodeLayout.words (StdLib.sorted (Record Nat Nat)))
        .teiring 1 1 2 none none = some d₀ ∧ StepRun.run taggedStep d₀ calls = some d ∧
      d.currentEpoch.epoch = some e ∧ undeleted (copies d e) ⟨1, 5⟩ = 1 ∧
      d.eraseTagged (fun _ => 0) ⟨1, 5⟩ = some (1, d') ∧
      d'.scanAll 3 ⟨1, 0⟩ ⟨1, 9⟩ = some [⟨1, 5⟩] ∧ ¬ ErasesOne (fun _ => 0) d e ⟨1, 5⟩ := by
  intro calls
  obtain ⟨d₀, e₀, hnew, h₀⟩ := tagged_new NodeLayout.words (StdLib.sorted (Record Nat Nat)) .teiring
    (show 0 < 1 by decide) (le_refl 1) (show 0 < 2 by decide) (by decide)
    (show ∀ file, none = some file → file = [] by simp)
  have hok : ∀ d ∈ new (ISAMTree.shardType NodeLayout.words (StdLib.sorted (Record Nat Nat)))
      .teiring 1 1 2 none none, StepRun.Always taggedStep TaggedOk d calls := by decide +kernel
  have hfinal : (new (ISAMTree.shardType NodeLayout.words (StdLib.sorted (Record Nat Nat))) .teiring
      1 1 2 none none).bind (fun d₀ => (StepRun.run taggedStep d₀ calls).bind fun d =>
        d.currentEpoch.epoch.map fun e =>
          (undeleted (copies d e) ⟨1, 5⟩, decide (EraseOk (fun _ => 0) d e ⟨1, 5⟩))) =
      some (1, false) := by decide +kernel
  have herase : (new (ISAMTree.shardType NodeLayout.words (StdLib.sorted (Record Nat Nat))) .teiring
      1 1 2 none none).bind (fun d₀ => (StepRun.run taggedStep d₀ calls).bind fun d =>
        (d.eraseTagged (fun _ => 0) ⟨1, 5⟩).map fun p => (p.1, p.2.scanAll 3 ⟨1, 0⟩ ⟨1, 9⟩)) =
      some (1, some [⟨1, 5⟩]) := by decide +kernel
  obtain ⟨d, e, hrun, h⟩ := h₀.run (by decide) (le_refl 1) (hok d₀ hnew)
  have hepoch : d.currentEpoch.epoch = some e := by rw [h.serving.idle.current]
  simp only [hnew, hrun, hepoch, Option.bind_some, Option.map_some, Option.some.injEq,
    Prod.mk.injEq, decide_eq_false_iff_not] at hfinal herase
  obtain ⟨hcopy, hno⟩ := hfinal
  obtain ⟨⟨n, d'⟩, hdel, hpair⟩ := Option.map_eq_some_iff.mp herase
  simp only [Prod.mk.injEq] at hpair
  obtain ⟨rfl, hscan⟩ := hpair
  exact ⟨d₀, d, e, d', hnew, hrun, hepoch, hcopy, hdel, hscan,
    fun hone => hno ((h.erase (fun _ => 0) ⟨1, 5⟩).1.mp hone)⟩

end Tagged

end DynamicExtension

end De
