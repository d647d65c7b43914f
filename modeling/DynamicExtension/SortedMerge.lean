import DynamicExtension.RangeQuery
set_option autoImplicit false

namespace De
open KWay PQ
open RangeQuery (Cursor Combine)

/-- What the merge asks of a shard: its record array, in record order -/
structure ArrayShard (R : Type) [LinearOrder R] where
  data : List (Wrapped R)
  tombstoneCount : Nat
  sorted : data.Pairwise fun a b => a.record ≤ b.record

/-- `merge_info` -/
structure MergeInfo where
  recordCount : Nat
  tombstoneCount : Nat
  deriving DecidableEq, Repr

namespace SortedMerge
variable {R : Type} [LinearOrder R]

/-- The records at the pointer of a shard; behind a null pointer there are none. -/
def dataOf : Option (ArrayShard R) → List (Wrapped R)
  | some shard => shard.data
  | none => []

/-- `build_cursor_vec`, with the counts `reccnt` and `tscnt` -/
def buildCursorVec (shards : List (Option (ArrayShard R))) : List (Cursor R) × Nat × Nat :=
  (shards.map fun s => ⟨dataOf s, 0⟩,
    (shards.map fun s => (dataOf s).length).sum,
    (shards.map fun s => (s.map ArrayShard.tombstoneCount).getD 0).sum)

/-- The variables of `sorted_array_merge`; the output array holds `buffer` so far. -/
structure Merge (pq : WrappedQueue R) where
  cursors : List (Cursor R)
  queue : pq.Queue
  buffer : List (Wrapped R)
  info : MergeInfo

namespace Merge
variable {pq : WrappedQueue R}

/-- Every cursor's pointer is pushed. One that no record stands behind has no
defined content, and the queue's comparisons and the loop read it. -/
def start (pq : WrappedQueue R) (cursors : List (Cursor R)) : Option (Merge pq) := do
  let queue ← (List.range cursors.length).foldlM (fun q i => do
    let w ← (← cursors[i]?).ptr
    return pq.push ⟨w, i⟩ q) pq.empty
  return ⟨cursors, queue, [], ⟨0, 0⟩⟩

/-- `advance_cursor`, and a push if there is a next record -/
def advance (st : Merge pq) (version : Nat) : Option (Merge pq) := do
  let (more, c) := (← st.cursors[version]?).advance
  let st := { st with cursors := st.cursors.set version c }
  if more then
    return { st with queue := pq.push ⟨← c.ptr, version⟩ st.queue }
  else
    return st

/-- `buffer[info.record_count++] = w`, and the tombstone count -/
def write (st : Merge pq) (w : Wrapped R) : Merge pq := { st with
  buffer := st.buffer ++ [w]
  info := ⟨st.info.recordCount + 1,
    if w.isTombstone then st.info.tombstoneCount + 1 else st.info.tombstoneCount⟩ }

/-- The body of the loop; `now` is what `peek` returned. -/
def turn (st : Merge pq) (now : Node (Wrapped R)) : Option (Merge pq) := do
  let next := pq.top (pq.pop st.queue)
  match next.filter fun next => !now.item.isTombstone ∧ now.item.record = next.item.record ∧
      next.item.isTombstone with
  | some next =>
    let st ← { st with queue := pq.pop (pq.pop st.queue) }.advance now.source
    st.advance next.source
  | none =>
    let w ← (← st.cursors[now.source]?).ptr
    let st := if w.isDeleted then st else st.write w
    { st with queue := pq.pop st.queue }.advance now.source

def loop : Nat → Merge pq → Option (List (Wrapped R) × MergeInfo)
  | 0, _ => none
  | fuel + 1, st =>
    match pq.top st.queue with
    | none => some (st.buffer, st.info)
    | some now => do loop fuel (← st.turn now)

end Merge

/-- `sorted_array_merge`: what is in the output array, and the counts -/
def sortedArrayMerge (pq : WrappedQueue R) (cursors : List (Cursor R)) :
    Option (List (Wrapped R) × MergeInfo) := do
  (← Merge.start pq cursors).loop ((cursors.map fun c => c.recs.length).sum + 1)

namespace Merge
variable {pq : WrappedQueue R} {st : Merge pq} {m : State pq}

/-- The cursors and the queue are those of a merge of local results. -/
def fronts (st : Merge pq) : Combine pq := ⟨st.cursors, st.queue, []⟩

theorem advance_fronts (st : Merge pq) {c c' : Combine pq} {version : Nat}
    (hcursors : c.cursors = st.cursors) (hqueue : c.queue = st.queue)
    (h : c.advance version = some c') :
    st.advance version = some { st with cursors := c'.cursors, queue := c'.queue } := by
  rw [Combine.advance, hcursors, hqueue] at h
  rw [advance]
  cases hget : st.cursors[version]? with
  | none => simp [hget] at h
  | some cur =>
    simp only [hget, Option.bind_eq_bind, Option.bind_some] at h ⊢
    cases hmore : cur.advance.1 with
    | false =>
      simp only [hmore, Bool.false_eq_true, if_false] at h ⊢
      obtain rfl := Option.some.inj h
      rfl
    | true =>
      simp only [hmore, if_true] at h ⊢
      cases hptr : cur.advance.2.ptr with
      | none => simp [hptr] at h
      | some w =>
        rw [hptr] at h
        obtain rfl := Option.some.inj h
        rfl

theorem record_le_of_order_le (a b : Node (Wrapped R)) (h : a.item.order ≤ b.item.order) :
    a.item.record ≤ b.item.record := Prod.Lex.monotone_fst _ _ h

/-- What is still to be read comes in record order; the headers need not be in order. -/
def Ordered (m : State pq) : Prop := (m.coarsen Wrapped.record record_le_of_order_le).Ready

theorem Ordered.take (h : Ordered m) {now : Node (Wrapped R)} (hnow : pq.top m.heap = some now) :
    Ordered (State.refill now.source (⟨m.rest, pq.pop m.heap⟩ : State pq)) := by
  have htop : (pq.coarsen _ record_le_of_order_le).top
    (m.coarsen Wrapped.record record_le_of_order_le).heap = some now := hnow
  intro i
  rw [State.coarsen_refill]
  by_cases hi : now.source = i
  · subst hi
    exact State.readyAt_refill _ _ (fun l hl => (h _ l hl).1) (getElem?_cases _ _)
  · exact State.readyAt_refill_of_ne hi (State.readyAt_pop htop hi (h i))

theorem Ordered.takeTwo (h : Ordered m) {now next : Node (Wrapped R)}
    (hnow : pq.top m.heap = some now) (hnext : pq.top (pq.pop m.heap) = some next)
    (hne : now.source ≠ next.source) :
    Ordered (State.refill next.source
      (State.refill now.source (⟨m.rest, pq.pop (pq.pop m.heap)⟩ : State pq))) := by
  have htop : (pq.coarsen _ record_le_of_order_le).top
    (m.coarsen Wrapped.record record_le_of_order_le).heap = some now := hnow
  intro i
  rw [State.coarsen_refill, State.coarsen_refill]
  by_cases hi : next.source = i
  · subst hi
    refine State.readyAt_refill _ _ (fun l hl => ?_) (getElem?_cases _ _)
    have hl' : m.rest[next.source]? = some l := by
      rw [← hl, State.refill]
      split
      · exact (List.getElem?_set_ne hne).symm
      · rfl
    exact (h _ l hl').1
  · refine State.readyAt_refill_of_ne hi ?_
    by_cases hi' : now.source = i
    · subst hi'
      exact State.readyAt_refill _ _ (fun l hl => (h _ l hl).1) (getElem?_cases _ _)
    · exact State.readyAt_refill_of_ne hi' (State.readyAt_pop hnext hi
        (State.readyAt_pop htop hi' (h i)))

theorem Ordered.le_content (h : Ordered m) {now : Node (Wrapped R)}
    (hnow : pq.top m.heap = some now) : ∀ w ∈ m.content, now.item.record ≤ w.record :=
  State.top_le_content h hnow

/-- A turn cancels a live copy with a tombstone of its record, or takes one record
and writes it unless it is marked deleted. -/
inductive Turned (st : Merge pq) (m : State pq) (now : Wrapped R) (st' : Merge pq)
    (m' : State pq) : Prop where
  | cancelled (next : Wrapped R) (live : now.isTombstone = false) (tomb : next.isTombstone = true)
      (record : next.record = now.record) (content : m.content = now ::ₘ next ::ₘ m'.content)
      (buffer : st'.buffer = st.buffer) (info : st'.info = st.info)
  | taken (content : m.content = now ::ₘ m'.content)
      (buffer : st'.buffer = (if now.isDeleted then st else st.write now).buffer)
      (info : st'.info = (if now.isDeleted then st else st.write now).info)

theorem turn_spec (h : Combine.Reads st.fronts m ∅) (ho : Ordered m) {now : Node (Wrapped R)}
    (hnow : pq.top m.heap = some now) :
    ∃ st' m', st.turn now = some st' ∧ Combine.Reads st'.fronts m' ∅ ∧ Ordered m' ∧
      Turned st m now.item st' m' := by
  have hcontent := m.content_pop hnow
  have hqueue : pq.top (pq.pop st.queue) = pq.top (pq.pop m.heap) := by rw [h.heap]; rfl
  cases hnext : (pq.top (pq.pop st.queue)).filter fun next => !now.item.isTombstone ∧
      now.item.record = next.item.record ∧ next.item.isTombstone with
  | some next =>
    obtain ⟨htop, hcond⟩ := Option.filter_eq_some_iff.mp hnext
    simp only [Bool.not_eq_true', decide_eq_true_eq] at hcond
    rw [hqueue] at htop
    obtain ⟨hne, c₁, c₂, hc₁, hc₂, -, h₂⟩ := h.takeTwo hnow htop
    have hst₁ := advance_fronts { st with queue := pq.pop (pq.pop st.queue) } rfl rfl hc₁
    have hst₂ := advance_fronts { st with cursors := c₁.cursors, queue := c₁.queue } rfl rfl hc₂
    refine ⟨{ st with cursors := c₂.cursors, queue := c₂.queue }, _, ?_, h₂.withOutput [],
      ho.takeTwo hnow htop hne, .cancelled next.item hcond.1 hcond.2.2 hcond.2.1.symm ?_ rfl rfl⟩
    · simp only [turn, hnext, Option.bind_eq_bind, hst₁, Option.bind_some, hst₂]
    · rw [State.content_refill, State.content_refill, hcontent,
        State.content_pop (⟨m.rest, pq.pop m.heap⟩ : State pq) htop]
  | none =>
    obtain ⟨c, hc, hptr⟩ := h.current now (pq.top_mem hnow)
    obtain ⟨c₁, hc₁, -, h₁⟩ := h.take hnow []
    set st₁ := if now.item.isDeleted then st else st.write now.item with hst₁
    have hfronts : st₁.fronts = st.fronts := by
      rw [hst₁]
      split <;> rfl
    rw [← hfronts] at hc₁
    have hadvance := advance_fronts { st₁ with queue := pq.pop st₁.queue } rfl rfl hc₁
    have hc' : st.cursors[now.source]? = some c := hc
    refine ⟨{ st₁ with cursors := c₁.cursors, queue := c₁.queue }, _, ?_, h₁.withOutput [],
      ho.take hnow, .taken ?_ rfl rfl⟩
    · simp only [turn, hnext, Option.bind_eq_bind, hc', Option.bind_some, hptr]
      exact hadvance
    · rw [State.content_refill, hcontent]

/-- `out` is what a merge may keep of the records `s`. -/
structure Merged (s : Multiset (Wrapped R)) (out : List (Wrapped R)) : Prop where
  sorted : out.Pairwise fun a b => a.record ≤ b.record
  copies : (out : Multiset (Wrapped R)) ≤ s
  kept : ∀ w ∈ out, w.isDeleted = false
  net : ∀ r, (∀ w ∈ s, w.record = r → w.isDeleted = false) → net out r = Combine.units s r

theorem units_cons (w : Wrapped R) (s : Multiset (Wrapped R)) (r : R) :
    Combine.units (w ::ₘ s) r = unit w r + Combine.units s r := by
  simp [Combine.units]

theorem merged_zero : Merged (0 : Multiset (Wrapped R)) [] :=
  ⟨List.Pairwise.nil, le_refl _, fun _ hw => absurd hw List.not_mem_nil, fun _ _ => rfl⟩

theorem Merged.cancel {s : Multiset (Wrapped R)} {out : List (Wrapped R)} (h : Merged s out)
    {now next : Wrapped R} (hrecord : next.record = now.record)
    (hopposite : next.isTombstone ≠ now.isTombstone) : Merged (now ::ₘ next ::ₘ s) out := by
  refine ⟨h.sorted, h.copies.trans ((Multiset.le_cons_self _ _).trans (Multiset.le_cons_self _ _)),
    h.kept, fun r hr => ?_⟩
  have hpair := congrFun (unit_add_unit hrecord hopposite) r
  simp only [Pi.add_apply, Pi.zero_apply] at hpair
  rw [units_cons, units_cons, h.net r fun w hw => hr w (by simp [hw]), ← add_assoc, hpair,
    zero_add]

theorem Merged.skip {s : Multiset (Wrapped R)} {out : List (Wrapped R)} (h : Merged s out)
    {now : Wrapped R} (hdeleted : now.isDeleted = true) : Merged (now ::ₘ s) out := by
  refine ⟨h.sorted, h.copies.trans (Multiset.le_cons_self _ _), h.kept, fun r hr => ?_⟩
  have hne : now.record ≠ r := fun heq => by
    have := hr now (Multiset.mem_cons_self _ _) heq
    rw [hdeleted] at this
    cases this
  rw [units_cons, h.net r fun w hw => hr w (Multiset.mem_cons_of_mem hw), unit, if_neg hne,
    zero_add]

theorem Merged.write {s : Multiset (Wrapped R)} {out : List (Wrapped R)} (h : Merged s out)
    {now : Wrapped R} (hkept : now.isDeleted = false) (hle : ∀ w ∈ s, now.record ≤ w.record) :
    Merged (now ::ₘ s) (now :: out) := by
  refine ⟨List.pairwise_cons.mpr ⟨fun w hw => hle w ?_, h.sorted⟩, ?_, fun w hw => ?_,
    fun r hr => ?_⟩
  · exact Multiset.mem_of_le h.copies (Multiset.mem_coe.mpr hw)
  · rw [← Multiset.cons_coe]
    exact (Multiset.cons_le_cons_iff _).mpr h.copies
  · rcases List.mem_cons.mp hw with rfl | hw
    · exact hkept
    · exact h.kept w hw
  · rw [units_cons, net_cons, Pi.add_apply, h.net r fun w hw => hr w (Multiset.mem_cons_of_mem hw)]

/-- The loop ends, and what it writes from here on is a merge of what is left. -/
theorem loop_spec (fuel : Nat) (h : Combine.Reads st.fronts m ∅) (ho : Ordered m)
    (hfuel : m.content.card < fuel) :
    ∃ out, st.loop fuel = some (st.buffer ++ out, ⟨st.info.recordCount + out.length,
      st.info.tombstoneCount + out.countP (·.isTombstone)⟩) ∧ Merged m.content out := by
  induction fuel generalizing st m with
  | zero => omega
  | succ fuel ih =>
    rw [loop]
    cases hnow : pq.top st.queue with
    | none =>
      have htop : pq.top m.heap = none := by rw [h.heap]; exact hnow
      rw [h.content_eq_zero htop]
      exact ⟨[], by simp, merged_zero⟩
    | some now =>
      have htop : pq.top m.heap = some now := by rw [h.heap]; exact hnow
      obtain ⟨st', m', hturn, h', ho', ht⟩ := turn_spec h ho htop
      have hle := ho.le_content htop
      cases ht with
      | cancelled next live tomb record content buffer info =>
        obtain ⟨out, hloop, hm⟩ := ih h' ho' (by simp [content] at hfuel; omega)
        rw [buffer, info] at hloop
        refine ⟨out, by simp [hturn, hloop], ?_⟩
        rw [content]
        exact hm.cancel record (by simp [live, tomb])
      | taken content buffer info =>
        obtain ⟨out, hloop, hm⟩ := ih h' ho' (by simp [content] at hfuel; omega)
        rw [buffer, info] at hloop
        rw [content] at hle ⊢
        cases hdel : now.item.isDeleted with
        | true =>
          simp only [hdel, if_true] at hloop
          exact ⟨out, by simp [hturn, hloop], hm.skip hdel⟩
        | false =>
          simp only [hdel, Bool.false_eq_true, if_false, write] at hloop
          refine ⟨now.item :: out, ?_, hm.write hdel fun w hw =>
            hle w (Multiset.mem_cons_of_mem hw)⟩
          cases htomb : now.item.isTombstone <;>
            simp [hturn, hloop, htomb, Nat.add_assoc, Nat.add_comm 1]

section Start
variable {ls : List (List (Wrapped R))}

theorem start_eq (pq : WrappedQueue R) (h : ∀ l ∈ ls, l ≠ []) :
    start pq (ls.map fun l => ⟨l, 0⟩) =
      some ⟨ls.map fun l => ⟨l, 0⟩, (Combine.new pq ls).queue, [], ⟨0, 0⟩⟩ := by
  obtain ⟨f, hqueue, hf⟩ : ∃ f : pq.Queue → Nat → pq.Queue,
      (Combine.new pq ls).queue = (List.range ls.length).foldl f pq.empty ∧
      ∀ q i w l, ls[i]? = some (w :: l) → f q i = pq.push ⟨w, i⟩ q :=
    ⟨_, rfl, fun q i w l hget => by simp [hget]⟩
  have hfold : ∀ (is : List Nat) (q : pq.Queue), (∀ i ∈ is, i < ls.length) →
      is.foldlM (fun q i => do
        let w ← (← (ls.map fun l => (⟨l, 0⟩ : Cursor R))[i]?).ptr
        return pq.push ⟨w, i⟩ q) q = some (is.foldl f q) := by
    intro is
    induction is with
    | nil => exact fun q _ => rfl
    | cons i is ih =>
      intro q hlt
      have hi := hlt i List.mem_cons_self
      obtain ⟨w, l, hl⟩ := List.exists_cons_of_ne_nil (h _ (List.getElem_mem hi))
      have hget : ls[i]? = some (w :: l) := by rw [List.getElem?_eq_getElem hi, hl]
      rw [List.foldlM_cons, List.foldl_cons, ← ih _ fun j hj => hlt j (List.mem_cons_of_mem _ hj)]
      simp [hget, Cursor.ptr, hf q i w l hget]
  rw [start, List.length_map, hfold _ _ fun i hi => List.mem_range.mp hi, hqueue]
  rfl

theorem start_eq_none (pq : WrappedQueue R) (h : [] ∈ ls) :
    start pq (ls.map fun l => ⟨l, 0⟩) = none := by
  obtain ⟨i, hi, hget⟩ := List.getElem_of_mem h
  have hfold : ∀ (is : List Nat) (q : pq.Queue), i ∈ is → is.foldlM (fun q i => do
        let w ← (← (ls.map fun l => (⟨l, 0⟩ : Cursor R))[i]?).ptr
        return pq.push ⟨w, i⟩ q) q = none := by
    intro is
    induction is with
    | nil => exact fun q hmem => absurd hmem List.not_mem_nil
    | cons j is ih =>
      intro q hmem
      rw [List.foldlM_cons]
      rcases List.mem_cons.mp hmem with rfl | hmem
      · simp [List.getElem?_eq_getElem hi, hget, Cursor.ptr]
      · exact Option.bind_eq_none_iff.mpr fun q' _ => ih q' hmem
  rw [start, List.length_map, hfold _ _ (List.mem_range.mpr hi)]
  rfl

theorem ordered_start (pq : WrappedQueue R)
    (hs : ∀ l ∈ ls, l.Pairwise fun a b => a.record ≤ b.record) :
    Ordered (⟨ls.map List.tail, (Combine.new pq ls).queue⟩ : State pq) := by
  obtain ⟨hreads, -⟩ := Combine.reads_new pq ls
  intro i t ht
  obtain ⟨l, hl, rfl⟩ : ∃ l, ls[i]? = some l ∧ l.tail = t := by simpa [State.coarsen] using ht
  cases l with
  | nil => simp
  | cons w l =>
    obtain ⟨hle, hsorted⟩ := List.pairwise_cons.mp (hs _ (List.mem_of_getElem? hl))
    refine ⟨hsorted, fun a ha => ?_⟩
    have hc : (Combine.new pq ls).cursors[i]? = some ⟨w :: l, 0⟩ := by simp [Combine.new, hl]
    obtain ⟨n, hn, rfl⟩ := hreads.loaded i _ w id hc rfl
    obtain ⟨c, hc', hptr⟩ := hreads.current n hn
    obtain rfl := Option.some.inj (hc.symm.trans hc')
    obtain rfl : w = n.item := Option.some.inj hptr
    exact ⟨n, hn, rfl, hle a ha⟩

end Start

end Merge

theorem sortedArrayMerge_spec (pq : WrappedQueue R) {ls : List (List (Wrapped R))}
    (hne : [] ∉ ls) (hs : ∀ l ∈ ls, l.Pairwise fun a b => a.record ≤ b.record) :
    ∃ out, sortedArrayMerge pq (ls.map fun l => ⟨l, 0⟩) =
        some (out, ⟨out.length, out.countP (·.isTombstone)⟩) ∧
      Merge.Merged (ls.flatten : Multiset (Wrapped R)) out := by
  set st : Merge pq := ⟨ls.map fun l => ⟨l, 0⟩, (Combine.new pq ls).queue, [], ⟨0, 0⟩⟩ with hst
  obtain ⟨hreads, hcontent⟩ := Combine.reads_new pq ls
  have hstart : Merge.start pq (ls.map fun l => ⟨l, 0⟩) = some st :=
    Merge.start_eq pq fun l hl hnil => hne (hnil ▸ hl)
  have hfuel : ((ls.map fun l => (⟨l, 0⟩ : Cursor R)).map fun c => c.recs.length).sum =
      ls.flatten.length := by
    rw [List.map_map, List.length_flatten]
    rfl
  have hfronts : Combine.Reads st.fronts ⟨ls.map List.tail, (Combine.new pq ls).queue⟩ ∅ := hreads
  obtain ⟨out, hloop, hm⟩ := Merge.loop_spec (ls.flatten.length + 1) hfronts
    (Merge.ordered_start pq hs) (by rw [hcontent, Multiset.coe_card]; exact Nat.lt_succ_self _)
  rw [hcontent] at hm
  refine ⟨out, ?_, hm⟩
  rw [sortedArrayMerge, hstart, hfuel, Option.bind_eq_bind, Option.bind_some, hloop]
  simp [hst]

/-- The output array holds `out`: sorted copies of the input without delete marks,
with the net counts of the records that have no delete-marked copy. -/
structure Preserves (inputs out : List (Wrapped R)) (info : MergeInfo) : Prop where
  recordCount : info.recordCount = out.length
  sorted : out.Pairwise fun a b => a.record ≤ b.record
  net : ∀ r, (∀ w ∈ inputs, w.record = r → w.isDeleted = false) → net out r = net inputs r
  kept : ∀ w ∈ out, w.isDeleted = false
  copies : out.Subperm inputs
  tombstoneCount : info.tombstoneCount = out.countP (·.isTombstone)

def inputs (shards : List (Option (ArrayShard R))) : List (Wrapped R) :=
  (shards.map dataOf).flatten

/-- The output fits in an array of `reccnt` records. -/
theorem Preserves.fits {shards : List (Option (ArrayShard R))} {out : List (Wrapped R)}
    {info : MergeInfo} (h : Preserves (inputs shards) out info) :
    info.recordCount ≤ (buildCursorVec shards).2.1 := by
  have hsum : (buildCursorVec shards).2.1 = (inputs shards).length := by
    rw [inputs, List.length_flatten, List.map_map]
    rfl
  rw [hsum, h.recordCount]
  exact h.copies.length_le

def MergesRight (pq : WrappedQueue R) (shards : List (Option (ArrayShard R))) : Prop :=
  ∃ out info, sortedArrayMerge pq (buildCursorVec shards).1 = some (out, info) ∧
    Preserves (inputs shards) out info

theorem cursors_eq (shards : List (Option (ArrayShard R))) :
    (buildCursorVec shards).1 = (shards.map dataOf).map fun l => ⟨l, 0⟩ := by
  rw [List.map_map]
  rfl

theorem sorted_dataOf (shard : Option (ArrayShard R)) :
    (dataOf shard).Pairwise fun a b => a.record ≤ b.record := by
  cases shard with
  | none => exact List.Pairwise.nil
  | some shard => exact shard.sorted

theorem not_mergesRight_of_mem {pq : WrappedQueue R} {shards : List (Option (ArrayShard R))}
    (h : [] ∈ shards.map dataOf) : ¬ MergesRight pq shards := by
  rintro ⟨out, info, hmerge, -⟩
  rw [cursors_eq, sortedArrayMerge, Merge.start_eq_none pq h] at hmerge
  cases hmerge

/-- The merge preserves the contents if and only if no shard is null or without records. -/
theorem mergesRight_iff (pq : WrappedQueue R) (shards : List (Option (ArrayShard R))) :
    MergesRight pq shards ↔ ∀ s ∈ shards, ∃ shard, s = some shard ∧ shard.data ≠ [] := by
  have hnonempty : (∀ s ∈ shards, ∃ shard, s = some shard ∧ shard.data ≠ []) ↔
      [] ∉ shards.map dataOf := by
    simp only [List.mem_map, not_exists, not_and]
    refine forall₂_congr fun s _ => ?_
    cases s <;> simp [dataOf]
  rw [hnonempty]
  constructor
  · exact fun h hnil => not_mergesRight_of_mem hnil h
  · intro hne
    have hsorted : ∀ l ∈ shards.map dataOf, l.Pairwise fun a b => a.record ≤ b.record := by
      intro l hl
      obtain ⟨s, -, rfl⟩ := List.mem_map.mp hl
      exact sorted_dataOf s
    obtain ⟨out, hmerge, hm⟩ := sortedArrayMerge_spec pq hne hsorted
    refine ⟨out, _, cursors_eq shards ▸ hmerge, rfl, hm.sorted, fun r hr => ?_, hm.kept,
      Multiset.coe_le.mp hm.copies,
      rfl⟩
    rw [hm.net r fun w hw => hr w (Multiset.mem_coe.mp hw), Combine.units_coe]
    rfl

/-- A shard whose records have all cancelled out, next to a shard of one record, and a
null shard by itself -/
theorem not_mergesRight :
    ¬ MergesRight (PriorityQueue.sorted _) [some ⟨[], 0, List.Pairwise.nil⟩,
        some ⟨[Wrapped.fresh 7 false], 0, List.pairwise_singleton _ _⟩] ∧
    ¬ MergesRight (PriorityQueue.sorted _) ([none] : List (Option (ArrayShard Nat))) :=
  ⟨not_mergesRight_of_mem (by simp [dataOf]), not_mergesRight_of_mem (by simp [dataOf])⟩

end SortedMerge

end De
