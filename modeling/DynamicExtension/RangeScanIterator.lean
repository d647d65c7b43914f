import DynamicExtension.LiveCount
set_option autoImplicit false

namespace De
open KWay
variable {K V : Type} [LinearOrder K] [LinearOrder V] [Zero K] [Zero V]

/-- `RangeScanIterator`, without the epoch that it holds -/
structure RangeScanIterator (std : StdLib (Record K V)) where
  finish : Record K V
  bufferRecs : List (Wrapped (Record K V))
  bufferIdx : Nat
  shardIters : List (ISAMTree.Iterator K V)
  heap : std.queue.Queue
  current : Record K V
  pending : Nat

namespace RangeScanIterator
variable {std : StdLib (Record K V)}

section Defs
variable (lay : NodeLayout)

def refill (it : RangeScanIterator std) (source : Nat) : Option (RangeScanIterator std) :=
  match source with
  | 0 => some <|
    match it.bufferRecs[it.bufferIdx]? with
    | none => it
    | some rec => { it with
        bufferIdx := it.bufferIdx + 1
        heap := std.queue.push ⟨rec, 0⟩ it.heap }
  | i + 1 => do
    let iter ← it.shardIters[i]?
    match ← iter.getCurrent lay with
    | none => return it
    | some rec =>
      if rec.record.key ≤ it.finish.key then
        return { it with
          heap := std.queue.push ⟨rec, i + 1⟩ it.heap
          shardIters := it.shardIters.set i iter.getNext }
      else
        return it

/-- A bound for the entries that can still be popped -/
def work (it : RangeScanIterator std) : Nat :=
  (std.queue.elems it.heap).card + (it.bufferRecs.length - it.bufferIdx) +
    (it.shardIters.map fun iter => iter.stop - iter.idx).sum + 1

/-- The inner loop of `advance`, which counts the copies of `rec` -/
def popGroup (rec : Record K V) :
    Nat → Int → RangeScanIterator std → Option (Int × RangeScanIterator std)
  | 0, _, _ => none
  | fuel + 1, live, it =>
    match std.queue.top it.heap with
    | none => some (live, it)
    | some entry =>
      if entry.item.record = rec then do
        let it := { it with heap := std.queue.pop it.heap }
        let live :=
          if entry.item.isTombstone then live - 1
          else if !entry.item.isDeleted then live + 1
          else live
        let it ← it.refill lay entry.source
        popGroup rec fuel live it
      else
        some (live, it)

def advanceLoop : Nat → RangeScanIterator std → Option (RangeScanIterator std)
  | 0, _ => none
  | fuel + 1, it =>
    match std.queue.top it.heap with
    | none => some { it with pending := 0 }
    | some entry => do
      let (live, it) ← popGroup lay entry.item.record it.work 0 it
      if live > 0 then
        return { it with current := entry.item.record, pending := live.toNat }
      else
        advanceLoop fuel it

def advance (it : RangeScanIterator std) : Option (RangeScanIterator std) :=
  advanceLoop lay it.work it

def hasNext (it : RangeScanIterator std) : Bool := it.pending > 0

def next (it : RangeScanIterator std) : Option (Record K V × RangeScanIterator std) := do
  guard (it.pending > 0)
  let r := it.current
  let it := { it with pending := it.pending - 1 }
  if it.pending = 0 then
    return (r, ← it.advance lay)
  else
    return (r, it)

/-- `while (it.has_next()) it.next()` -/
def drain : Nat → RangeScanIterator std → Option (List (Record K V))
  | 0, _ => none
  | fuel + 1, it =>
    if it.hasNext then do
      let (r, it) ← it.next lay
      return r :: (← drain fuel it)
    else
      some []

/-- The constructor on the view and the shards of its epoch -/
def new (std : StdLib (Record K V)) (view : BufferView (Record K V)) (shards : List (ISAMTree K V))
    (start finish : Record K V) : Option (RangeScanIterator std) := do
  let bufferRecs := std.sort (view.records.filter fun w =>
    start.key ≤ w.record.key ∧ w.record.key ≤ finish.key)
  let shardIters ← shards.mapM fun shard => shard.getIterator lay start.key
  let it : RangeScanIterator std := ⟨finish, bufferRecs, 0, shardIters, std.queue.empty, 0, 0⟩
  let it ← (List.range (shardIters.length + 1)).foldlM (fun it source => it.refill lay source) it
  it.advance lay

end Defs

variable {lay : NodeLayout}

/-- The iterator is the queue state `st` of a k-way merge of the buffer's records
and of what the shards' iterators yield up to the last key. -/
structure Reads (lay : NodeLayout) (it : RangeScanIterator std) (st : State std.queue) : Prop where
  heap : st.heap = it.heap
  rest : ∃ ls, st.rest = it.bufferRecs.drop it.bufferIdx :: ls ∧
    List.Forall₂ (fun iter l => ∃ l', ISAMTree.Iterator.Yields lay iter l' ∧
      l = l'.takeWhile fun w => w.record.key ≤ it.finish.key) it.shardIters ls

omit [Zero K] [Zero V] in
theorem Reads.length {it : RangeScanIterator std} {st : State std.queue} (h : Reads lay it st) :
    st.rest.length = it.shardIters.length + 1 := by
  obtain ⟨ls, hrest, hls⟩ := h.rest
  simp [hrest, hls.length_eq]

theorem Reads.refill {it : RangeScanIterator std} {st : State std.queue} (h : Reads lay it st)
    {source : Nat} (hs : source < it.shardIters.length + 1) :
    ∃ it', it.refill lay source = some it' ∧ Reads lay it' (st.refill source) := by
  obtain ⟨ls, hrest, hls⟩ := h.rest
  cases source with
  | zero =>
    cases hb : it.bufferRecs[it.bufferIdx]? with
    | none =>
      have hdrop : it.bufferRecs.drop it.bufferIdx = [] :=
        List.drop_eq_nil_iff.mpr (List.getElem?_eq_none_iff.mp hb)
      have hst : st.refill 0 = st := by simp [State.refill, hrest, hdrop]
      exact ⟨it, by simp [RangeScanIterator.refill, hb], by rw [hst]; exact h⟩
    | some rec =>
      obtain ⟨hlt, hrec⟩ := List.getElem?_eq_some_iff.mp hb
      have hdrop : it.bufferRecs.drop it.bufferIdx =
          rec :: it.bufferRecs.drop (it.bufferIdx + 1) := by
        rw [List.drop_eq_getElem_cons hlt, hrec]
      refine ⟨{ it with
        bufferIdx := it.bufferIdx + 1
        heap := std.queue.push ⟨rec, 0⟩ it.heap }, by simp [RangeScanIterator.refill, hb],
        ?_, ls, ?_, hls⟩
      · simp [State.refill, hrest, hdrop, h.heap]
      · simp [State.refill, hrest, hdrop]
  | succ i =>
    have hi : i < it.shardIters.length := by omega
    have hil : i < ls.length := hls.length_eq ▸ hi
    obtain ⟨iter, hiter, l, hyields, hl⟩ := forall₂_getElem? hls (List.getElem?_eq_getElem hil)
    have hcur := hyields.getCurrent
    have hsource : st.rest[i + 1]? = some ls[i] := by simp [hrest, hil]
    cases hhead : l with
    | nil =>
      have hst : st.refill (i + 1) = st := by
        simp [State.refill, hsource, hl, hhead]
      refine ⟨it, ?_, by rw [hst]; exact h⟩
      simp [RangeScanIterator.refill, hiter, hcur, hhead]
    | cons rec l₁ =>
      rw [hhead, List.head?_cons] at hcur
      by_cases hle : rec.record.key ≤ it.finish.key
      · have htake : ls[i] = rec :: l₁.takeWhile fun w => w.record.key ≤ it.finish.key := by
          rw [hl, hhead, List.takeWhile_cons_of_pos (by simpa using hle)]
        have hnext := hyields.getNext
        rw [hhead, List.tail_cons] at hnext
        refine ⟨{ it with
          heap := std.queue.push ⟨rec, i + 1⟩ it.heap
          shardIters := it.shardIters.set i iter.getNext }, ?_, ?_, ls.set i (l₁.takeWhile
            fun w => w.record.key ≤ it.finish.key), ?_, forall₂_set hls i ⟨l₁, hnext, rfl⟩⟩
        · simp [RangeScanIterator.refill, hiter, hcur, hle]
        · simp [State.refill, hsource, htake, h.heap]
        · simp only [State.refill, hsource, htake]
          rw [hrest, List.set_cons_succ]
      · have htake : ls[i] = [] := by
          rw [hl, hhead, List.takeWhile_cons_of_neg (by simpa using hle)]
        have hst : st.refill (i + 1) = st := by simp [State.refill, hsource, htake]
        refine ⟨it, ?_, by rw [hst]; exact h⟩
        simp [RangeScanIterator.refill, hiter, hcur, hle]

/-- The iterator's entries leave the queue in record order. -/
structure Merging (lay : NodeLayout) (it : RangeScanIterator std)
    (st : State std.queue) : Prop where
  reads : Reads lay it st
  ready : st.Ready
  sourced : st.Sourced

omit [LinearOrder V] [Zero K] [Zero V] in
theorem length_yields {iters : List (ISAMTree.Iterator K V)}
    {ls : List (List (Wrapped (Record K V)))} {finish : K}
    (h : List.Forall₂ (fun iter l => ∃ l', ISAMTree.Iterator.Yields lay iter l' ∧
      l = l'.takeWhile fun w => w.record.key ≤ finish) iters ls) :
    ls.flatten.length ≤ (iters.map fun iter => iter.stop - iter.idx).sum := by
  induction h with
  | nil => simp
  | cons hy _ ih =>
    obtain ⟨l', ⟨recs, -, hstop, hl'⟩, hl⟩ := hy
    have hle := (List.takeWhile_sublist (l := l') fun w => decide (w.record.key ≤ finish)).length_le
    rw [← hl, hl', List.length_drop] at hle
    rw [List.flatten_cons, List.length_append, List.map_cons, List.sum_cons, hstop]
    omega

omit [Zero K] [Zero V] in
theorem Merging.length_lt_work {it : RangeScanIterator std} {st : State std.queue}
    (h : Merging lay it st) : st.order.length < it.work := by
  obtain ⟨ls, hrest, hls⟩ := h.reads.rest
  have hcard : st.order.length = st.content.card := by
    rw [← (State.order_spec h.ready).1, Multiset.coe_card]
  have hsum := length_yields hls
  rw [hcard, work, State.content, hrest, h.reads.heap]
  simp only [Multiset.card_add, Multiset.card_map, Multiset.coe_card, List.flatten_cons,
    List.length_append, List.length_drop]
  omega

theorem Merging.pop {it : RangeScanIterator std} {st : State std.queue} (h : Merging lay it st)
    {entry : Node (Wrapped (Record K V))} (htop : std.queue.top it.heap = some entry) :
    ∃ it' st', RangeScanIterator.refill lay { it with heap := std.queue.pop it.heap } entry.source =
        some it' ∧ Merging lay it' st' ∧ st.order = entry.item :: st'.order := by
  have htop' : std.queue.top st.heap = some entry := by rw [h.reads.heap, htop]
  have hnext : st.next =
      some (entry.item, State.refill entry.source ⟨st.rest, std.queue.pop st.heap⟩) := by
    simp [State.next, htop']
  have hpop : Reads lay { it with heap := std.queue.pop it.heap }
      ⟨st.rest, std.queue.pop st.heap⟩ := ⟨by rw [h.reads.heap], h.reads.rest⟩
  have hsrc : entry.source < it.shardIters.length + 1 := by
    have := h.sourced entry (std.queue.top_mem htop')
    rwa [h.reads.length] at this
  obtain ⟨it', hit', hreads⟩ := hpop.refill hsrc
  exact ⟨it', _, hit', ⟨hreads, State.ready_next h.ready hnext,
    (h.sourced.pop htop').refill _⟩, State.order_of_next hnext⟩

omit [Zero K] [Zero V] in
theorem Merging.order_nil {it : RangeScanIterator std} {st : State std.queue}
    (h : Merging lay it st) (htop : std.queue.top it.heap = none) : st.order = [] :=
  State.order_of_next_none (next_of_top_none (by rw [h.reads.heap, htop]))

theorem popGroup_spec (rec : Record K V) (fuel : Nat) (live : Int) (it : RangeScanIterator std)
    (st : State std.queue) (h : Merging lay it st) (hfuel : st.order.length < fuel) :
    ∃ it' st', popGroup lay rec fuel live it =
        some (live + ((st.order.takeWhile fun w => w.record = rec).map liveWeight).sum, it') ∧
      Merging lay it' st' ∧ st'.order = st.order.dropWhile fun w => w.record = rec := by
  induction fuel generalizing live it st with
  | zero => omega
  | succ fuel ih =>
    unfold popGroup
    cases htop : std.queue.top it.heap with
    | none => exact ⟨it, st, by simp [h.order_nil htop], h, by simp [h.order_nil htop]⟩
    | some entry =>
      obtain ⟨it₁, st₁, hrefill, h₁, horder⟩ := h.pop htop
      by_cases hrec : entry.item.record = rec
      · obtain ⟨it', st', hrun, h', horder'⟩ := ih (live + liveWeight entry.item) it₁ st₁ h₁ (by
          rw [horder, List.length_cons] at hfuel
          omega)
        refine ⟨it', st', ?_, h', by simp [horder, horder', hrec]⟩
        have hlive : (if entry.item.isTombstone then live - 1
            else if !entry.item.isDeleted then live + 1 else live) =
            live + liveWeight entry.item := by
          rw [liveWeight]
          cases entry.item.isTombstone <;> cases entry.item.isDeleted <;> simp <;> rfl
        simp only [hrec, if_true, hlive, hrefill, Option.bind_eq_bind, Option.bind_some, hrun]
        simp [horder, hrec, add_assoc]
      · exact ⟨it, st, by simp [hrec, horder], h, by simp [horder, hrec]⟩

/-- What an iterator in this state will return -/
def rest (it : RangeScanIterator std) (st : State std.queue) : List (Record K V) :=
  List.replicate it.pending it.current ++ emit st.order

theorem advanceLoop_spec (fuel : Nat) (it : RangeScanIterator std) (st : State std.queue)
    (h : Merging lay it st) (hfuel : st.order.length < fuel) :
    ∃ it' st', advanceLoop lay fuel it = some it' ∧ Merging lay it' st' ∧
      it'.rest st' = emit st.order ∧ (it'.pending = 0 → st'.order = []) := by
  induction fuel generalizing it st with
  | zero => omega
  | succ fuel ih =>
    unfold advanceLoop
    cases htop : std.queue.top it.heap with
    | none =>
      refine ⟨{ it with pending := 0 }, st, rfl, ⟨⟨h.reads.heap, h.reads.rest⟩, h.ready, h.sourced⟩,
        by simp [rest], fun _ => h.order_nil htop⟩
    | some entry =>
      obtain ⟨-, st₁, -, -, horder⟩ := h.pop htop
      obtain ⟨it', st', hrun, h', horder'⟩ :=
        popGroup_spec entry.item.record it.work 0 it st h h.length_lt_work
      set live := ((st.order.takeWhile fun w => w.record = entry.item.record).map liveWeight).sum
        with hlive
      have hemit : emit st.order =
          List.replicate live.toNat entry.item.record ++ emit st'.order := by
        rw [horder', hlive, horder, emit_cons]
        simp
      simp only [hrun, Option.bind_eq_bind, Option.bind_some, zero_add]
      by_cases hpos : live > 0
      · refine ⟨{ it' with current := entry.item.record, pending := live.toNat }, st', ?_,
          ⟨⟨h'.reads.heap, h'.reads.rest⟩, h'.ready, h'.sourced⟩, by rw [hemit]; rfl, ?_⟩
        · rw [if_pos hpos]
          rfl
        · intro hzero
          have : live.toNat = 0 := hzero
          omega
      · have hshort : st'.order.length < fuel := by
          rw [horder'] at *
          rw [horder, List.length_cons] at hfuel
          have hle := (List.dropWhile_sublist (l := st₁.order) fun w =>
            decide (w.record = entry.item.record)).length_le
          simp only [horder, List.dropWhile_cons, decide_true, if_true]
          omega
        obtain ⟨it'', st'', hloop, hm, hrest, hdone⟩ := ih it' st' h' hshort
        refine ⟨it'', st'', by rw [if_neg hpos, hloop], hm, ?_, hdone⟩
        have hzero : live.toNat = 0 := by omega
        rw [hrest, hemit, hzero]
        rfl

omit [Zero K] [Zero V] in
theorem rest_of_not_hasNext {it : RangeScanIterator std} {st : State std.queue}
    (hdone : it.pending = 0 → st.order = []) (hn : it.hasNext = false) : it.rest st = [] := by
  have hp : it.pending = 0 := by simpa [hasNext] using hn
  simp [rest, hp, hdone hp, emit]

/-- One `next` returns the first record that is still to come. -/
theorem next_spec {it : RangeScanIterator std} {st : State std.queue} (h : Merging lay it st)
    (hn : it.hasNext = true) :
    ∃ it' st', it.next lay = some (it.current, it') ∧ Merging lay it' st' ∧
      (it'.pending = 0 → st'.order = []) ∧ it.rest st = it.current :: it'.rest st' := by
  obtain ⟨n, hp⟩ : ∃ n, it.pending = n + 1 := ⟨it.pending - 1, by simp [hasNext] at hn; omega⟩
  have hrest : it.rest st = it.current :: (List.replicate n it.current ++ emit st.order) := by
    rw [rest, hp, List.replicate_succ, List.cons_append]
  have hm : Merging lay { it with pending := n } st :=
    ⟨⟨h.reads.heap, h.reads.rest⟩, h.ready, h.sourced⟩
  by_cases hzero : n = 0
  · subst hzero
    obtain ⟨it', st', hadv, hm', hrest', hdone'⟩ :=
      advanceLoop_spec _ _ st hm hm.length_lt_work
    refine ⟨it', st', by simp [next, hp, guard, advance, hadv], hm', hdone', ?_⟩
    rw [hrest, hrest']
    rfl
  · exact ⟨{ it with pending := n }, st, by simp [next, hp, guard, hzero], hm,
      fun h0 => absurd h0 hzero, hrest⟩

theorem drain_spec (fuel : Nat) (it : RangeScanIterator std) (st : State std.queue)
    (h : Merging lay it st) (hdone : it.pending = 0 → st.order = [])
    (hfuel : (it.rest st).length < fuel) : it.drain lay fuel = some (it.rest st) := by
  induction fuel generalizing it st with
  | zero => omega
  | succ fuel ih =>
    unfold drain
    cases hn : it.hasNext with
    | false => simp [rest_of_not_hasNext hdone hn]
    | true =>
      obtain ⟨it', st', hnext, hm', hdone', hrest⟩ := next_spec h hn
      rw [hrest, List.length_cons] at hfuel
      have hdrain := ih it' st' hm' hdone' (by omega)
      simp [hnext, hdrain, hrest]

theorem foldlM_refill (is : List Nat) {it : RangeScanIterator std} {st : State std.queue}
    (h : Reads lay it st) (his : ∀ i ∈ is, i < st.rest.length) :
    ∃ it', is.foldlM (fun it source => it.refill lay source) it = some it' ∧
      Reads lay it' (is.foldl (fun st i => st.refill i) st) := by
  induction is generalizing it st with
  | nil => exact ⟨it, rfl, h⟩
  | cons i is ih =>
    obtain ⟨it₁, hrun, h₁⟩ := h.refill (by rw [← h.length]; exact his i List.mem_cons_self)
    have hlen : (st.refill i).rest.length = st.rest.length :=
      foldl_refill_length std.queue [i] st
    obtain ⟨it', hit', h'⟩ := ih h₁ fun j hj => by
      rw [hlen]
      exact his j (List.mem_cons_of_mem _ hj)
    exact ⟨it', by rw [List.foldlM_cons, hrun]; exact hit', h'⟩

/-- The lists that a scan merges -/
def sources (std : StdLib (Record K V)) (view : BufferView (Record K V))
    (ls : List (List (Wrapped (Record K V)))) (start finish : Record K V) :
    List (List (Wrapped (Record K V))) :=
  std.sort (view.records.filter fun w => start.key ≤ w.record.key ∧ w.record.key ≤ finish.key) ::
    ls.map fun l => (l.filter fun w => start.key ≤ w.record.key).takeWhile
      fun w => w.record.key ≤ finish.key

omit [Zero K] [Zero V] in
theorem sources_sorted (std : StdLib (Record K V)) (view : BufferView (Record K V))
    {ls : List (List (Wrapped (Record K V)))}
    (hls : ∀ l ∈ ls, l.Pairwise fun a b => a.record ≤ b.record) (start finish : Record K V) :
    ∀ l ∈ sources std view ls start finish, l.Pairwise fun a b => a.record ≤ b.record := by
  intro l hl
  rcases List.mem_cons.mp hl with rfl | hl
  · exact std.sort_sorted _
  · obtain ⟨m, hm, rfl⟩ := List.mem_map.mp hl
    exact (hls m hm).sublist ((List.takeWhile_sublist _).trans List.filter_sublist)

/-- The constructor, once the shards have given their iterators -/
def ofIterators (lay : NodeLayout) (std : StdLib (Record K V)) (view : BufferView (Record K V))
    (shardIters : List (ISAMTree.Iterator K V)) (start finish : Record K V) :
    Option (RangeScanIterator std) := do
  let bufferRecs := std.sort (view.records.filter fun w =>
    start.key ≤ w.record.key ∧ w.record.key ≤ finish.key)
  let it : RangeScanIterator std := ⟨finish, bufferRecs, 0, shardIters, std.queue.empty, 0, 0⟩
  let it ← (List.range (shardIters.length + 1)).foldlM (fun it source => it.refill lay source) it
  it.advance lay

theorem new_eq (lay : NodeLayout) (std : StdLib (Record K V)) (view : BufferView (Record K V))
    (shards : List (ISAMTree K V)) (start finish : Record K V) :
    new lay std view shards start finish =
      (shards.mapM fun shard : ISAMTree K V => shard.getIterator lay start.key).bind fun iters =>
        ofIterators lay std view iters start finish := rfl

/-- A scan's iterator starts with everything in the key range still to come. -/
theorem ofIterators_spec (std : StdLib (Record K V)) (view : BufferView (Record K V))
    {iters : List (ISAMTree.Iterator K V)} {ls : List (List (Wrapped (Record K V)))}
    {start : Record K V} (h : List.Forall₂ (fun iter l => ISAMTree.Iterator.Yields lay iter
      (l.filter fun w => start.key ≤ w.record.key)) iters ls)
    (hsorted : ∀ l ∈ ls, l.Pairwise fun a b => a.record ≤ b.record) (finish : Record K V) :
    ∃ it st, ofIterators lay std view iters start finish = some it ∧ Merging lay it st ∧
      (it.pending = 0 → st.order = []) ∧
      it.rest st = emit (KWay.start std.queue (sources std view ls start finish)).order := by
  have hall : List.Forall₂ (fun iter l => ∃ l', ISAMTree.Iterator.Yields lay iter l' ∧
      l = l'.takeWhile fun w => w.record.key ≤ finish.key) iters
      (ls.map fun l => (l.filter fun w => start.key ≤ w.record.key).takeWhile
        fun w => w.record.key ≤ finish.key) :=
    List.forall₂_map_right_iff.mpr (h.imp fun iter l hy => ⟨_, hy, rfl⟩)
  set bufferRecs := std.sort (view.records.filter fun w =>
    start.key ≤ w.record.key ∧ w.record.key ≤ finish.key) with hbuffer
  set srcs := sources std view ls start finish with hsrcs
  let it₀ : RangeScanIterator std := ⟨finish, bufferRecs, 0, iters, std.queue.empty, 0, 0⟩
  have hreads : Reads lay it₀ (⟨srcs, std.queue.empty⟩ : State std.queue) := ⟨rfl, _, rfl, hall⟩
  have hlen : srcs.length = iters.length + 1 := by rw [← hreads.length]
  obtain ⟨it₁, hrun, hreads₁⟩ := foldlM_refill (List.range (iters.length + 1)) hreads fun i hi => by
    rw [List.mem_range] at hi
    exact hlen ▸ hi
  rw [← hlen] at hreads₁
  have hm : Merging lay it₁ (KWay.start std.queue srcs) :=
    ⟨hreads₁, start_ready srcs (sources_sorted std view hsorted start finish),
      start_sourced std.queue srcs⟩
  obtain ⟨it', st', hadv, hm', hrest, hdone⟩ := advanceLoop_spec _ it₁ _ hm hm.length_lt_work
  refine ⟨it', st', ?_, hm', hdone, hrest⟩
  simp only [ofIterators, ← hbuffer]
  rw [hrun]
  exact hadv

theorem new_spec (std : StdLib (Record K V)) (view : BufferView (Record K V))
    {shards : List (ISAMTree K V)} {ls : List (List (Wrapped (Record K V)))}
    (h : List.Forall₂ (fun x l => ISAMTree.WellFormed lay x l) shards ls)
    (hsorted : ∀ l ∈ ls, l.Pairwise fun a b => a.record ≤ b.record) (start finish : Record K V) :
    ∃ it st, new lay std view shards start finish = some it ∧ Merging lay it st ∧
      (it.pending = 0 → st.order = []) ∧
      it.rest st = emit (KWay.start std.queue (sources std view ls start finish)).order := by
  have hiters : ∃ iters, (shards.mapM fun shard => shard.getIterator lay start.key) = some iters ∧
      List.Forall₂ (fun iter l => ISAMTree.Iterator.Yields lay iter
        (l.filter fun w => start.key ≤ w.record.key)) iters ls := by
    clear hsorted
    induction h with
    | nil => exact ⟨[], rfl, .nil⟩
    | cons hx _ ih =>
      obtain ⟨iter, hiter, hy⟩ := ISAMTree.getIterator_spec hx start.key
      obtain ⟨iters, hmap, hall⟩ := ih
      exact ⟨iter :: iters, by simp [List.mapM_cons, hiter, hmap], .cons hy hall⟩
  obtain ⟨iters, hmap, hall⟩ := hiters
  rw [new_eq, hmap]
  exact ofIterators_spec std view hall hsorted finish

omit [Zero K] [Zero V] in
theorem takeWhile_eq_filter {l : List (Wrapped (Record K V))}
    (hs : l.Pairwise fun a b => a.record ≤ b.record) (finish : K) :
    (l.takeWhile fun w => w.record.key ≤ finish) = l.filter fun w => w.record.key ≤ finish := by
  induction l with
  | nil => rfl
  | cons w l ih =>
    obtain ⟨hle, hl⟩ := List.pairwise_cons.mp hs
    by_cases hw : w.record.key ≤ finish
    · rw [List.takeWhile_cons_of_pos (by simpa using hw), List.filter_cons_of_pos
        (by simpa using hw),
        ih hl]
    · rw [List.takeWhile_cons_of_neg (by simpa using hw), eq_comm, List.filter_eq_nil_iff]
      intro v hv
      rcases List.mem_cons.mp hv with rfl | hv
      · simpa using hw
      · have hkey := Record.key_le_of_le (hle v hv)
        simpa using lt_of_lt_of_le (not_le.mp hw) hkey

/-- What a scan over the stored copies `l` returns -/
structure ScanOf (l : List (Wrapped (Record K V))) (start finish : Record K V)
    (out : List (Record K V)) : Prop where
  sorted : out.Pairwise (· ≤ ·)
  count : ∀ r, out.count r =
    if start.key ≤ r.key ∧ r.key ≤ finish.key then (visible l r).toNat else 0

omit [Zero K] [Zero V] in
theorem visible_range (l : List (Wrapped (Record K V))) (start finish : K) (r : Record K V) :
    visible (l.filter fun w => start ≤ w.record.key ∧ w.record.key ≤ finish) r =
      if start ≤ r.key ∧ r.key ≤ finish then visible l r else 0 := by
  have h := visible_filter (fun q : Record K V => decide (start ≤ q.key ∧ q.key ≤ finish)) l r
  simpa using h

omit [Zero K] [Zero V] in
theorem visible_sources (std : StdLib (Record K V)) (view : BufferView (Record K V))
    {ls : List (List (Wrapped (Record K V)))}
    (hls : ∀ l ∈ ls, l.Pairwise fun a b => a.record ≤ b.record) (start finish r : Record K V) :
    visible (sources std view ls start finish).flatten r =
      if start.key ≤ r.key ∧ r.key ≤ finish.key then visible (view.records ++ ls.flatten) r
      else 0 := by
  have hshards : visible (ls.map fun l => (l.filter fun w => start.key ≤ w.record.key).takeWhile
      fun w => w.record.key ≤ finish.key).flatten r =
      if start.key ≤ r.key ∧ r.key ≤ finish.key then visible ls.flatten r else 0 := by
    induction ls with
    | nil => simp
    | cons l ls ih =>
      have hl := (hls l List.mem_cons_self).sublist
        (List.filter_sublist (p := fun w => decide (start.key ≤ w.record.key)))
      have hrange := visible_range l start.key finish.key r
      rw [List.map_cons, List.flatten_cons, visible_append, Pi.add_apply,
        ih fun m hm => hls m (List.mem_cons_of_mem _ hm), takeWhile_eq_filter hl finish.key,
        List.filter_filter, List.flatten_cons, visible_append, Pi.add_apply]
      simp only [Bool.and_comm, ← Bool.decide_and, hrange]
      split <;> simp
  rw [sources, List.flatten_cons, visible_append, Pi.add_apply, hshards,
    visible_perm (std.sort_perm _), visible_range, visible_append, Pi.add_apply]
  split <;> simp

omit [Zero K] [Zero V] in
theorem scanOf_emit (std : StdLib (Record K V)) (view : BufferView (Record K V))
    {ls : List (List (Wrapped (Record K V)))}
    (hls : ∀ l ∈ ls, l.Pairwise fun a b => a.record ≤ b.record) (start finish : Record K V) :
    ScanOf (view.records ++ ls.flatten) start finish
      (emit (KWay.start std.queue (sources std view ls start finish)).order) := by
  have hready : (KWay.start std.queue (sources std view ls start finish)).Ready :=
    start_ready _ (sources_sorted std view hls start finish)
  obtain ⟨hcontent, hsorted⟩ := State.order_spec hready
  rw [start_content, Multiset.coe_eq_coe] at hcontent
  refine ⟨emit_sorted hsorted, fun r => ?_⟩
  rw [count_emit hsorted, visible_perm hcontent, visible_sources std view hls]
  split <;> simp

/-- The iterator returns these records one by one, and `has_next` tells when there
is none left. -/
def Serves (lay : NodeLayout) : List (Record K V) → RangeScanIterator std → Prop
  | [], it => it.hasNext = false
  | r :: out, it => it.hasNext = true ∧ ∃ it', it.next lay = some (r, it') ∧ Serves lay out it'

theorem Merging.serves {it : RangeScanIterator std} {st : State std.queue}
    (h : Merging lay it st) (hdone : it.pending = 0 → st.order = []) {out : List (Record K V)}
    (hout : it.rest st = out) : Serves lay out it := by
  induction out generalizing it st with
  | nil =>
    cases hn : it.hasNext with
    | false => exact hn
    | true =>
      obtain ⟨it', st', -, -, -, hrest⟩ := next_spec h hn
      rw [hout] at hrest
      cases hrest
  | cons r out ih =>
    cases hn : it.hasNext with
    | false =>
      rw [rest_of_not_hasNext hdone hn] at hout
      cases hout
    | true =>
      obtain ⟨it', st', hnext, hm', hdone', hrest⟩ := next_spec h hn
      obtain ⟨rfl, hrest'⟩ := List.cons.inj (hrest.symm.trans hout)
      exact ⟨hn, it', hnext, ih hm' hdone' hrest'⟩

/-- Sorted sources are merged into the live records of the range, in record order. -/
theorem ofIterators_serves (lay : NodeLayout) (std : StdLib (Record K V))
    (view : BufferView (Record K V)) {iters : List (ISAMTree.Iterator K V)}
    {ls : List (List (Wrapped (Record K V)))} {start : Record K V}
    (hiters : List.Forall₂ (ISAMTree.Iterator.Yields lay) iters ls)
    (hsorted : ∀ l ∈ ls, l.Pairwise fun a b => a.record ≤ b.record)
    (hstart : ∀ l ∈ ls, ∀ w ∈ l, start.key ≤ w.record.key) (finish : Record K V) :
    ∃ it out, ofIterators lay std view iters start finish = some it ∧ Serves lay out it ∧
      ScanOf (view.records ++ ls.flatten) start finish out := by
  have hfilter : List.Forall₂ (fun iter l => ISAMTree.Iterator.Yields lay iter
      (l.filter fun w => start.key ≤ w.record.key)) iters ls := by
    have hall : List.Forall₂ (fun l iter => (∀ w ∈ l, start.key ≤ w.record.key) ∧
        ISAMTree.Iterator.Yields lay iter l) ls iters :=
      (List.forall₂_and_left ls iters).mpr ⟨hstart, hiters.flip⟩
    refine hall.flip.imp fun iter l h => ?_
    rw [List.filter_eq_self.mpr fun w hw => by simpa using h.1 w hw]
    exact h.2
  obtain ⟨it, st, hnew, hm, hdone, hrest⟩ := ofIterators_spec std view hfilter hsorted finish
  exact ⟨it, _, hnew, hm.serves hdone hrest, scanOf_emit std view hsorted start finish⟩

theorem ofIterators_serves_sample :
    let tree := ISAMTree.sampleTree [(2, 6, false), (1, 5, false), (1, 5, false)]
    let view : BufferView (Record Nat Nat) := BufferView.ofList [Wrapped.fresh ⟨1, 5⟩ true]
    ∃ iter it out, ISAMTree.getIterator NodeLayout.words tree.1 1 = some iter ∧
      ofIterators NodeLayout.words (StdLib.sorted _) view [iter] ⟨1, 0⟩ ⟨9, 0⟩ = some it ∧
      Serves NodeLayout.words out it ∧
      ScanOf (view.records ++ (tree.1.records NodeLayout.words).filter fun w => 1 ≤ w.record.key)
        ⟨1, 0⟩ ⟨9, 0⟩ out := by
  intro tree view
  have hwf := ISAMTree.Shard.wellFormed tree
  obtain ⟨iter, hiter, hyields⟩ := ISAMTree.getIterator_spec hwf 1
  have hstart : ∀ l ∈ [(tree.1.records NodeLayout.words).filter fun w => 1 ≤ w.record.key],
      ∀ w ∈ l, (⟨1, 0⟩ : Record Nat Nat).key ≤ w.record.key := by simp
  obtain ⟨it, out, hnew, hserves, hscan⟩ := ofIterators_serves NodeLayout.words
    (StdLib.sorted (Record Nat Nat)) view (.cons hyields .nil)
    (by simpa using hwf.sorted.sublist List.filter_sublist) hstart ⟨9, 0⟩
  exact ⟨iter, it, out, hiter, hnew, hserves, by simpa using hscan⟩

end RangeScanIterator

end De
