import DynamicExtension.RangeScan
set_option autoImplicit false

namespace De
open KWay PQ

section Queue
variable {R : Type} [LinearOrder R]

/-- `Wrapped::operator<` compares these. -/
def Wrapped.order (w : Wrapped R) : R ×ₗ Nat := toLex (w.record, w.header.toNat)

omit [LinearOrder R] in
theorem Wrapped.eq_of_order_eq {a b : Wrapped R} (h : a.order = b.order) : a = b := by
  obtain ⟨hrec, hheader⟩ := Prod.ext_iff.mp (congrArg ofLex h)
  cases a
  cases b
  simp only [Wrapped.order, ofLex_toLex] at hrec hheader
  rw [hrec, BitVec.eq_of_toNat_eq hheader]

/-- `psudb::PriorityQueue` on the records at the fronts of the local results; the
version that goes with an entry is the number of its cursor, and `peek(1)` is what
is at the top after a `pop`. -/
abbrev WrappedQueue (R : Type) [LinearOrder R] :=
  PriorityQueue (Node (Wrapped R)) (R ×ₗ Nat) fun n => n.item.order

end Queue

namespace RangeQuery

structure Parameters (K : Type) where
  lowerBound : K
  upperBound : K

structure LocalQuery (K : Type) where
  startIdx : Nat
  stopIdx : Nat
  globalParms : Parameters K

section Local
variable {K V : Type} [LinearOrder K] [LinearOrder V]

def Parameters.Contains (parms : Parameters K) (r : Record K V) : Prop :=
  parms.lowerBound ≤ r.key ∧ r.key ≤ parms.upperBound

instance (parms : Parameters K) (r : Record K V) : Decidable (parms.Contains r) :=
  inferInstanceAs (Decidable (_ ∧ _))

/-- `local_query` on the record array of a shard -/
def localQueryOn (data : List (Wrapped (Record K V))) (query : LocalQuery K) :
    List (Wrapped (Record K V)) :=
  if query.startIdx = data.length then
    []
  else
    let ptr := ((data.take query.stopIdx).drop query.startIdx).dropWhile
      fun w => w.record.key < query.globalParms.lowerBound
    ptr.takeWhile fun w => w.record.key ≤ query.globalParms.upperBound

def localQueryBuffer (buffer : BufferView (Record K V)) (globalParms : Parameters K) :
    List (Wrapped (Record K V)) :=
  buffer.records.filter fun w => globalParms.lowerBound ≤ w.record.key ∧
    w.record.key ≤ globalParms.upperBound

end Local

section Combine
variable {R : Type} [LinearOrder R]

structure Cursor (R : Type) where
  recs : List (Wrapped R)
  curRecIdx : Nat

namespace Cursor

omit [LinearOrder R] in
def ptr (c : Cursor R) : Option (Wrapped R) := c.recs[c.curRecIdx]?

omit [LinearOrder R] in
/-- `advance_cursor`: the cursor on the next record, and whether there is one -/
def advance (c : Cursor R) : Bool × Cursor R :=
  (c.curRecIdx + 1 < c.recs.length, { c with curRecIdx := c.curRecIdx + 1 })

end Cursor

/-- The variables of `combine` -/
structure Combine (pq : WrappedQueue R) where
  cursors : List (Cursor R)
  queue : pq.Queue
  output : List R

namespace Combine
variable {pq : WrappedQueue R}

def new (pq : WrappedQueue R) (localResults : List (List (Wrapped R))) : Combine pq where
  cursors := localResults.map fun l => ⟨l, 0⟩
  queue := (List.range localResults.length).foldl (fun q i =>
    match localResults[i]? with
    | some (w :: _) => pq.push ⟨w, i⟩ q
    | _ => q) pq.empty
  output := []

/-- Advance a cursor, and push its next record if it has one. -/
def advance (st : Combine pq) (version : Nat) : Option (Combine pq) := do
  let c ← st.cursors[version]?
  let (more, c) := c.advance
  let st := { st with cursors := st.cursors.set version c }
  if more then
    return { st with queue := pq.push ⟨← c.ptr, version⟩ st.queue }
  else
    return st

/-- The body of the loop; `now` is what `peek` returned. -/
def turn (st : Combine pq) (now : Node (Wrapped R)) : Option (Combine pq) := do
  let next := pq.top (pq.pop st.queue)
  match next.filter fun next => !now.item.isTombstone ∧ now.item.record = next.item.record ∧
      next.item.isTombstone with
  | some next =>
    let st := { st with queue := pq.pop (pq.pop st.queue) }
    let st ← st.advance now.source
    st.advance next.source
  | none =>
    let cursor ← st.cursors[now.source]?
    let output ←
      if now.item.isTombstone then some st.output
      else cursor.ptr.map fun w => st.output ++ [w.record]
    let st := { st with output := output, queue := pq.pop st.queue }
    st.advance now.source

def loop : Nat → Combine pq → Option (List R)
  | 0, _ => none
  | fuel + 1, st =>
    match pq.top st.queue with
    | none => some st.output
    | some now => do loop fuel (← st.turn now)

end Combine

namespace Combine
variable {pq : WrappedQueue R} {st : Combine pq} {m : State pq}

/-- The loop is at the state `m` of a k-way merge of the local results. The front of
each is in the queue, apart from those that were popped and are still to advance. -/
structure Reads (st : Combine pq) (m : State pq) (popped : Set Nat) : Prop where
  heap : m.heap = st.queue
  rest : m.rest = st.cursors.map fun c => c.recs.drop (c.curRecIdx + 1)
  current : ∀ n ∈ pq.elems m.heap, ∃ c, st.cursors[n.source]? = some c ∧ c.ptr = some n.item
  nodup : ((pq.elems m.heap).map Node.source).Nodup
  free : ∀ n ∈ pq.elems m.heap, n.source ∉ popped
  loaded : ∀ i c w, i ∉ popped → st.cursors[i]? = some c → c.ptr = some w →
    ∃ n ∈ pq.elems m.heap, n.source = i

theorem Reads.pop {popped : Set Nat} (h : Reads st m popped) {now : Node (Wrapped R)}
    (hnow : pq.top m.heap = some now) :
    Reads { st with queue := pq.pop st.queue } ⟨m.rest, pq.pop m.heap⟩
      (insert now.source popped) := by
  have hnodup := h.nodup
  rw [pq.elems_pop now m.heap hnow, Multiset.map_cons, Multiset.nodup_cons] at hnodup
  refine ⟨by rw [h.heap], h.rest, fun n hn => h.current n (pq.mem_of_mem_pop hnow hn), hnodup.2,
    fun n hn hmem => ?_, fun i c w hi hc hw => ?_⟩
  · rcases hmem with heq | hmem
    · exact hnodup.1 (heq ▸ Multiset.mem_map_of_mem Node.source hn)
    · exact h.free n (pq.mem_of_mem_pop hnow hn) hmem
  · obtain ⟨hne, hi⟩ := not_or.mp hi
    obtain ⟨n, hn, rfl⟩ := h.loaded i c w hi hc hw
    rw [pq.elems_pop now m.heap hnow, Multiset.mem_cons] at hn
    rcases hn with rfl | hn
    · exact absurd rfl hne
    · exact ⟨n, hn, rfl⟩

theorem Reads.withOutput {popped : Set Nat} (h : Reads st m popped) (output : List R) :
    Reads { st with output := output } m popped :=
  ⟨h.heap, h.rest, h.current, h.nodup, h.free, h.loaded⟩

theorem Reads.others {popped : Set Nat} (h : Reads st m popped) {i : Nat} (hi : i ∈ popped)
    (c' : Cursor R) :
    (∀ n ∈ pq.elems m.heap, ∃ c, (st.cursors.set i c')[n.source]? = some c ∧
      c.ptr = some n.item) ∧
    ∀ j c w, j ≠ i → j ∉ popped \ {i} → (st.cursors.set i c')[j]? = some c → c.ptr = some w →
      ∃ n ∈ pq.elems m.heap, n.source = j := by
  refine ⟨fun n hn => ?_, fun j c w hj hjp hc hw => ?_⟩
  · have hne : i ≠ n.source := fun heq => h.free n hn (heq ▸ hi)
    rw [List.getElem?_set_ne hne]
    exact h.current n hn
  · rw [List.getElem?_set_ne hj.symm] at hc
    exact h.loaded j c w (fun hmem => hjp ⟨hmem, hj⟩) hc hw

theorem Reads.advance_more {popped : Set Nat} (h : Reads st m popped) {i : Nat} (hi : i ∈ popped)
    {c : Cursor R} (hget : st.cursors[i]? = some c) (hmore : c.curRecIdx + 1 < c.recs.length) :
    ∃ st', st.advance i = some st' ∧ Reads st' (m.refill i) (popped \ {i}) ∧
      st'.output = st.output ∧ ∀ j, j ≠ i → st'.cursors[j]? = st.cursors[j]? := by
  obtain ⟨hlt, -⟩ := List.getElem?_eq_some_iff.mp hget
  set c' : Cursor R := { c with curRecIdx := c.curRecIdx + 1 } with hc'
  obtain ⟨hothers, hloaded⟩ := h.others hi c'
  have hrest : m.rest[i]? = some (c.recs.drop (c.curRecIdx + 1)) := by simp [h.rest, hget]
  have hptr : c'.ptr = some c.recs[c.curRecIdx + 1] := List.getElem?_eq_getElem hmore
  have hm : m.refill i = ⟨m.rest.set i (c.recs.drop (c.curRecIdx + 1 + 1)),
      pq.push ⟨c.recs[c.curRecIdx + 1], i⟩ m.heap⟩ := by
    rw [State.refill, hrest, List.drop_eq_getElem_cons hmore]
  have hadv : c.advance = (true, c') := by simp [Cursor.advance, hmore, hc']
  refine ⟨{ st with
    cursors := st.cursors.set i c'
    queue := pq.push ⟨c.recs[c.curRecIdx + 1], i⟩ st.queue },
    by simp [Combine.advance, hget, hadv, hptr], ?_, rfl,
    fun j hj => List.getElem?_set_ne hj.symm⟩
  rw [hm]
  refine ⟨by rw [h.heap], by rw [List.map_set, h.rest], fun n hn => ?_, ?_, fun n hn => ?_,
    fun j c₁ w hjp hc₁ hw => ?_⟩
  · rw [pq.elems_push, Multiset.mem_cons] at hn
    rcases hn with rfl | hn
    · exact ⟨c', by simp [hlt], hptr⟩
    · exact hothers n hn
  · rw [pq.elems_push, Multiset.map_cons, Multiset.nodup_cons]
    refine ⟨fun hmem => ?_, h.nodup⟩
    obtain ⟨n, hn, hsrc⟩ := Multiset.mem_map.mp hmem
    exact h.free n hn (hsrc.symm ▸ hi)
  · rw [pq.elems_push, Multiset.mem_cons] at hn
    rcases hn with rfl | hn
    · exact fun hmem => hmem.2 rfl
    · exact fun hmem => h.free n hn hmem.1
  · simp only [pq.elems_push, Multiset.mem_cons]
    by_cases hj : j = i
    · exact ⟨_, .inl rfl, hj.symm⟩
    · obtain ⟨n, hn, hsrc⟩ := hloaded j c₁ w hj hjp hc₁ hw
      exact ⟨n, .inr hn, hsrc⟩

theorem Reads.advance_end {popped : Set Nat} (h : Reads st m popped) {i : Nat} (hi : i ∈ popped)
    {c : Cursor R} (hget : st.cursors[i]? = some c) (hend : ¬ c.curRecIdx + 1 < c.recs.length) :
    ∃ st', st.advance i = some st' ∧ Reads st' (m.refill i) (popped \ {i}) ∧
      st'.output = st.output ∧ ∀ j, j ≠ i → st'.cursors[j]? = st.cursors[j]? := by
  obtain ⟨hlt, -⟩ := List.getElem?_eq_some_iff.mp hget
  set c' : Cursor R := { c with curRecIdx := c.curRecIdx + 1 } with hc'
  obtain ⟨hothers, hloaded⟩ := h.others hi c'
  have hrest : m.rest[i]? = some (c.recs.drop (c.curRecIdx + 1)) := by simp [h.rest, hget]
  have hnil : c.recs.drop (c.curRecIdx + 1) = [] := List.drop_eq_nil_iff.mpr (by omega)
  have hnil' : c'.recs.drop (c'.curRecIdx + 1) = [] :=
    List.drop_eq_nil_iff.mpr (by simp only [hc']; omega)
  have hm : m.refill i = m := by simp [State.refill, hrest, hnil]
  have hadv : c.advance = (false, c') := by simp [Cursor.advance, hend, hc']
  refine ⟨{ st with cursors := st.cursors.set i c' },
    by simp [Combine.advance, hget, hadv], ?_, rfl, fun j hj => List.getElem?_set_ne hj.symm⟩
  rw [hm]
  refine ⟨h.heap, ?_, hothers, h.nodup, fun n hn hmem => h.free n hn hmem.1,
    fun j c₁ w hjp hc₁ hw => ?_⟩
  · obtain ⟨hlt, hval⟩ := List.getElem?_eq_some_iff.mp hrest
    rw [List.map_set, hnil', ← hnil, ← h.rest, ← hval, List.set_getElem_self]
  · by_cases hj : j = i
    · subst hj
      obtain rfl : c' = c₁ := by simpa [hlt] using hc₁
      obtain ⟨hlt', -⟩ := List.getElem?_eq_some_iff.mp hw
      exact absurd hlt' (by simp only [hc']; omega)
    · exact hloaded j c₁ w hj hjp hc₁ hw

theorem Reads.advance {popped : Set Nat} (h : Reads st m popped) {i : Nat} (hi : i ∈ popped)
    {c : Cursor R} (hget : st.cursors[i]? = some c) :
    ∃ st', st.advance i = some st' ∧ Reads st' (m.refill i) (popped \ {i}) ∧
      st'.output = st.output ∧ ∀ j, j ≠ i → st'.cursors[j]? = st.cursors[j]? := by
  by_cases hmore : c.curRecIdx + 1 < c.recs.length
  · exact h.advance_more hi hget hmore
  · exact h.advance_end hi hget hmore

theorem Reads.take (h : Reads st m ∅) {now : Node (Wrapped R)} (hnow : pq.top m.heap = some now)
    (output : List R) :
    ∃ st', Combine.advance { st with output := output, queue := pq.pop st.queue } now.source =
        some st' ∧ st'.output = output ∧
      Reads st' (State.refill now.source ⟨m.rest, pq.pop m.heap⟩) ∅ := by
  obtain ⟨c, hc, -⟩ := h.current now (pq.top_mem hnow)
  obtain ⟨st₂, hst₂, h₂, hout₂, -⟩ := ((h.pop hnow).withOutput output).advance (.inl rfl) hc
  have hset : insert now.source ∅ \ {now.source} = (∅ : Set Nat) := by simp
  rw [hset] at h₂
  exact ⟨st₂, hst₂, hout₂, h₂⟩

theorem Reads.takeTwo (h : Reads st m ∅) {now next : Node (Wrapped R)}
    (hnow : pq.top m.heap = some now) (hnext : pq.top (pq.pop m.heap) = some next) :
    now.source ≠ next.source ∧
    ∃ st' st'', Combine.advance { st with queue := pq.pop (pq.pop st.queue) } now.source =
        some st' ∧ st'.advance next.source = some st'' ∧ st''.output = st.output ∧
      Reads st'' (State.refill next.source
        (State.refill now.source ⟨m.rest, pq.pop (pq.pop m.heap)⟩)) ∅ := by
  obtain ⟨c, hc, -⟩ := h.current now (pq.top_mem hnow)
  have h₁ := h.pop hnow
  have h₂ := h₁.pop hnext
  have hne : next.source ≠ now.source := fun heq => h₁.free next (pq.top_mem hnext) (.inl heq)
  obtain ⟨c₂, hc₂, -⟩ := h₁.current next (pq.top_mem hnext)
  obtain ⟨st₃, hst₃, h₃, hout₃, hget₃⟩ := h₂.advance (i := now.source) (.inr (.inl rfl)) hc
  obtain ⟨st₄, hst₄, h₄, hout₄, -⟩ := h₃.advance (i := next.source) ⟨.inl rfl, hne⟩
    ((hget₃ _ hne).trans hc₂)
  have hset : (insert next.source (insert now.source ∅) \ {now.source}) \ {next.source} =
      (∅ : Set Nat) := by
    ext j
    simp only [Set.mem_sdiff, Set.mem_insert_iff, Set.mem_singleton_iff, Set.mem_empty_iff_false]
    tauto
  rw [hset] at h₄
  exact ⟨hne.symm, st₃, st₄, hst₃, hst₄, hout₄.trans hout₃, h₄⟩

/-- A turn cancels a live copy with a tombstone of its record, or takes one record
and outputs it unless it is a tombstone. -/
inductive Turned (st : Combine pq) (m : State pq) (now : Wrapped R) (st' : Combine pq)
    (m' : State pq) : Prop where
  | cancelled (next : Wrapped R) (live : now.isTombstone = false) (tomb : next.isTombstone = true)
      (record : next.record = now.record) (content : m.content = now ::ₘ next ::ₘ m'.content)
      (output : st'.output = st.output)
  | taken (content : m.content = now ::ₘ m'.content)
      (output : st'.output = if now.isTombstone then st.output else st.output ++ [now.record])

theorem Reads.turn (h : Reads st m ∅) {now : Node (Wrapped R)} (hnow : pq.top m.heap = some now) :
    ∃ st' m', st.turn now = some st' ∧ Reads st' m' ∅ ∧ Turned st m now.item st' m' := by
  have hcontent := m.content_pop hnow
  cases hnext : (pq.top (pq.pop st.queue)).filter fun next => !now.item.isTombstone ∧
      now.item.record = next.item.record ∧ next.item.isTombstone with
  | some next =>
    obtain ⟨htop, hcond⟩ := Option.filter_eq_some_iff.mp hnext
    simp only [Bool.not_eq_true', decide_eq_true_eq] at hcond
    rw [← h.heap] at htop
    obtain ⟨-, st₁, st₂, hst₁, hst₂, hout, h₂⟩ := h.takeTwo hnow htop
    refine ⟨st₂, _, ?_, h₂, .cancelled next.item hcond.1 hcond.2.2 hcond.2.1.symm ?_ hout⟩
    · simp only [Combine.turn, hnext, Option.bind_eq_bind, hst₁, Option.bind_some, hst₂]
    · rw [State.content_refill, State.content_refill, hcontent,
        State.content_pop (⟨m.rest, pq.pop m.heap⟩ : State pq) htop]
  | none =>
    obtain ⟨c, hc, hptr⟩ := h.current now (pq.top_mem hnow)
    obtain ⟨st₁, hst₁, hout, h₁⟩ := h.take hnow
      (if now.item.isTombstone then st.output else st.output ++ [now.item.record])
    refine ⟨st₁, _, ?_, h₁, .taken ?_ hout⟩
    · simp only [Combine.turn, hnext, Option.bind_eq_bind, hc, Option.bind_some, hptr,
        Option.map_some]
      cases ht : now.item.isTombstone <;> simpa [ht] using hst₁
    · rw [State.content_refill, hcontent]

theorem Reads.content_eq_zero (h : Reads st m ∅) (hnone : pq.top m.heap = none) :
    m.content = 0 := by
  have helems : pq.elems m.heap = 0 := pq.elems_top_none _ hnone
  have hrest : m.rest.flatten = [] := by
    rw [List.flatten_eq_nil_iff, h.rest]
    intro l hl
    obtain ⟨c, hc, rfl⟩ := List.mem_map.mp hl
    obtain ⟨i, hi, hget⟩ := List.getElem_of_mem hc
    cases hw : c.ptr with
    | none => exact List.drop_eq_nil_iff.mpr (by have := List.getElem?_eq_none_iff.mp hw; omega)
    | some w =>
      obtain ⟨n, hn, -⟩ := h.loaded i c w (fun hmem => hmem.elim)
        (by rw [List.getElem?_eq_getElem hi, hget]) hw
      rw [helems] at hn
      exact absurd hn (Multiset.notMem_zero n)
  rw [State.content, helems, hrest]
  rfl

/-- The front of a local result, as it is pushed -/
def front (ls : List (List (Wrapped R))) (i : Nat) : Option (Node (Wrapped R)) :=
  (ls[i]?.bind List.head?).map fun w => ⟨w, i⟩

theorem elems_new (pq : WrappedQueue R) (ls : List (List (Wrapped R))) :
    pq.elems (new pq ls).queue = ((List.range ls.length).filterMap (front ls) : Multiset _) := by
  have hfold : ∀ (is : List Nat) (q : pq.Queue), pq.elems (is.foldl (fun q i =>
      match ls[i]? with
      | some (w :: _) => pq.push ⟨w, i⟩ q
      | _ => q) q) = pq.elems q + (is.filterMap (front ls) : Multiset _) := by
    intro is
    induction is with
    | nil => simp
    | cons i is ih =>
      intro q
      rw [List.foldl_cons, ih]
      cases hl : ls[i]? with
      | none => simp [front, hl]
      | some l =>
        cases l with
        | nil => simp [front, hl]
        | cons w l => simp [front, hl, ← Multiset.cons_coe]
  rw [new, hfold, pq.elems_empty, zero_add]

omit [LinearOrder R] in
theorem heads_add_tails (ls : List (List (Wrapped R))) :
    (ls.filterMap List.head? : Multiset (Wrapped R)) + ((ls.map List.tail).flatten : Multiset _) =
      (ls.flatten : Multiset _) := by
  induction ls with
  | nil => rfl
  | cons l ls ih =>
    cases l with
    | nil => simpa [List.filterMap_cons] using ih
    | cons w l =>
      simp only [List.filterMap_cons, List.head?_cons, List.map_cons, List.tail_cons,
        List.flatten_cons, List.cons_append, ← Multiset.cons_coe, ← Multiset.coe_add]
      rw [Multiset.cons_add, add_left_comm, ih]

theorem reads_new (pq : WrappedQueue R) (ls : List (List (Wrapped R))) :
    Reads (new pq ls) ⟨ls.map List.tail, (new pq ls).queue⟩ ∅ ∧
      State.content (⟨ls.map List.tail, (new pq ls).queue⟩ : State pq) =
        (ls.flatten : Multiset _) := by
  have helems := elems_new pq ls
  have hfront : ∀ i n, front ls i = some n → n.source = i ∧ ∃ l, ls[i]? = some l ∧
      l[0]? = some n.item := by
    intro i n hn
    obtain ⟨w, hw, rfl⟩ := Option.map_eq_some_iff.mp hn
    obtain ⟨l, hl, hw⟩ := Option.bind_eq_some_iff.mp hw
    exact ⟨rfl, l, hl, by rw [← List.head?_eq_getElem?, hw]⟩
  refine ⟨⟨rfl, by simp [new, Function.comp_def], fun n hn => ?_, ?_, fun n hn => id,
    fun i c w _ hc hw => ?_⟩, ?_⟩
  · rw [helems, Multiset.mem_coe, List.mem_filterMap] at hn
    obtain ⟨i, -, hi⟩ := hn
    obtain ⟨rfl, l, hl, hw⟩ := hfront i n hi
    exact ⟨⟨l, 0⟩, by simp [new, hl], hw⟩
  · rw [helems, Multiset.map_coe, Multiset.coe_nodup, List.map_filterMap]
    refine List.nodup_range.filterMap fun i j k hi hj => ?_
    obtain ⟨n, hn, rfl⟩ := Option.map_eq_some_iff.mp hi
    obtain ⟨n', hn', heq⟩ := Option.map_eq_some_iff.mp hj
    rw [← (hfront i n hn).1, ← (hfront j n' hn').1, heq]
  · obtain ⟨l, hl, rfl⟩ : ∃ l, ls[i]? = some l ∧ Cursor.mk l 0 = c := by simpa [new] using hc
    refine ⟨⟨w, i⟩, ?_, rfl⟩
    rw [helems, Multiset.mem_coe, List.mem_filterMap]
    refine ⟨i, List.mem_range.mpr (List.getElem?_eq_some_iff.mp hl).1, ?_⟩
    have hw' : l[0]? = some w := hw
    simp [front, hl, List.head?_eq_getElem?, hw']
  · have hheads : ((List.range ls.length).filterMap (front ls)).map Node.item =
        ls.filterMap List.head? := by
      conv_rhs => rw [← filterMap_getElem? ls, List.filterMap_filterMap]
      rw [List.map_filterMap]
      refine List.filterMap_congr fun i _ => ?_
      simp [front, Function.comp_def]
    rw [State.content, helems, Multiset.map_coe, hheads]
    exact heads_add_tails ls

section Balance

/-- What the copies still to be read add up to, for each record -/
def units (s : Multiset (Wrapped R)) (r : R) : ℤ := (s.map fun w => unit w r).sum

theorem units_coe (l : List (Wrapped R)) (r : R) : units (l : Multiset _) r = net l r := by
  rw [units, Multiset.map_coe, Multiset.sum_coe, net_eq_sum]
  induction l with
  | nil => rfl
  | cons w l ih => simp [ih]

/-- What is in the output, and what is still to be read -/
def balance (st : Combine pq) (m : State pq) (r : R) : ℤ := st.output.count r + units m.content r

theorem Turned.balance {st' : Combine pq} {m' : State pq} {now : Wrapped R}
    (h : Turned st m now st' m') (r : R) :
    balance st' m' r = balance st m r + if now.isTombstone ∧ now.record = r then 1 else 0 := by
  cases h with
  | cancelled next live tomb record content output =>
    have hpair := congrFun (unit_add_unit (a := now) (b := next) record (by simp [live, tomb])) r
    simp only [Pi.add_apply, Pi.zero_apply] at hpair
    simp only [Combine.balance, units, content, output, Multiset.map_cons, Multiset.sum_cons, live]
    simp only [Bool.false_eq_true, false_and, if_false]
    omega
  | taken content output =>
    simp only [Combine.balance, units, content, output, Multiset.map_cons, Multiset.sum_cons, unit]
    by_cases hr : now.record = r
    · cases ht : now.isTombstone <;> simp [hr] <;> omega
    · cases ht : now.isTombstone <;> simp [hr]

theorem Turned.card {st' : Combine pq} {m' : State pq} {now : Wrapped R}
    (h : Turned st m now st' m') : m'.content.card < m.content.card := by
  cases h with
  | cancelled next live tomb record content output =>
    rw [content, Multiset.card_cons, Multiset.card_cons]
    omega
  | taken content output =>
    rw [content, Multiset.card_cons]
    omega

/-- One turn of the loop -/
def Goes (st st' : Combine pq) : Prop :=
  ∃ now, pq.top st.queue = some now ∧ st.turn now = some st'

/-- In no turn of the loop is the least front a tombstone. -/
def NoStray (st : Combine pq) : Prop :=
  ∀ st', Relation.ReflTransGen Goes st st' → ∀ now, pq.top st'.queue = some now →
    now.item.isTombstone = false

theorem noStray_of_empty (hnone : pq.top st.queue = none) : NoStray st := by
  intro st' hgoes now hnow
  rcases Relation.ReflTransGen.cases_head hgoes with rfl | ⟨st₁, ⟨now', hnow', -⟩, -⟩
  · rw [hnone] at hnow
    cases hnow
  · rw [hnone] at hnow'
    cases hnow'

theorem noStray_turn {st' : Combine pq} {now : Node (Wrapped R)} (hnow : pq.top st.queue = some now)
    (hturn : st.turn now = some st') :
    NoStray st ↔ now.item.isTombstone = false ∧ NoStray st' := by
  constructor
  · intro h
    exact ⟨h st .refl now hnow, fun st₂ hgoes =>
      h st₂ (Relation.ReflTransGen.head ⟨now, hnow, hturn⟩ hgoes)⟩
  · rintro ⟨hlive, h⟩ st₂ hgoes now₂ hnow₂
    rcases Relation.ReflTransGen.cases_head hgoes with rfl | ⟨st₁, ⟨now', hnow', hturn'⟩, hgoes⟩
    · obtain rfl : now = now₂ := Option.some.inj (hnow.symm.trans hnow₂)
      exact hlive
    · obtain rfl : now = now' := Option.some.inj (hnow.symm.trans hnow')
      obtain rfl : st' = st₁ := Option.some.inj (hturn.symm.trans hturn')
      exact h st₂ hgoes now₂ hnow₂

/-- The loop ends, it outputs no less than the balance, and it outputs the balance
if and only if it takes no tombstone by itself. -/
theorem loop_spec (fuel : Nat) (h : Reads st m ∅) (hfuel : m.content.card < fuel) :
    ∃ out, st.loop fuel = some out ∧ (∀ r, balance st m r ≤ out.count r) ∧
      ((∀ r, (out.count r : ℤ) = balance st m r) ↔ NoStray st) := by
  induction fuel generalizing st m with
  | zero => omega
  | succ fuel ih =>
    unfold loop
    cases hnow : pq.top st.queue with
    | none =>
      have hzero := h.content_eq_zero (by rw [h.heap, hnow])
      have hbal : ∀ r, balance st m r = st.output.count r := by simp [balance, units, hzero]
      exact ⟨st.output, rfl, fun r => (hbal r).le,
        ⟨fun _ => noStray_of_empty hnow, fun _ r => (hbal r).symm⟩⟩
    | some now =>
      have htop : pq.top m.heap = some now := by rw [h.heap, hnow]
      obtain ⟨st', m', hturn, h', ht⟩ := h.turn htop
      obtain ⟨out, hloop, hle, hiff⟩ := ih h' (by have := ht.card; omega)
      refine ⟨out, by simp [hturn, hloop], fun r => ?_, ?_⟩
      · have := hle r
        have := ht.balance r
        split at this <;> omega
      · rw [noStray_turn hnow hturn, ← hiff]
        constructor
        · intro heq
          have hlive : now.item.isTombstone = false := by
            by_contra htomb
            have hb := ht.balance now.item.record
            have := hle now.item.record
            have := heq now.item.record
            rw [if_pos ⟨by simpa using htomb, rfl⟩] at hb
            omega
          refine ⟨hlive, fun r => ?_⟩
          rw [ht.balance r, heq r]
          simp [hlive]
        · rintro ⟨hlive, heq⟩ r
          rw [heq r, ht.balance r]
          simp [hlive]

end Balance

end Combine

def combine (pq : WrappedQueue R) (localResults : List (List (Wrapped R))) : Option (List R) :=
  let total := (localResults.map List.length).sum
  if total = 0 then
    some []
  else
    (Combine.new pq localResults).loop (total + 1)

theorem combine_spec (pq : WrappedQueue R) (ls : List (List (Wrapped R))) :
    ∃ out, combine pq ls = some out ∧ (∀ r, net ls.flatten r ≤ out.count r) ∧
      ((∀ r, (out.count r : ℤ) = net ls.flatten r) ↔ (Combine.new pq ls).NoStray) := by
  obtain ⟨hreads, hcontent⟩ := Combine.reads_new pq ls
  have hcard : (ls.map List.length).sum = ls.flatten.length := List.length_flatten.symm
  obtain ⟨out, hloop, hle, hiff⟩ := Combine.loop_spec (ls.flatten.length + 1) hreads
    (by rw [hcontent, Multiset.coe_card]; omega)
  have hbal : ∀ r, Combine.balance (Combine.new pq ls) (⟨ls.map List.tail,
      (Combine.new pq ls).queue⟩ : State pq) r = net ls.flatten r := by
    intro r
    rw [Combine.balance, hcontent, Combine.units_coe]
    simp [Combine.new]
  simp only [hbal] at hle hiff
  refine ⟨out, ?_, hle, hiff⟩
  by_cases hzero : ls.flatten.length = 0
  · have htop : pq.top (Combine.new pq ls).queue = none := by
      refine (pq.top_eq_none_iff _).mpr ?_
      have hc := hcontent
      rw [List.length_eq_zero_iff.mp hzero, State.content, Multiset.coe_nil, add_eq_zero] at hc
      exact Multiset.map_eq_zero.mp hc.1
    rw [hzero, zero_add, Combine.loop, htop] at hloop
    rw [combine, if_pos (hcard.trans hzero)]
    exact hloop
  · rw [combine, if_neg (by rw [hcard]; exact hzero), hcard]
    exact hloop

end Combine

section Query
variable {K V : Type} [LinearOrder K] [LinearOrder V]

theorem dropWhile_eq_filter {l : List (Wrapped (Record K V))}
    (hs : l.Pairwise fun a b => a.record ≤ b.record) (lower : K) :
    (l.dropWhile fun w => w.record.key < lower) = l.filter fun w => lower ≤ w.record.key := by
  induction l with
  | nil => rfl
  | cons w l ih =>
    obtain ⟨hle, hl⟩ := List.pairwise_cons.mp hs
    by_cases hw : w.record.key < lower
    · rw [List.dropWhile_cons_of_pos (by simpa using hw), ih hl,
        List.filter_cons_of_neg (by simpa using hw)]
    · rw [List.dropWhile_cons_of_neg (by simpa using hw), eq_comm, List.filter_eq_self]
      intro v hv
      rcases List.mem_cons.mp hv with rfl | hv
      · simpa using hw
      · simpa using le_trans (not_lt.mp hw) (Record.key_le_of_le (hle v hv))

/-- From a start with nothing of the range before it, the query yields the part of the
array that is in the range. -/
theorem localQueryOn_eq {data : List (Wrapped (Record K V))}
    (hs : data.Pairwise fun a b => a.record ≤ b.record) (parms : Parameters K) {start : Nat}
    (hbelow : ∀ w ∈ data.take start, w.record.key < parms.lowerBound) :
    localQueryOn data ⟨start, data.length, parms⟩ =
      data.filter fun w => parms.Contains w.record := by
  have hlow : ∀ w ∈ data.take start, ¬ parms.Contains w.record :=
    fun w hw hc => absurd (hbelow w hw) (not_lt.mpr hc.1)
  have hdrop : (data.filter fun w => parms.Contains w.record) =
      (data.drop start).filter fun w => parms.Contains w.record := by
    conv_lhs => rw [← List.take_append_drop start data]
    rw [List.filter_append, List.filter_eq_nil_iff.mpr (by simpa using hlow), List.nil_append]
  have hs' : (data.drop start).Pairwise fun a b => a.record ≤ b.record :=
    hs.sublist (List.drop_sublist _ _)
  by_cases hend : start = data.length
  · have hnil : data.drop start = [] := by simp [hend]
    rw [hdrop, hnil, localQueryOn, if_pos (by exact hend)]
    rfl
  · rw [localQueryOn, if_neg (by exact hend), hdrop]
    simp only [List.take_length]
    rw [dropWhile_eq_filter hs', RangeScanIterator.takeWhile_eq_filter
      (hs'.sublist List.filter_sublist), List.filter_filter]
    refine List.filter_congr fun w _ => ?_
    rw [Bool.and_comm, ← Bool.decide_and]
    rfl

end Query

end RangeQuery

end De
