import DynamicExtension.VPTreeLookup
set_option autoImplicit false

namespace De
open PQ Nearest OrderDual

namespace Knn

structure Parameters (R : Type) where
  point : R
  k : Nat

section Defs
variable {R D : Type} [AddCommGroup D] [LinearOrder D] (calcDistance : R → R → D)

/-- `psudb::PriorityQueue<R, DistCmpMax<R>>` -/
abbrev ResultQueue (point : R) :=
  PriorityQueue R Dᵒᵈ fun r => toDual (calcDistance r point)

/-- The step of the bounded queues for one record -/
def offer {α : Type} {key : α → D} (pq : PriorityQueue α Dᵒᵈ fun a => toDual (key a)) (k : Nat)
    (a : α) (q : pq.Queue) : Option pq.Queue :=
  if pq.size q < k then some (pq.push a q)
  else do
    let head ← pq.top q
    return if key a < key head then pq.push a (pq.pop q) else q

variable {calcDistance}

def localQuery (shard : VPTree R D) (parms : Parameters R)
    (pq : DistQueue calcDistance parms.point) : List (Wrapped R) :=
  pq.drain (VPTree.search pq parms.k shard pq.empty)

def localQueryBuffer (buffer : BufferView R) (parms : Parameters R)
    (pq : DistQueue calcDistance parms.point) : Option (List (Wrapped R)) := do
  let q ← (buffer.records.filter fun w => !w.isDeleted).foldlM (fun q w => offer pq parms.k w q)
    pq.empty
  return pq.drain q

def combine (localResults : List (List (Wrapped R))) (parms : Parameters R)
    (pq : ResultQueue calcDistance parms.point) : Option (List R) := do
  let q ← (localResults.flatten.map Wrapped.record).foldlM (fun q r => offer pq parms.k r q)
    pq.empty
  return pq.drain q

/-- What `async_query` computes on the buffer and the shards of its epoch -/
def query (view : BufferView R) (shards : List (VPTree R D)) (parms : Parameters R)
    (pq : DistQueue calcDistance parms.point) (out : ResultQueue calcDistance parms.point) :
    Option (List R) := do
  let buffered ← localQueryBuffer view parms pq
  combine (buffered :: shards.map fun shard => localQuery shard parms pq) parms out

omit [AddCommGroup D] [LinearOrder D] in
/-- The records of the sources that are not marked deleted -/
def undeleted (view : BufferView R) (shards : List (VPTree R D)) : Multiset R :=
  ((view.records ++ (shards.map VPTree.records).flatten).filter fun w => !w.isDeleted).map
    Wrapped.record

omit [AddCommGroup D] [LinearOrder D] in
/-- The records of the shards that are marked deleted -/
def tagged (shards : List (VPTree R D)) : Multiset R :=
  ((shards.map VPTree.records).flatten.filter fun w => w.isDeleted).map Wrapped.record

end Defs

section Spec
variable {D : Type} [LinearOrder D] {α : Type} {key : α → D}
  {pq : PriorityQueue α Dᵒᵈ fun a => toDual (key a)} {k : Nat}

theorem offer_selects (hk : 0 < k) {all : Multiset α} {q : pq.Queue}
    (h : Selects key k all (pq.elems q)) (a : α) :
    ∃ q', offer pq k a q = some q' ∧ Selects key k (a ::ₘ all) (pq.elems q') := by
  by_cases hroom : (pq.elems q).card < k
  · refine ⟨pq.push a q, if_pos hroom, ?_⟩
    rw [pq.elems_push]
    exact h.push hroom a
  · have hfull : (pq.elems q).card = k := le_antisymm (h.card.trans_le (min_le_left _ _)) (by omega)
    obtain ⟨head, hhead⟩ := pq.exists_top (by omega : 0 < (pq.elems q).card)
    have hsize : ¬ pq.size q < k := hroom
    have hoffer : offer pq k a q =
        some (if key a < key head then pq.push a (pq.pop q) else q) := by
      rw [offer, if_neg hsize, hhead]
      rfl
    refine ⟨_, hoffer, ?_⟩
    have hfar : ∀ x ∈ pq.elems q, key x ≤ key head := pq.top_le head q hhead
    split
    · rename_i hlt
      have helems := pq.elems_pop head q hhead
      rw [pq.elems_push]
      rw [helems] at h
      rw [helems, Multiset.card_cons] at hfull
      exact h.replace hfull (fun x hx => hfar x (pq.mem_of_mem_pop hhead hx)) hlt.le
    · rename_i hlt
      rw [← Multiset.singleton_add, add_comm]
      refine h.skip hfull fun x hx y hy => ?_
      rw [Multiset.mem_singleton.mp hy]
      exact (hfar x hx).trans (not_lt.mp hlt)

theorem foldlM_offer (hk : 0 < k) (l : List α) {all : Multiset α} {q : pq.Queue}
    (h : Selects key k all (pq.elems q)) :
    ∃ q', l.foldlM (fun q a => offer pq k a q) q = some q' ∧
      Selects key k (all + (l : Multiset α)) (pq.elems q') := by
  induction l generalizing all q with
  | nil => exact ⟨q, rfl, by simpa using h⟩
  | cons a l ih =>
    obtain ⟨q₁, hoffer, h₁⟩ := offer_selects hk h a
    obtain ⟨q', hrun, h'⟩ := ih h₁
    refine ⟨q', by rw [List.foldlM_cons, hoffer]; exact hrun, ?_⟩
    rwa [Multiset.cons_add, ← Multiset.add_cons, Multiset.cons_coe] at h'

variable (pq) in
theorem exists_drain (hk : 0 < k) (l : List α) :
    ∃ q, l.foldlM (fun q a => offer pq k a q) pq.empty = some q ∧
      Selects key k (l : Multiset α) (pq.drain q : Multiset α) := by
  have hstart : Selects key k 0 (pq.elems pq.empty) := by
    rw [pq.elems_empty]
    exact selects_zero key k
  obtain ⟨q, hrun, h⟩ := foldlM_offer hk l hstart
  refine ⟨q, hrun, ?_⟩
  rwa [pq.coe_drain, ← zero_add (l : Multiset α)]

end Spec

section Query
variable {R D : Type} [AddCommGroup D] [LinearOrder D] [IsOrderedAddMonoid D] [Zero R]
  {calcDistance : R → R → D} {parms : Parameters R}

theorem localQuery_selects (hm : IsMetric calcDistance) (hk : 0 < parms.k) {shard : VPTree R D}
    (hb : VPTree.Built calcDistance shard) (pq : DistQueue calcDistance parms.point) :
    Selects (fun w : Wrapped R => calcDistance w.record parms.point) parms.k
      (shard.records : Multiset (Wrapped R))
        (localQuery shard parms pq : Multiset (Wrapped R)) := by
  have hkey : (fun w : Wrapped R => calcDistance w.record parms.point) =
      fun w => calcDistance parms.point w.record := funext fun w => hm.symm _ _
  rw [localQuery, pq.coe_drain, hkey]
  exact hb.wellFormed.search_selects hm hk

omit [Zero R] in
theorem coe_map_flatten {ι : Type} (sources : List ι) (f : ι → List (Wrapped R)) :
    (((sources.map f).flatten.map Wrapped.record : List R) : Multiset R) =
      (sources.map fun i => ((f i).map Wrapped.record : Multiset R)).sum := by
  induction sources with
  | nil => rfl
  | cons i sources ih =>
    rw [List.map_cons, List.flatten_cons, List.map_append, ← Multiset.coe_add, ih, List.map_cons,
      List.sum_cons]

omit [AddCommGroup D] [LinearOrder D] [IsOrderedAddMonoid D] [Zero R] in
theorem undeleted_add_tagged (view : BufferView R) (shards : List (VPTree R D)) :
    undeleted view shards + tagged shards =
      (((view.records.filter fun w => !w.isDeleted).map Wrapped.record : List R) : Multiset R) +
        (shards.map fun s => (s.records.map Wrapped.record : Multiset R)).sum := by
  have hsplit : List.Perm (((shards.map VPTree.records).flatten.filter fun w => !w.isDeleted) ++
      (shards.map VPTree.records).flatten.filter fun w => w.isDeleted)
        (shards.map VPTree.records).flatten :=
    List.perm_append_comm.trans (List.filter_append_perm _ _)
  rw [undeleted, tagged, List.filter_append, ← coe_map_flatten, Multiset.coe_add,
    Multiset.coe_add, ← List.map_append, ← List.map_append, List.append_assoc]
  exact Multiset.coe_eq_coe.mpr ((hsplit.append_left _).map Wrapped.record)

theorem query_selects (hm : IsMetric calcDistance) (hk : 0 < parms.k) (view : BufferView R)
    {shards : List (VPTree R D)} (hb : ∀ s ∈ shards, VPTree.Built calcDistance s)
    (pq : DistQueue calcDistance parms.point) (out : ResultQueue calcDistance parms.point) :
    ∃ output, query view shards parms pq out = some output ∧
      Selects (fun r => calcDistance r parms.point) parms.k
        (undeleted view shards + tagged shards) (output : Multiset R) := by
  obtain ⟨q, hrun, hbuf⟩ := exists_drain pq hk (view.records.filter fun w => !w.isDeleted)
  obtain ⟨q', hrun', hout⟩ := exists_drain out hk
    ((pq.drain q :: shards.map fun s => localQuery s parms pq).flatten.map Wrapped.record)
  refine ⟨out.drain q', ?_, ?_⟩
  · simp only [query, localQueryBuffer, combine, hrun, hrun', Option.bind_eq_bind,
      Option.bind_some, Option.pure_def]
  · have hlocal : ∀ s ∈ shards, Selects (fun r => calcDistance r parms.point) parms.k
        (s.records.map Wrapped.record : Multiset R)
        ((localQuery s parms pq).map Wrapped.record : Multiset R) := by
      intro s hs
      have hsel := localQuery_selects hm hk (hb s hs) pq
      have hmap := hsel.map Wrapped.record fun r => calcDistance r parms.point
      exact hmap
    have hbuffered := hbuf.map Wrapped.record fun r => calcDistance r parms.point
    rw [List.flatten_cons, List.map_append, ← Multiset.coe_add, coe_map_flatten] at hout
    rw [undeleted_add_tagged]
    exact hbuffered.widen (Selects.widen_sum shards _ _ hlocal hout)

/-- Whether the output is the nearest undeleted records depends on how many undeleted
records stand between the point and a record that is marked deleted; of records at equal
distances a queue may drop any. -/
theorem query_nearest_iff (hm : IsMetric calcDistance) {parms : Parameters R} (hk : 0 < parms.k)
    (view : BufferView R) {shards : List (VPTree R D)}
    (hb : ∀ s ∈ shards, VPTree.Built calcDistance s)
    (pq : DistQueue calcDistance parms.point) (out : ResultQueue calcDistance parms.point) :
    ∃ output, query view shards parms pq out = some output ∧
      ((∀ r ∈ tagged shards, parms.k ≤ ((undeleted view shards).filter fun u =>
          calcDistance u parms.point < calcDistance r parms.point).card) →
        Selects (fun r => calcDistance r parms.point) parms.k (undeleted view shards)
          (output : Multiset R)) ∧
      (Selects (fun r => calcDistance r parms.point) parms.k (undeleted view shards)
          (output : Multiset R) →
        ∀ r ∈ tagged shards, parms.k ≤ ((undeleted view shards).filter fun u =>
          calcDistance u parms.point ≤ calcDistance r parms.point).card) := by
  obtain ⟨output, hrun, h⟩ := query_selects hm hk view hb pq out
  exact ⟨output, hrun, h.narrow, fun h' r hr => h.behind h' hr⟩

end Query

section Samples
open VPTree (absDistance pointShard isMetric_absDistance)

def noRecords : BufferView Int := ⟨fun _ => 0, 0, 0, 8, 0⟩

/-- The shard over `3`, `1`, `4`, `1` and `5`, with the `5` marked deleted -/
def taggedShard : Option (VPTree Int Int) := pointShard.map fun shard => shard.setDelete 4

theorem built_of_taggedShard {shard : VPTree Int Int} (h : taggedShard = some shard) :
    VPTree.Built absDistance shard := by
  obtain ⟨shard', hshard, rfl⟩ := Option.map_eq_some_iff.mp h
  exact .setDelete (.ofBuffer hshard) 4

def sortedQueue (point : Int) : DistQueue absDistance point := PriorityQueue.sorted _

def sortedResults (point : Int) : ResultQueue absDistance point := PriorityQueue.sorted _

/-- At `0` four undeleted points are nearer than the `5`. -/
theorem query_nearest_iff_sample : ∃ shard output, taggedShard = some shard ∧
    query noRecords [shard] ⟨0, 2⟩ (sortedQueue 0) (sortedResults 0) = some output ∧
    Selects (fun r => absDistance r 0) 2 (undeleted noRecords [shard]) (output : Multiset Int) := by
  cases hshard : taggedShard with
  | none => exact absurd hshard (by decide +kernel)
  | some shard =>
    have hk : 0 < (⟨0, 2⟩ : Parameters Int).k := by decide
    have hb : ∀ s ∈ [shard], VPTree.Built absDistance s := fun s hs =>
      built_of_taggedShard (List.mem_singleton.mp hs ▸ hshard)
    obtain ⟨output, hrun, hnear, -⟩ := query_nearest_iff isMetric_absDistance hk noRecords hb
      (sortedQueue 0) (sortedResults 0)
    refine ⟨shard, output, rfl, hrun, hnear ?_⟩
    have heval : (taggedShard.map fun s => decide (∀ r ∈ tagged [s],
        2 ≤ ((undeleted noRecords [s]).filter fun u => absDistance u 0 < absDistance r 0).card)) =
          some true := by decide +kernel
    rw [hshard] at heval
    simpa using heval

/-- At `5` the nearest stored point is the one marked deleted. -/
theorem returns_deleted : ∃ shard, taggedShard = some shard ∧
    query noRecords [shard] ⟨5, 1⟩ (sortedQueue 5) (sortedResults 5) = some [5] ∧
    ¬ Selects (fun r => absDistance r 5) 1 (undeleted noRecords [shard])
      (([5] : List Int) : Multiset Int) := by
  cases hshard : taggedShard with
  | none => exact absurd hshard (by decide +kernel)
  | some shard =>
    have heval : (taggedShard.map fun s =>
        (query noRecords [s] ⟨5, 1⟩ (sortedQueue 5) (sortedResults 5),
          decide ((5 : Int) ∈ undeleted noRecords [s]))) = some (some [5], false) := by
      decide +kernel
    rw [hshard] at heval
    simp only [Option.map_some, Option.some.injEq, Prod.mk.injEq, decide_eq_false_iff_not] at heval
    exact ⟨shard, rfl, heval.1, fun h => heval.2 (Multiset.mem_of_le h.le (by simp))⟩

end Samples

end Knn

end De
