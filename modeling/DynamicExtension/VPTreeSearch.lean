import DynamicExtension.VPTree
import DynamicExtension.Library.Nearest
set_option autoImplicit false

namespace De
open PQ Nearest OrderDual

/-- A metric, in exact arithmetic -/
structure IsMetric {R D : Type} [AddCommGroup D] [LinearOrder D] (dist : R → R → D) : Prop where
  eq_zero_iff : ∀ x y, dist x y = 0 ↔ x = y
  symm : ∀ x y, dist x y = dist y x
  triangle : ∀ x y z, dist x z ≤ dist x y + dist y z

/-- `psudb::PriorityQueue` with `DistCmpMax`: at the top is an element farthest from `point`. -/
abbrev DistQueue {R D : Type} [LinearOrder D] (calcDistance : R → R → D) (point : R) :=
  PriorityQueue (Wrapped R) Dᵒᵈ fun w => toDual (calcDistance w.record point)

namespace VPTree
variable {R D : Type} [AddCommGroup D] [LinearOrder D] {calcDistance : R → R → D} {point : R}

/-- What a search carries along. `*farthest` starts as `numeric_limits<double>::max()`,
which is above every distance; `none` stands for it. -/
structure Search (pq : DistQueue calcDistance point) where
  queue : pq.Queue
  farthest : Option D

namespace Search
variable {pq : DistQueue calcDistance point}

/-- `d < *farthest` -/
def isCloser (st : Search pq) (d : D) : Bool :=
  match st.farthest with
  | none => true
  | some f => d < f

/-- `d - (*farthest) <= radius` -/
def reachesInside (st : Search pq) (d radius : D) : Bool :=
  match st.farthest with
  | none => true
  | some f => d - f ≤ radius

/-- `d + (*farthest) >= radius` -/
def reachesOutside (st : Search pq) (d radius : D) : Bool :=
  match st.farthest with
  | none => true
  | some f => d + f ≥ radius

/-- The step for one record, at leaves and inner nodes alike -/
def visit (k : Nat) (w : Wrapped R) (st : Search pq) : Search pq :=
  if st.isCloser (calcDistance point w.record) then
    let queue := if pq.size st.queue = k then pq.pop st.queue else st.queue
    let queue := pq.push w queue
    let farthest :=
      if pq.size queue = k then
        ((pq.top queue).map fun far => calcDistance point far.record).or st.farthest
      else st.farthest
    ⟨queue, farthest⟩
  else st

end Search

variable (pq : DistQueue calcDistance point) (k : Nat)

def internalSearch (data : Nat → Wrapped R) (ptrs : Nat → VpPtr D) :
    VpNode D → Search pq → Search pq
  | .null, st => st
  | .leaf start stop, st =>
    (List.range' start (stop + 1 - start)).foldl (fun st i => st.visit k (data (ptrs i).ptr)) st
  | .inner start _ radius inside outside, st =>
    let d := calcDistance point (recAt data ptrs start)
    let st := st.visit k (data (ptrs start).ptr)
    if d < radius then
      let st := if st.reachesInside d radius then internalSearch data ptrs inside st else st
      if st.reachesOutside d radius then internalSearch data ptrs outside st else st
    else
      let st := if st.reachesOutside d radius then internalSearch data ptrs outside st else st
      if st.reachesInside d radius then internalSearch data ptrs inside st else st

/-- `search` into a queue -/
def search (shard : VPTree R D) (queue : pq.Queue) : pq.Queue :=
  (internalSearch pq k shard.data shard.ptrs shard.root ⟨queue, none⟩).queue

section Spec
variable {pq} {k}

/-- The queue holds the nearest of the records met so far; when it is full, `farthest` is
the largest distance in it. -/
structure Search.Holds (k : Nat) (all : Multiset (Wrapped R)) (st : Search pq) : Prop where
  selects : Selects (fun w : Wrapped R => calcDistance point w.record) k all (pq.elems st.queue)
  room : st.farthest = none → (pq.elems st.queue).card < k
  full : ∀ f, st.farthest = some f → (pq.elems st.queue).card = k ∧
    (∃ w ∈ pq.elems st.queue, calcDistance point w.record = f) ∧
    ∀ w ∈ pq.elems st.queue, calcDistance point w.record ≤ f

omit [AddCommGroup D] in
theorem Search.Holds.skip {all more : Multiset (Wrapped R)} {st : Search pq} (h : st.Holds k all)
    {f : D} (hf : st.farthest = some f) (hmore : ∀ w ∈ more, f ≤ calcDistance point w.record) :
    st.Holds k (all + more) := by
  obtain ⟨hcard, -, hle⟩ := h.full f hf
  exact ⟨h.selects.skip hcard fun x hx y hy => (hle x hx).trans (hmore y hy), h.room, h.full⟩

theorem le_top (hm : IsMetric calcDistance) {q : pq.Queue} {far : Wrapped R}
    (h : pq.top q = some far) {w : Wrapped R} (hw : w ∈ pq.elems q) :
    calcDistance point w.record ≤ calcDistance point far.record := by
  rw [hm.symm point w.record, hm.symm point far.record]
  exact toDual_le_toDual.mp (pq.top_le far q h w hw)

theorem holds_pushed (hm : IsMetric calcDistance) (hk : 0 < k) {all : Multiset (Wrapped R)}
    {q : pq.Queue} {old : Option D}
    (hs : Selects (fun w : Wrapped R => calcDistance point w.record) k all (pq.elems q))
    (hold : (pq.elems q).card ≠ k → old = none) :
    Search.Holds k all (⟨q, if pq.size q = k then
      ((pq.top q).map fun far => calcDistance point far.record).or old else old⟩ : Search pq) := by
  have hle : (pq.elems q).card ≤ k := by
    rw [hs.card]
    exact min_le_left _ _
  by_cases hfull : (pq.elems q).card = k
  · have hsize : pq.size q = k := hfull
    obtain ⟨far, hfar⟩ := pq.exists_top (by omega : 0 < (pq.elems q).card)
    rw [if_pos hsize, hfar]
    refine ⟨hs, fun h => by simp at h, fun f hf => ?_⟩
    obtain rfl : calcDistance point far.record = f := by simpa using hf
    exact ⟨hfull, ⟨far, pq.top_mem hfar, rfl⟩, fun w hw => le_top hm hfar hw⟩
  · have hsize : pq.size q ≠ k := hfull
    rw [if_neg hsize, hold hfull]
    exact ⟨hs, fun _ => lt_of_le_of_ne hle hfull, fun f hf => by cases hf⟩

theorem Search.Holds.visit (hm : IsMetric calcDistance) (hk : 0 < k) {all : Multiset (Wrapped R)}
    {st : Search pq} (h : st.Holds k all) (w : Wrapped R) :
    (st.visit k w).Holds k (w ::ₘ all) := by
  rw [Search.visit]
  cases hf : st.farthest with
  | none =>
    have hroom := h.room hf
    have hsize : pq.size st.queue ≠ k := hroom.ne
    rw [if_pos (by simp [isCloser, hf])]
    simp only [if_neg hsize]
    refine holds_pushed hm hk ?_ fun _ => rfl
    rw [pq.elems_push]
    exact h.selects.push hroom w
  | some f =>
    obtain ⟨hcard, ⟨x, hx, hxf⟩, hle⟩ := h.full f hf
    by_cases hlt : calcDistance point w.record < f
    · obtain ⟨far, hfar⟩ := pq.exists_top (by omega : 0 < (pq.elems st.queue).card)
      have helems := pq.elems_pop far st.queue hfar
      have hrest : (pq.elems (pq.pop st.queue)).card + 1 = k := by
        rw [← hcard, helems, Multiset.card_cons]
      have hsize : pq.size st.queue = k := hcard
      rw [if_pos (by simpa [isCloser, hf] using hlt)]
      simp only [if_pos hsize]
      refine holds_pushed hm hk ?_ fun hne => absurd ?_ hne
      · have hs := h.selects
        rw [helems] at hs
        rw [pq.elems_push]
        refine hs.replace hrest (fun y hy => le_top hm hfar (pq.mem_of_mem_pop hfar hy)) ?_
        exact hlt.le.trans (hxf ▸ le_top hm hfar hx)
      · rw [pq.elems_push, Multiset.card_cons, hrest]
    · rw [if_neg (by simpa [isCloser, hf] using hlt), ← Multiset.singleton_add, add_comm]
      refine h.skip hf fun y hy => ?_
      rw [Multiset.mem_singleton.mp hy]
      exact not_lt.mp hlt

/-- The records that the entries `lo`, ..., `hi - 1` point to -/
def entries (data : Nat → Wrapped R) (ptrs : Nat → VpPtr D) (lo hi : Nat) :
    Multiset (Wrapped R) :=
  ((List.range' lo (hi - lo)).map fun p => data (ptrs p).ptr : List (Wrapped R))

omit [AddCommGroup D] [LinearOrder D] in
theorem entries_add (data : Nat → Wrapped R) (ptrs : Nat → VpPtr D) {lo mid hi : Nat}
    (hlo : lo ≤ mid) (hhi : mid ≤ hi) :
    entries data ptrs lo hi = entries data ptrs lo mid + entries data ptrs mid hi := by
  have hsplit : List.range' lo (hi - lo) = List.range' lo (mid - lo) ++ List.range' mid
    (hi - mid) := by
    have := List.range'_append_1 (s := lo) (m := mid - lo) (n := hi - mid)
    rw [show lo + (mid - lo) = mid by omega] at this
    rw [this]
    congr 1
    omega
  rw [entries, hsplit, List.map_append, ← Multiset.coe_add]
  rfl

omit [AddCommGroup D] [LinearOrder D] in
theorem entries_succ (data : Nat → Wrapped R) (ptrs : Nat → VpPtr D) {lo hi : Nat} (h : lo < hi) :
    entries data ptrs lo hi = data (ptrs lo).ptr ::ₘ entries data ptrs (lo + 1) hi := by
  have hone : entries data ptrs lo (lo + 1) = {data (ptrs lo).ptr} := by simp [entries]
  rw [entries_add data ptrs (Nat.le_succ lo) h, hone, Multiset.singleton_add]

omit [AddCommGroup D] [LinearOrder D] in
theorem mem_entries {data : Nat → Wrapped R} {ptrs : Nat → VpPtr D} {lo hi : Nat} {w : Wrapped R} :
    w ∈ entries data ptrs lo hi ↔ ∃ p, lo ≤ p ∧ p < hi ∧ data (ptrs p).ptr = w := by
  simp only [entries, Multiset.mem_coe, List.mem_map, List.mem_range'_1]
  constructor
  · rintro ⟨p, hp, rfl⟩
    exact ⟨p, hp.1, by omega, rfl⟩
  · rintro ⟨p, hp, hp', rfl⟩
    exact ⟨p, ⟨hp, by omega⟩, rfl⟩

theorem holds_foldl (hm : IsMetric calcDistance) (hk : 0 < k) (ws : List (Wrapped R))
    {all : Multiset (Wrapped R)} {st : Search pq} (h : st.Holds k all) :
    (ws.foldl (fun st w => st.visit k w) st).Holds k (all + (ws : Multiset (Wrapped R))) := by
  induction ws generalizing all st with
  | nil => simpa using h
  | cons w ws ih =>
    have := ih (h.visit hm hk w)
    rwa [Multiset.cons_add, ← Multiset.add_cons, Multiset.cons_coe] at this

variable [IsOrderedAddMonoid D]

/-- A search that stays out of the inside misses nothing there: by the triangle
inequality every record inside is farther than the bound. -/
theorem Search.Holds.inside (hm : IsMetric calcDistance) {all more : Multiset (Wrapped R)}
    {st st' : Search pq} (h : st.Holds k all) {vp : R} {radius : D}
    (hmore : ∀ w ∈ more, calcDistance vp w.record ≤ radius)
    (hgo : st.Holds k all → st'.Holds k (all + more)) :
    (if st.reachesInside (calcDistance point vp) radius then st' else st).Holds k (all + more) := by
  split
  · exact hgo h
  · rename_i hout
    cases hf : st.farthest with
    | none => simp [reachesInside, hf] at hout
    | some f =>
      refine h.skip hf fun w hw => ?_
      by_contra hlt
      have hle : calcDistance point vp ≤ radius + f := by
        calc calcDistance point vp ≤ calcDistance point w.record + calcDistance w.record vp :=
              hm.triangle ..
          _ ≤ f + radius := by
              rw [hm.symm w.record vp]
              exact add_le_add (not_le.mp hlt).le (hmore w hw)
          _ = radius + f := add_comm ..
      simp [reachesInside, hf, hle] at hout

theorem Search.Holds.outside (hm : IsMetric calcDistance) {all more : Multiset (Wrapped R)}
    {st st' : Search pq} (h : st.Holds k all) {vp : R} {radius : D}
    (hmore : ∀ w ∈ more, radius ≤ calcDistance vp w.record)
    (hgo : st.Holds k all → st'.Holds k (all + more)) :
    (if st.reachesOutside (calcDistance point vp) radius then st' else st).Holds k
      (all + more) := by
  split
  · exact hgo h
  · rename_i hout
    cases hf : st.farthest with
    | none => simp [reachesOutside, hf] at hout
    | some f =>
      refine h.skip hf fun w hw => ?_
      by_contra hlt
      have hle : radius ≤ calcDistance point vp + f := by
        calc radius ≤ calcDistance vp w.record := hmore w hw
          _ ≤ calcDistance vp point + calcDistance point w.record := hm.triangle ..
          _ ≤ calcDistance point vp + f := by
              rw [hm.symm vp point]
              exact add_le_add le_rfl (not_le.mp hlt).le
      simp [reachesOutside, hf, hle] at hout

theorem internalSearch_spec (hm : IsMetric calcDistance) (hk : 0 < k) {data : Nat → Wrapped R}
    {ptrs : Nat → VpPtr D} {node : VpNode D} {lo hi : Nat}
    (ht : Tree calcDistance (recAt data ptrs) node lo hi) {all : Multiset (Wrapped R)}
    {st : Search pq} (h : st.Holds k all) :
    (internalSearch pq k data ptrs node st).Holds k (all + entries data ptrs lo hi) := by
  induction ht generalizing all st with
  | @null lo hi hle =>
    have hnone : entries data ptrs lo hi = 0 := by simp [entries, Nat.sub_eq_zero_of_le hle]
    rwa [hnone, add_zero]
  | @leaf start stop hle =>
    rw [internalSearch, ← List.foldl_map (f := fun i => data (ptrs i).ptr)
      (g := fun (st : Search pq) w => st.visit k w)]
    exact holds_foldl hm hk _ h
  | @inner start mid hi radius inside outside hmid hhi near far hin hout ihin ihout =>
    have hvp := h.visit hm hk (data (ptrs start).ptr)
    have hnear : ∀ w ∈ entries data ptrs (start + 1) mid,
        calcDistance (recAt data ptrs start) w.record ≤ radius := by
      intro w hw
      obtain ⟨p, hp, hp', rfl⟩ := mem_entries.mp hw
      exact near p hp (by omega)
    have hfar : ∀ w ∈ entries data ptrs mid hi,
        radius ≤ calcDistance (recAt data ptrs start) w.record := by
      intro w hw
      obtain ⟨p, hp, hp', rfl⟩ := mem_entries.mp hw
      exact far p hp (by omega)
    rw [entries_succ data ptrs (by omega : start < hi),
      entries_add data ptrs (by omega : start + 1 ≤ mid) hhi.le, Multiset.add_cons,
      ← Multiset.cons_add, internalSearch]
    split
    · rw [← add_assoc]
      exact (hvp.inside hm hnear ihin).outside hm hfar ihout
    · rw [add_comm (entries data ptrs (start + 1) mid), ← add_assoc]
      exact (hvp.outside hm hfar ihout).inside hm hnear ihin

omit [AddCommGroup D] [IsOrderedAddMonoid D] in
theorem WellFormed.entries_eq {shard : VPTree R D} (h : WellFormed calcDistance shard) :
    entries shard.data shard.ptrs 0 shard.reccnt = (shard.records : Multiset (Wrapped R)) := by
  have hmap : entries shard.data shard.ptrs 0 shard.reccnt =
      ((Multiset.range shard.reccnt).map (ptrOf shard.ptrs)).map shard.data := by
    rw [Multiset.map_map, entries, Nat.sub_zero, ← List.range_eq_range', ← Multiset.map_coe]
    rfl
  rw [hmap, h.perm, records, ← Multiset.map_coe]
  rfl

theorem WellFormed.search_selects (hm : IsMetric calcDistance) (hk : 0 < k) {shard : VPTree R D}
    (h : WellFormed calcDistance shard) :
    Selects (fun w : Wrapped R => calcDistance point w.record) k
      (shard.records : Multiset (Wrapped R)) (pq.elems (search pq k shard pq.empty)) := by
  have hstart : (⟨pq.empty, none⟩ : Search pq).Holds k 0 := by
    refine ⟨?_, fun _ => ?_, fun f hf => by cases hf⟩
    · rw [pq.elems_empty]
      exact selects_zero _ k
    · rwa [pq.elems_empty]
  have hend := (internalSearch_spec hm hk h.tree hstart).selects
  rwa [zero_add, h.entries_eq] at hend

end Spec

section Built
variable [IsOrderedAddMonoid D] [Zero R]

/-- Both constructors build a shard, and a search of a built shard leaves the nearest
records in the queue. -/
theorem search_nearest (hm : IsMetric calcDistance) :
    (∀ (leafSz : Nat) (buffer : BufferView R) (rng : Rng), ∃ shard : VPTree R D,
      ofBuffer calcDistance leafSz buffer rng = some shard) ∧
    (∀ (leafSz : Nat) (shards : List (VPTree R D)) (rng : Rng), ∃ shard : VPTree R D,
      ofShards calcDistance leafSz shards rng = some shard) ∧
    ∀ shard : VPTree R D, Built calcDistance shard → ∀ (point : R) (k : Nat), 0 < k →
      ∀ pq : DistQueue calcDistance point,
        let found := pq.elems (search pq k shard pq.empty)
        found.card = min k shard.reccnt ∧
        ∃ left, (shard.records : Multiset (Wrapped R)) = found + left ∧
          ∀ x ∈ found, ∀ y ∈ left,
            ¬ calcDistance point y.record < calcDistance point x.record := by
  refine ⟨exists_ofBuffer calcDistance, exists_ofShards calcDistance,
    fun shard hb point k hk pq => ?_⟩
  obtain ⟨left, hsplit, hcard, hle⟩ :
      Selects _ k (shard.records : Multiset (Wrapped R)) (pq.elems (search pq k shard pq.empty)) :=
    hb.wellFormed.search_selects hm hk
  refine ⟨?_, left, hsplit, fun x hx y hy => not_lt.mpr (hle x hx y hy)⟩
  rw [hcard, Multiset.coe_card, length_records]

end Built

section Samples

/-- Points of the line -/
def absDistance (x y : Int) : Int := |x - y|

theorem isMetric_absDistance : IsMetric absDistance where
  eq_zero_iff x y := by rw [absDistance, abs_eq_zero, sub_eq_zero]
  symm := abs_sub_comm
  triangle := abs_sub_le

def pointView : BufferView Int :=
  ⟨fun i => ⟨4#32, [3, 1, 4, 1, 5].getD i 0⟩, 0, 5, 8, 0⟩

theorem search_nearest_sample :
    ∃ shard : VPTree Int Int, ofBuffer absDistance 1 pointView ⟨fun _ => 0⟩ = some shard ∧
      (let pq := PriorityQueue.sorted fun w : Wrapped Int => toDual (absDistance w.record 0)
      (pq.elems (search pq 2 shard pq.empty)).card = min 2 shard.reccnt) := by
  obtain ⟨hbuild, -, hsearch⟩ := search_nearest isMetric_absDistance
  obtain ⟨shard, hshard⟩ := hbuild 1 pointView ⟨fun _ => 0⟩
  exact ⟨shard, hshard, (hsearch shard (.ofBuffer hshard) 0 2 (by decide) _).1⟩

end Samples

end VPTree

end De
