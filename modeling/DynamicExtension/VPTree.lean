import DynamicExtension.SortedBuffer
import DynamicExtension.RandomStream
import DynamicExtension.Library.Shuffle
set_option autoImplicit false

namespace De
open Shuffle

/-- `vp_ptr`: the index of a record of `m_data`, and its distance while a subtree is built -/
structure VpPtr (D : Type) where
  ptr : Nat
  dist : D

/-- A `vpnode *`. Only leaves set `stop`. -/
inductive VpNode (D : Type) where
  | null
  | leaf (start stop : Nat)
  | inner (start stop : Nat) (radius : D) (inside outside : VpNode D)

/-- `VPTree` without the hash map. `data` reads as zero behind the records. -/
structure VPTree (R D : Type) where
  data : Nat → Wrapped R
  ptrs : Nat → VpPtr D
  reccnt : Nat
  root : VpNode D

namespace VPTree
variable {R D : Type} [LinearOrder D]

section Defs

/-- The loop of `partition` from `i` on, `left` steps before `stop` -/
def partitionLoop (stop : Nat) : Nat → Nat → Nat → (Nat → VpPtr D) → Nat × (Nat → VpPtr D)
  | 0, _, j, ptrs => (j, ptrs)
  | left + 1, i, j, ptrs =>
    if (ptrs i).dist < (ptrs stop).dist then
      partitionLoop stop left (i + 1) (j + 1) (swap ptrs j i)
    else partitionLoop stop left (i + 1) j ptrs

def partition (start stop : Nat) (ptrs : Nat → VpPtr D) (rng : Rng) :
    Option (Nat × (Nat → VpPtr D) × Rng) := do
  let (drawn, rng) ← rng.uniformInt (stop - start)
  let pivot := start + drawn
  let (j, ptrs) := partitionLoop stop (stop - start) start start (swap ptrs pivot stop)
  return (j, swap ptrs j stop, rng)

def quickselect : Nat → Nat → Nat → Nat → (Nat → VpPtr D) → Rng →
    Option ((Nat → VpPtr D) × Rng)
  | 0, _, _, _, _, _ => none
  | fuel + 1, start, stop, k, ptrs, rng =>
    if start = stop then some (ptrs, rng)
    else do
      let (pivot, ptrs, rng) ← partition start stop ptrs rng
      if k < pivot then quickselect fuel start (pivot - 1) k ptrs rng
      else if k > pivot then quickselect fuel (pivot + 1) stop k ptrs rng
      else return (ptrs, rng)

variable (calcDistance : R → R → D)

/-- `m_ptrs[i].ptr->rec` -/
def recAt (data : Nat → Wrapped R) (ptrs : Nat → VpPtr D) (i : Nat) : R :=
  (data (ptrs i).ptr).record

/-- The loop that calculates the distances from the root of the subtree -/
def setDistances (data : Nat → Wrapped R) (start stop : Nat) (ptrs : Nat → VpPtr D) :
    Nat → VpPtr D := fun i =>
  if start < i ∧ i ≤ stop then
    { ptrs i with dist := calcDistance (recAt data ptrs start) (recAt data ptrs i) }
  else ptrs i

def buildSubtree (leafSz : Nat) (data : Nat → Wrapped R) : Nat → Nat → Nat →
    (Nat → VpPtr D) → Rng → Option (VpNode D × (Nat → VpPtr D) × Rng)
  | 0, _, _, _, _ => none
  | fuel + 1, start, stop, ptrs, rng =>
    if start > stop then some (.null, ptrs, rng)
    else if stop - start ≤ leafSz then some (.leaf start stop, ptrs, rng)
    else do
      let (drawn, rng) ← rng.uniformInt (stop - start + 1)
      let ptrs := swap ptrs start (start + drawn)
      let ptrs := setDistances calcDistance data start stop ptrs
      let mid := (start + 1 + stop) / 2
      let (ptrs, rng) ← quickselect (stop + 1) (start + 1) stop mid ptrs rng
      let radius := calcDistance (recAt data ptrs start) (recAt data ptrs mid)
      let ptrs := Function.update ptrs start { ptrs start with dist := radius }
      let (inside, ptrs, rng) ← buildSubtree leafSz data fuel (start + 1) (mid - 1) ptrs rng
      let (outside, ptrs, rng) ← buildSubtree leafSz data fuel mid stop ptrs rng
      return (.inner start 0 radius inside outside, ptrs, rng)

variable [Zero R] [Zero D]

/-- What both constructors do once `m_data` is filled. The distances are indeterminate at
first, and written before they are read. -/
def build (leafSz : Nat) (records : List (Wrapped R)) (rng : Rng) : Option (VPTree R D) := do
  let data := fun i => records.getD i 0
  let ptrs := fun i => ⟨i, 0⟩
  if records.length > 0 then
    let (root, ptrs, _) ← buildSubtree calcDistance leafSz data (records.length + 1) 0
      (records.length - 1) ptrs rng
    return ⟨data, ptrs, records.length, root⟩
  else
    return ⟨data, ptrs, 0, .null⟩

/-- `VPTree(BufferView<R>)` -/
def ofBuffer (leafSz : Nat) (buffer : BufferView R) (rng : Rng) : Option (VPTree R D) :=
  build calcDistance leafSz
    ((buffer.records.filter fun w => !w.isDeleted).map fun w =>
      { w with header := w.header &&& 3#32 }) rng

omit [LinearOrder D] [Zero D] [Zero R] in
/-- The records at `get_record_at(0)`, ..., in order -/
def records (shard : VPTree R D) : List (Wrapped R) :=
  (List.range shard.reccnt).map shard.data

omit [LinearOrder D] [Zero D] [Zero R] in
@[simp] theorem length_records (shard : VPTree R D) : shard.records.length = shard.reccnt := by
  simp [records]

/-- `VPTree(std::vector<VPTree*>)` -/
def ofShards (leafSz : Nat) (shards : List (VPTree R D)) (rng : Rng) : Option (VPTree R D) :=
  build calcDistance leafSz
    ((shards.map fun s => s.records.filter fun w => !w.isDeleted).flatten) rng

end Defs

section Partition

/-- The entry at `stop` divides those at `start`, ..., `stop - 1`: the first ones, before
`j`, are nearer. -/
structure Divided (start stop j : Nat) (ptrs : Nat → VpPtr D) : Prop where
  start_le : start ≤ j
  le_stop : j ≤ stop
  nearer : ∀ x, start ≤ x → x < j → (ptrs x).dist < (ptrs stop).dist
  farther : ∀ x, j ≤ x → x < stop → (ptrs stop).dist ≤ (ptrs x).dist

theorem partitionLoop_spec (start stop left i j : Nat) (ptrs : Nat → VpPtr D)
    (hi : i + left = stop) (hj : start ≤ j ∧ j ≤ i)
    (hnearer : ∀ x, start ≤ x → x < j → (ptrs x).dist < (ptrs stop).dist)
    (hfarther : ∀ x, j ≤ x → x < i → (ptrs stop).dist ≤ (ptrs x).dist) :
    let out := partitionLoop stop left i j ptrs
    Divided start stop out.1 out.2 ∧ Within start stop ptrs out.2 := by
  induction left generalizing i j ptrs with
  | zero =>
    obtain rfl : i = stop := hi
    exact ⟨⟨hj.1, hj.2, hnearer, hfarther⟩, Within.refl ..⟩
  | succ left ih =>
    rw [partitionLoop]
    by_cases hlt : (ptrs i).dist < (ptrs stop).dist
    · rw [if_pos hlt]
      have hstop : swap ptrs j i stop = ptrs stop := swap_of_ne ptrs (by omega) (by omega)
      obtain ⟨hdiv, hwithin⟩ := ih (i + 1) (j + 1) (swap ptrs j i) (by omega) (by omega)
        (fun x hx hx' => by
          rw [hstop]
          rcases Nat.lt_succ_iff_lt_or_eq.mp hx' with hx' | rfl
          · rw [swap_of_ne ptrs (by omega) (by omega)]
            exact hnearer x hx hx'
          · rwa [swap_left])
        (fun x hx hx' => by
          rw [hstop]
          rcases Nat.lt_succ_iff_lt_or_eq.mp hx' with hx' | rfl
          · rw [swap_of_ne ptrs (by omega) (by omega)]
            exact hfarther x (by omega) hx'
          · rw [swap_right]
            exact hfarther j le_rfl (by omega))
      exact ⟨hdiv, (within_swap ptrs (by omega) (by omega)).trans hwithin⟩
    · rw [if_neg hlt]
      refine ih (i + 1) j ptrs (by omega) ⟨hj.1, by omega⟩ hnearer fun x hx hx' => ?_
      rcases Nat.lt_succ_iff_lt_or_eq.mp hx' with hx' | rfl
      · exact hfarther x hx hx'
      · exact not_lt.mp hlt

theorem exists_uniformInt (rng : Rng) {n : Nat} (hn : 0 < n) :
    ∃ drawn rng', rng.uniformInt n = some (drawn, rng') ∧ drawn < n :=
  ⟨_, _, if_neg (by omega), Nat.mod_lt _ hn⟩

/-- The entry at `k` is in its place: nothing before it is farther, nothing after it nearer. -/
structure Selected (start stop k : Nat) (ptrs : Nat → VpPtr D) : Prop where
  before : ∀ x, start ≤ x → x < k → (ptrs x).dist ≤ (ptrs k).dist
  after : ∀ x, k ≤ x → x ≤ stop → (ptrs k).dist ≤ (ptrs x).dist

theorem partition_spec {start stop : Nat} (hlt : start < stop) (ptrs : Nat → VpPtr D) (rng : Rng) :
    ∃ j ptrs' rng', partition start stop ptrs rng = some (j, ptrs', rng') ∧
      start ≤ j ∧ j ≤ stop ∧ Within start stop ptrs ptrs' ∧ Selected start stop j ptrs' := by
  obtain ⟨drawn, rng', hdraw, hdrawn⟩ := exists_uniformInt rng (show 0 < stop - start by omega)
  obtain ⟨hdiv, hwithin⟩ := partitionLoop_spec start stop (stop - start) start start
    (swap ptrs (start + drawn) stop) (by omega) ⟨le_rfl, le_rfl⟩ (fun x hx hx' => by omega)
    (fun x hx hx' => by omega)
  set out := partitionLoop stop (stop - start) start start (swap ptrs (start + drawn) stop)
  have hle := hdiv.start_le
  have hle' := hdiv.le_stop
  refine ⟨out.1, swap out.2 out.1 stop, rng', by simp [partition, hdraw, out], hle, hle', ?_, ?_⟩
  · exact ((within_swap ptrs (by omega) (by omega)).trans hwithin).trans
      (within_swap out.2 (by omega) (by omega))
  · refine ⟨fun x hx hx' => ?_, fun x hx hx' => ?_⟩
    · rw [swap_left, swap_of_ne out.2 (by omega) (by omega)]
      exact (hdiv.nearer x hx hx').le
    · rw [swap_left]
      rcases Nat.eq_or_lt_of_le hx with rfl | hgt
      · rw [swap_left]
      rcases Nat.eq_or_lt_of_le hx' with rfl | hless
      · rw [swap_right]
        exact hdiv.farther out.1 le_rfl hgt
      · rw [swap_of_ne out.2 (by omega) (by omega)]
        exact hdiv.farther x hx hless

theorem quickselect_spec (fuel : Nat) {start stop k : Nat} (ptrs : Nat → VpPtr D) (rng : Rng)
    (hfuel : stop - start < fuel) (hk : start ≤ k ∧ k ≤ stop) :
    ∃ ptrs' rng', quickselect fuel start stop k ptrs rng = some (ptrs', rng') ∧
      Within start stop ptrs ptrs' ∧ Selected start stop k ptrs' := by
  induction fuel generalizing start stop ptrs rng with
  | zero => exact absurd hfuel (Nat.not_lt_zero _)
  | succ fuel ih =>
    rw [quickselect]
    by_cases heq : start = stop
    · subst heq
      obtain rfl : k = start := by omega
      refine ⟨ptrs, rng, if_pos rfl, Within.refl .., fun x hx hx' => by omega, fun x hx hx' => ?_⟩
      obtain rfl : x = k := by omega
      exact le_rfl
    rw [if_neg heq]
    obtain ⟨j, ptrs₁, rng₁, hpart, hle, hle', hw, hsel⟩ :=
      partition_spec (show start < stop by omega) ptrs rng
    simp only [hpart, Option.bind_eq_bind, Option.bind_some]
    rcases lt_trichotomy k j with hlt | rfl | hgt
    · obtain ⟨ptrs', rng', hrec, hw', hsel'⟩ :=
        ih ptrs₁ rng₁ (show j - 1 - start < fuel by omega) (by omega)
      -- what lies from the pivot on has not moved and is no nearer than what lies before it
      have hpivot : ∀ x, j ≤ x → x ≤ stop → (ptrs' k).dist ≤ (ptrs' x).dist := by
        intro x hx hx'
        rw [hw'.eq_outside (i := x) (by omega)]
        refine le_trans ?_ (hsel.after x hx hx')
        exact (hw'.forall_iff le_rfl le_rfl fun e => e.dist ≤ (ptrs₁ j).dist).mpr
          (fun y hy hy' => hsel.before y hy (by omega)) k hk.1 (by omega)
      refine ⟨ptrs', rng', by rw [if_pos hlt, hrec], hw.trans (hw'.mono le_rfl (by omega)),
        hsel'.before, fun x hx hx' => ?_⟩
      rcases Nat.lt_or_ge x j with hxj | hxj
      · exact hsel'.after x hx (by omega)
      · exact hpivot x hxj hx'
    · exact ⟨ptrs₁, rng₁, by simp, hw, hsel⟩
    · obtain ⟨ptrs', rng', hrec, hw', hsel'⟩ :=
        ih ptrs₁ rng₁ (show stop - (j + 1) < fuel by omega) (by omega)
      have hpivot : ∀ x, start ≤ x → x ≤ j → (ptrs' x).dist ≤ (ptrs' k).dist := by
        intro x hx hx'
        rw [hw'.eq_outside (i := x) (by omega)]
        have hbefore : (ptrs₁ x).dist ≤ (ptrs₁ j).dist := by
          rcases Nat.eq_or_lt_of_le hx' with rfl | hlt
          · exact le_rfl
          · exact hsel.before x hx hlt
        refine hbefore.trans ?_
        exact (hw'.forall_iff le_rfl le_rfl fun e => (ptrs₁ j).dist ≤ e.dist).mpr
          (fun y hy hy' => hsel.after y (by omega) hy') k (by omega) hk.2
      refine ⟨ptrs', rng', by rw [if_neg (by omega), if_pos hgt, hrec],
        hw.trans (hw'.mono (by omega) le_rfl), fun x hx hx' => ?_, hsel'.after⟩
      rcases Nat.lt_or_ge j x with hxj | hxj
      · exact hsel'.before x hxj hx'
      · exact hpivot x hx hxj

end Partition

section Build
variable (calcDistance : R → R → D)

/-- The node is the root of a tree over the entries `lo`, ..., `hi - 1`: around the first
one, those inside are within the radius and those outside are not nearer than it. -/
inductive Tree (recs : Nat → R) : VpNode D → Nat → Nat → Prop where
  | null {lo hi : Nat} (h : hi ≤ lo) : Tree recs .null lo hi
  | leaf {start stop : Nat} (h : start ≤ stop) : Tree recs (.leaf start stop) start (stop + 1)
  | inner {start mid hi : Nat} {radius : D} {inside outside : VpNode D} (hmid : start < mid)
      (hhi : mid < hi)
      (near : ∀ p, start + 1 ≤ p → p ≤ mid - 1 → calcDistance (recs start) (recs p) ≤ radius)
      (far : ∀ p, mid ≤ p → p ≤ hi - 1 → radius ≤ calcDistance (recs start) (recs p))
      (hin : Tree recs inside (start + 1) mid) (hout : Tree recs outside mid hi) :
      Tree recs (.inner start 0 radius inside outside) start hi

variable {calcDistance}

theorem Tree.congr {recs recs' : Nat → R} {node : VpNode D} {lo hi : Nat}
    (h : Tree calcDistance recs node lo hi) (heq : ∀ p, lo ≤ p → p < hi → recs' p = recs p) :
    Tree calcDistance recs' node lo hi := by
  induction h with
  | null h => exact .null h
  | leaf h => exact .leaf h
  | @inner start mid hi radius inside outside hmid hhi near far hin hout ihin ihout =>
    have hstart := heq start le_rfl (by omega)
    refine .inner hmid hhi (fun p hp hp' => ?_) (fun p hp hp' => ?_)
      (ihin fun p hp hp' => heq p (by omega) (by omega))
      (ihout fun p hp hp' => heq p (by omega) hp')
    · rw [hstart, heq p (by omega) (by omega)]
      exact near p hp hp'
    · rw [hstart, heq p (by omega) (by omega)]
      exact far p hp hp'

/-- The pointers alone -/
def ptrOf (ptrs : Nat → VpPtr D) (i : Nat) : Nat := (ptrs i).ptr

omit [LinearOrder D] in
theorem recAt_eq (data : Nat → Wrapped R) (ptrs : Nat → VpPtr D) (i : Nat) :
    recAt data ptrs i = (data (ptrOf ptrs i)).record := rfl

omit [LinearOrder D] in
theorem ptrOf_setDistances (data : Nat → Wrapped R) (start stop : Nat) (ptrs : Nat → VpPtr D) :
    ptrOf (setDistances calcDistance data start stop ptrs) = ptrOf ptrs := by
  funext i
  rw [ptrOf, setDistances]
  split <;> rfl

omit [LinearOrder D] in
theorem ptrOf_update (ptrs : Nat → VpPtr D) (i : Nat) (dist : D) :
    ptrOf (Function.update ptrs i { ptrs i with dist := dist }) = ptrOf ptrs := by
  funext j
  by_cases hj : j = i
  · subst hj
    rw [ptrOf, Function.update_self]
    rfl
  · rw [ptrOf, Function.update_of_ne hj]
    rfl

/-- Around the root drawn for a subtree, `quickselect` leaves the nearer half before `mid`. -/
theorem split_spec (calcDistance : R → R → D) (data : Nat → Wrapped R) {start stop mid : Nat}
    (hmid : start < mid)
    (hstop : mid ≤ stop) (ptrs : Nat → VpPtr D) (rng : Rng) :
    ∃ ptrs' rng', quickselect (stop + 1) (start + 1) stop mid
        (setDistances calcDistance data start stop ptrs) rng = some (ptrs', rng') ∧
      Within (start + 1) stop (ptrOf ptrs) (ptrOf ptrs') ∧
      (∀ p, start + 1 ≤ p → p ≤ mid - 1 → calcDistance (recAt data ptrs' start)
        (recAt data ptrs' p) ≤ calcDistance (recAt data ptrs' start) (recAt data ptrs' mid)) ∧
      ∀ p, mid ≤ p → p ≤ stop → calcDistance (recAt data ptrs' start) (recAt data ptrs' mid) ≤
        calcDistance (recAt data ptrs' start) (recAt data ptrs' p) := by
  set ptrs₁ := setDistances calcDistance data start stop ptrs with hptrs₁
  obtain ⟨ptrs', rng', hselect, hw, hsel⟩ := quickselect_spec (stop + 1) ptrs₁ rng
    (show stop - (start + 1) < stop + 1 by omega) (show start + 1 ≤ mid ∧ mid ≤ stop by omega)
  have hptr : ptrOf ptrs₁ = ptrOf ptrs := ptrOf_setDistances data start stop ptrs
  have hwithin : Within (start + 1) stop (ptrOf ptrs) (ptrOf ptrs') := by
    rw [← hptr]
    exact hw.map VpPtr.ptr
  have hroot : recAt data ptrs' start = recAt data ptrs start := by
    rw [recAt_eq, recAt_eq, hwithin.eq_outside (by omega)]
  -- the distances are those from the root, and move with their records
  have hdist : ∀ p, start + 1 ≤ p → p ≤ stop →
      (ptrs' p).dist = calcDistance (recAt data ptrs' start) (recAt data ptrs' p) := by
    rw [hroot]
    refine (hw.forall_iff le_rfl le_rfl fun e =>
      e.dist = calcDistance (recAt data ptrs start) (data e.ptr).record).mpr fun p hp hp' => ?_
    rw [hptrs₁, setDistances, if_pos ⟨hp, hp'⟩]
    rfl
  refine ⟨ptrs', rng', hselect, hwithin, fun p hp hp' => ?_, fun p hp hp' => ?_⟩
  · rw [← hdist p hp (by omega), ← hdist mid hmid hstop]
    exact hsel.before p hp (by omega)
  · rw [← hdist p (by omega) hp', ← hdist mid hmid hstop]
    exact hsel.after p hp hp'

theorem buildSubtree_spec (calcDistance : R → R → D) (leafSz : Nat) (data : Nat → Wrapped R)
    (fuel start stop : Nat) (ptrs : Nat → VpPtr D) (rng : Rng) (hle : start ≤ stop + 1)
    (hfuel : stop + 1 - start < fuel) :
    ∃ node ptrs' rng',
      buildSubtree calcDistance leafSz data fuel start stop ptrs rng = some (node, ptrs', rng') ∧
      Within start stop (ptrOf ptrs) (ptrOf ptrs') ∧
      Tree calcDistance (recAt data ptrs') node start (stop + 1) := by
  induction fuel generalizing start stop ptrs rng with
  | zero => exact absurd hfuel (Nat.not_lt_zero _)
  | succ fuel ih =>
    rw [buildSubtree]
    by_cases hempty : start > stop
    · exact ⟨.null, ptrs, rng, if_pos hempty, Within.refl .., .null (by omega)⟩
    rw [if_neg hempty]
    by_cases hleaf : stop - start ≤ leafSz
    · exact ⟨.leaf start stop, ptrs, rng, if_pos hleaf, Within.refl .., .leaf (by omega)⟩
    rw [if_neg hleaf]
    obtain ⟨drawn, rng₁, hdraw, hdrawn⟩ :=
      exists_uniformInt rng (show 0 < stop - start + 1 by omega)
    set mid := (start + 1 + stop) / 2 with hmid
    have hlo : start < mid := by omega
    have hhi : mid ≤ stop := by omega
    set ptrs₁ := swap ptrs start (start + drawn) with hptrs₁
    have hw₁ : Within start stop (ptrOf ptrs) (ptrOf ptrs₁) :=
      (within_swap ptrs (by omega) (by omega)).map VpPtr.ptr
    obtain ⟨ptrs₂, rng₂, hselect, hw₂, hnear, hfar⟩ :=
      split_spec calcDistance data hlo hhi ptrs₁ rng₁
    set radius := calcDistance (recAt data ptrs₂ start) (recAt data ptrs₂ mid) with hradius
    set ptrs₃ := Function.update ptrs₂ start { ptrs₂ start with dist := radius } with hptrs₃
    have hptr₃ : ptrOf ptrs₃ = ptrOf ptrs₂ := ptrOf_update ptrs₂ start radius
    obtain ⟨inside, ptrs₄, rng₄, hin, hw₄, htin⟩ :=
      ih (start + 1) (mid - 1) ptrs₃ rng₂ (by omega) (by omega)
    obtain ⟨outside, ptrs₅, rng₅, hout, hw₅, htout⟩ :=
      ih mid stop ptrs₄ rng₄ (by omega) (by omega)
    rw [hptr₃] at hw₄
    rw [Nat.sub_add_cancel (show 1 ≤ mid by omega)] at htin
    have hstart : recAt data ptrs₅ start = recAt data ptrs₂ start := by
      rw [recAt_eq, recAt_eq, hw₅.eq_outside (by omega), hw₄.eq_outside (by omega)]
    refine ⟨.inner start 0 radius inside outside, ptrs₅, rng₅, ?_, ?_, ?_⟩
    · simp only [hdraw, Option.bind_eq_bind, Option.bind_some, ← hptrs₁, hselect, ← hradius,
        ← hptrs₃, hin, hout]
      rfl
    · exact ((hw₁.trans (hw₂.mono (by omega) le_rfl)).trans (hw₄.mono (by omega) (by omega))).trans
        (hw₅.mono (by omega) le_rfl)
    · refine .inner hlo (by omega) (fun p hp hp' => ?_) ?_ (htin.congr fun p hp hp' => ?_) htout
      · rw [hstart, recAt_eq data ptrs₅ p, hw₅.eq_outside (by omega)]
        exact (hw₄.forall_iff le_rfl le_rfl fun i =>
          calcDistance (recAt data ptrs₂ start) (data i).record ≤ radius).mpr hnear p hp hp'
      · rw [hstart, Nat.add_sub_cancel]
        refine (hw₅.forall_iff le_rfl le_rfl fun i =>
          radius ≤ calcDistance (recAt data ptrs₂ start) (data i).record).mpr fun p hp hp' => ?_
        rw [hw₄.eq_outside (by omega)]
        exact hfar p hp hp'
      · rw [recAt_eq, recAt_eq, hw₅.eq_outside (by omega)]

end Build

section Shard
variable [Zero R] [Zero D] (calcDistance : R → R → D)

/-- A shard's tree is over its records, each of which has one pointer. -/
structure WellFormed (shard : VPTree R D) : Prop where
  perm : (Multiset.range shard.reccnt).map (ptrOf shard.ptrs) = Multiset.range shard.reccnt
  tree : Tree calcDistance (recAt shard.data shard.ptrs) shard.root 0 shard.reccnt

theorem build_spec (leafSz : Nat) (records : List (Wrapped R)) (rng : Rng) :
    ∃ shard, build calcDistance leafSz records rng = some shard ∧
      WellFormed calcDistance shard ∧ shard.records = records := by
  have hrecords : (List.range records.length).map (fun i => records.getD i 0) = records :=
    List.ext_getElem (by simp) fun i h₁ h₂ => by simp [List.getElem?_eq_getElem h₂]
  by_cases hpos : 0 < records.length
  · obtain ⟨root, ptrs, rng', hbuild, hw, htree⟩ :=
      buildSubtree_spec calcDistance leafSz (fun i => records.getD i 0) (records.length + 1) 0
        (records.length - 1) (fun i => ⟨i, 0⟩) rng (by omega) (by omega)
    rw [Nat.sub_add_cancel hpos] at htree
    refine ⟨⟨fun i => records.getD i 0, ptrs, records.length, root⟩, ?_, ⟨?_, htree⟩, hrecords⟩
    · simp only [build, gt_iff_lt, if_pos hpos, hbuild, Option.bind_eq_bind, Option.bind_some]
      rfl
    · show (Multiset.range records.length).map (ptrOf ptrs) = Multiset.range records.length
      rw [hw.map_range (by omega)]
      exact Multiset.map_id _
  · obtain rfl : records = [] := List.length_eq_zero_iff.mp (by omega)
    exact ⟨_, rfl, ⟨rfl, .null le_rfl⟩, rfl⟩

theorem exists_ofBuffer (leafSz : Nat) (buffer : BufferView R) (rng : Rng) :
    ∃ shard, ofBuffer calcDistance leafSz buffer rng = some shard := by
  obtain ⟨shard, hbuild, -⟩ := build_spec calcDistance leafSz _ rng
  exact ⟨shard, hbuild⟩

theorem exists_ofShards (leafSz : Nat) (shards : List (VPTree R D)) (rng : Rng) :
    ∃ shard, ofShards calcDistance leafSz shards rng = some shard := by
  obtain ⟨shard, hbuild, -⟩ := build_spec calcDistance leafSz _ rng
  exact ⟨shard, hbuild⟩

omit [LinearOrder D] [Zero R] [Zero D] in
/-- `set_delete` on the record `i` -/
def setDelete (shard : VPTree R D) (i : Nat) : VPTree R D :=
  { shard with data := Function.update shard.data i (shard.data i).setDelete }

/-- The shards that the constructors can build, of leaves of any size and with any random
numbers, and that records were since marked deleted in -/
inductive Built : VPTree R D → Prop where
  | ofBuffer {leafSz : Nat} {buffer : BufferView R} {rng : Rng} {shard : VPTree R D}
      (h : ofBuffer calcDistance leafSz buffer rng = some shard) : Built shard
  | ofShards {leafSz : Nat} {shards : List (VPTree R D)} {rng : Rng} {shard : VPTree R D}
      (hs : ∀ s ∈ shards, Built s) (h : ofShards calcDistance leafSz shards rng = some shard) :
      Built shard
  | setDelete {shard : VPTree R D} (h : Built shard) (i : Nat) : Built (shard.setDelete i)

variable {calcDistance}

omit [LinearOrder D] [Zero R] [Zero D] in
theorem recAt_setDelete (shard : VPTree R D) (i p : Nat) :
    recAt (shard.setDelete i).data (shard.setDelete i).ptrs p = recAt shard.data shard.ptrs p := by
  show (Function.update shard.data i (shard.data i).setDelete (ptrOf shard.ptrs p)).record =
    (shard.data (ptrOf shard.ptrs p)).record
  by_cases hp : ptrOf shard.ptrs p = i
  · rw [hp, Function.update_self, Wrapped.record_setDelete]
  · rw [Function.update_of_ne hp]

theorem Built.wellFormed {shard : VPTree R D} (h : Built calcDistance shard) :
    WellFormed calcDistance shard := by
  induction h with
  | @ofBuffer leafSz buffer rng shard h =>
    obtain ⟨shard', hbuild, hw, -⟩ := build_spec calcDistance leafSz _ rng
    rw [VPTree.ofBuffer, hbuild] at h
    exact Option.some.inj h ▸ hw
  | @ofShards leafSz shards rng shard hs h ih =>
    obtain ⟨shard', hbuild, hw, -⟩ := build_spec calcDistance leafSz _ rng
    rw [VPTree.ofShards, hbuild] at h
    exact Option.some.inj h ▸ hw
  | @setDelete shard h i ih =>
    exact ⟨ih.perm, ih.tree.congr fun p _ _ => recAt_setDelete shard i p⟩

end Shard

end VPTree

end De
