import DynamicExtension.LayoutPlanner
set_option autoImplicit false

namespace De
variable {R : Type} [DecidableEq R] {T : ShardType R} {L : LayoutPolicy}

namespace ExtensionStructure

/-- The state entry that describes a level as it is -/
def stateOf (s : ExtensionStructure T L) (i : Nat) (l : InternalLevel T) : LevelState :=
  ⟨l.getRecordCount, s.calcLevelRecordCapacity i, l.getShardCount, s.shardCapacity⟩

/-- `m_current_state` describes every level as it is. -/
def Real (s : ExtensionStructure T L) : Prop :=
  ∀ i : Nat, s.currentState[i]? = s.levels[i]?.map (s.stateOf i)

/-- The level at an index; a missing one counts as the empty level that it would
be added as. -/
def levelAt (s : ExtensionStructure T L) (i : Nat) : InternalLevel T :=
  s.levels[i]?.getD (InternalLevel.new T i s.shardCapacity)

/-- The level numbers that the assertion of a two-level merge compares: they grow
with the index, or are 0 on both levels. -/
def Ordered (s : ExtensionStructure T L) : Prop :=
  ∀ i j, i < j → (s.levelAt i).live ≠ [] → (s.levelAt j).live ≠ [] →
    (s.levelAt i).levelNo < (s.levelAt j).levelNo ∨
      ((s.levelAt j).levelNo = 0 ∧ (s.levelAt i).levelNo = 0)

/-- What holds of every structure of a run under LEVELING and TEIRING -/
structure Sound (s : ExtensionStructure T L) : Prop where
  real : s.Real
  slots : ∀ i, (s.levelAt i).live.length + (s.levelAt i).free = s.shardCapacity
  noPending : ∀ i, (s.levelAt i).pendingShard = none
  ordered : L = .leveling → s.Ordered
  scale : L = .teiring → s.levels ≠ [] → 0 < s.scaleFactor

/-- The base level can take the level above it. -/
def Fits (L : LayoutPolicy) (base incoming : InternalLevel T) : Prop :=
  match L with
  | .leveling => base.live = [] ∨ incoming.live ≠ []
  | _ => base.free ≠ 0

/-- The shard lists that combining two levels hands to the merging constructor -/
def stepMerges (L : LayoutPolicy) (base incoming : InternalLevel T) : List (List T.Shard) :=
  match L with
  | .leveling => if base.live = [] then [] else [base.live ++ incoming.live]
  | _ => if incoming.live = [] then [] else [incoming.live]

/-- What combining two levels leaves at the base -/
structure Combined (L : LayoutPolicy) (base incoming l : InternalLevel T) : Prop where
  regroup : Regroup T (↑base.live + ↑incoming.live) ↑l.live
  slots : l.live.length + l.free = base.live.length + base.free
  noPending : l.pendingShard = none
  levelNo : L = .leveling →
    base.live ≠ [] ∧ l.levelNo = base.levelNo ∨ base.live = [] ∧ l = incoming
  length : incoming.live ≠ [] → l.live.length =
    if L = .teiring ∨ base.live = [] then base.live.length + 1 else base.live.length

theorem combine_leveling {base incoming : InternalLevel T}
    (hb : base.live.length + base.free = 1) (hi : incoming.live.length + incoming.free = 1)
    (hp : incoming.pendingShard = none) (hfits : Fits .leveling base incoming)
    (hno : base.live ≠ [] → incoming.live ≠ [] → base.levelNo > incoming.levelNo ∨
      (base.levelNo = 0 ∧ incoming.levelNo = 0)) :
    (∀ l, combine .leveling base incoming = some l → Combined .leveling base incoming l) ∧
      ((∀ xs ∈ stepMerges .leveling base incoming, (T.ofShards xs).isSome) →
        (combine .leveling base incoming).isSome) := by
  have hcnt : base.getShardCount = base.live.length := base.length_live.symm
  cases hbl : base.live with
  | nil =>
    have hc : combine .leveling base incoming = some incoming := by
      simp [combine, hcnt, hbl]
    rw [hc]
    refine ⟨?_, by simp⟩
    rintro l ⟨⟩
    refine ⟨?_, by rw [hb, hi], hp, fun _ => .inr ⟨hbl, rfl⟩, fun hne => ?_⟩
    · rw [hbl, Multiset.coe_nil, zero_add]
      exact .refl _
    · have hpos := List.length_pos_iff.mpr hne
      simp [hbl]
      omega
  | cons a as =>
    have hine : incoming.live ≠ [] := by
      cases hfits with
      | inl h => simp [hbl] at h
      | inr h => exact h
    obtain ⟨c, cs, hil⟩ := List.exists_cons_of_ne_nil hine
    obtain rfl : as = [] := by
      rw [hbl, List.length_cons] at hb
      exact List.eq_nil_of_length_eq_zero (by omega)
    obtain rfl : cs = [] := by
      rw [hil, List.length_cons] at hi
      exact List.eq_nil_of_length_eq_zero (by omega)
    have hc : combine .leveling base incoming = (T.ofShards [a, c]).map fun x =>
        InternalLevel.ofSlots T base.levelNo [x] 0 none := by
      have hpos : base.getShardCount > 0 := by simp [hcnt, hbl]
      rw [combine, if_pos hpos]
      exact InternalLevel.reconstruction_eq hbl hil (hno (by simp [hbl]) hine)
    rw [hc]
    constructor
    · intro l hl
      obtain ⟨x, hx, rfl⟩ := Option.map_eq_some_iff.mp hl
      refine ⟨?_, ?_, rfl, fun _ => .inl ⟨by simp [hbl], rfl⟩, by simp [hbl]⟩
      · rw [hbl, hil]
        exact .single (by simp) hx
      · rw [hb]
        simp
    · intro h
      have := h [a, c] (by simp [stepMerges, hbl, hil])
      simpa using this

theorem combine_teiring {base incoming : InternalLevel T} (hp : base.pendingShard = none)
    (hfits : Fits .teiring base incoming) :
    (∀ l, combine .teiring base incoming = some l → Combined .teiring base incoming l) ∧
      ((∀ xs ∈ stepMerges .teiring base incoming, (T.ofShards xs).isSome) →
        (combine .teiring base incoming).isSome) := by
  by_cases hil : incoming.live = []
  · have hc : combine .teiring base incoming = some base := by
      simp [combine, InternalLevel.appendLevel_nil hil, InternalLevel.finalize_none hp]
    rw [hc]
    refine ⟨?_, by simp⟩
    rintro l ⟨⟩
    refine ⟨?_, rfl, hp, by simp, fun hne => absurd hil hne⟩
    rw [hil, Multiset.coe_nil, add_zero]
    exact .refl _
  · have hfree : base.free ≠ 0 := hfits
    have hc : combine .teiring base incoming = (T.ofShards incoming.live).map base.put := by
      simp only [combine, InternalLevel.appendLevel_free hfree hil]
      cases T.ofShards incoming.live with
      | none => rfl
      | some x => exact InternalLevel.finalize_none (l := base.put x) hp
    rw [hc]
    constructor
    · intro l hl
      obtain ⟨x, hx, rfl⟩ := Option.map_eq_some_iff.mp hl
      refine ⟨?_, ?_, hp, by simp, by simp⟩
      · rw [InternalLevel.live_put, ← Multiset.coe_add]
        exact (Regroup.single hil hx).add_left _
      · rw [InternalLevel.live_put, InternalLevel.free_put, List.length_append,
          List.length_singleton]
        omega
    · intro h
      have := h incoming.live (by simp [stepMerges, hil])
      simpa using this

/-- The structure with a level at `idx`, as the callers of `reconstruction` and
`flush_buffer_into_l0` leave it before they use that level. -/
def ensure (s : ExtensionStructure T L) (idx : Nat) : ExtensionStructure T L :=
  if idx ≥ s.levels.length then s.addLevel idx else s

theorem levels_ensure (s : ExtensionStructure T L) (i : Nat) (h : i ≤ s.levels.length) :
    (s.ensure i).levels[i]? = some (s.levelAt i) := by
  unfold ensure
  split
  · obtain rfl : i = s.levels.length := by omega
    simp [addLevel, levelAt]
  · rw [levelAt, List.getElem?_eq_getElem (by omega)]
    rfl

theorem levelAt_ensure (s : ExtensionStructure T L) {i : Nat} (h : i ≤ s.levels.length) (j : Nat) :
    (s.ensure i).levelAt j = s.levelAt j := by
  unfold ensure
  split
  · obtain rfl : i = s.levels.length := by omega
    have hcap : (s.addLevel s.levels.length).shardCapacity = s.shardCapacity := by
      cases L <;> rfl
    simp only [levelAt, hcap]
    by_cases hj : j < s.levels.length
    · simp [addLevel, List.getElem?_append_left hj]
    · rw [addLevel, List.getElem?_append_right (by omega),
        List.getElem?_eq_none (l := s.levels) (by omega)]
      cases hk : j - s.levels.length with
      | zero =>
        obtain rfl : j = s.levels.length := by omega
        rfl
      | succ k => rfl
  · rfl

theorem length_state {s : ExtensionStructure T L} (h : s.Real) :
    s.currentState.length = s.levels.length := by
  apply Nat.le_antisymm
  · by_contra hlt
    have := h s.levels.length
    rw [List.getElem?_eq_none (Nat.le_refl _), List.getElem?_eq_getElem (by omega)] at this
    simp at this
  · by_contra hlt
    have := h s.currentState.length
    rw [List.getElem?_eq_none (Nat.le_refl _), List.getElem?_eq_getElem (by omega)] at this
    simp at this

theorem stateOf_congr {s s' : ExtensionStructure T L} (h₁ : s'.scaleFactor = s.scaleFactor)
    (h₂ : s'.bufferSize = s.bufferSize) : s'.stateOf = s.stateOf := by
  funext i l
  cases L <;> simp [stateOf, calcLevelRecordCapacity, shardCapacity, h₁, h₂]

theorem stateOf_new (s : ExtensionStructure T L) (i n c : Nat) :
    s.stateOf i (InternalLevel.new T n c) =
      ⟨0, s.calcLevelRecordCapacity i, 0, s.shardCapacity⟩ := by
  simp [stateOf, InternalLevel.getRecordCount_eq, InternalLevel.getShardCount,
    ← InternalLevel.length_live]

@[simp] theorem scaleFactor_ensure (s : ExtensionStructure T L) (i : Nat) :
    (s.ensure i).scaleFactor = s.scaleFactor := by
  unfold ensure
  split <;> rfl

@[simp] theorem bufferSize_ensure (s : ExtensionStructure T L) (i : Nat) :
    (s.ensure i).bufferSize = s.bufferSize := by
  unfold ensure
  split <;> rfl

theorem real_ensure {s : ExtensionStructure T L} (h : s.Real) {i : Nat}
    (hi : i ≤ s.levels.length) : (s.ensure i).Real := by
  intro j
  rw [stateOf_congr (s.scaleFactor_ensure i) (s.bufferSize_ensure i)]
  unfold ensure
  split
  · obtain rfl : i = s.levels.length := by omega
    simp only [addLevel]
    by_cases hj : j < s.levels.length
    · rw [List.getElem?_append_left (by rw [length_state h]; exact hj),
        List.getElem?_append_left hj]
      exact h j
    · rw [List.getElem?_append_right (by rw [length_state h]; omega),
        List.getElem?_append_right (by omega), length_state h]
      cases hk : j - s.levels.length with
      | zero =>
        have hj' : j = s.levels.length := by omega
        simp [stateOf_new, hj']
      | succ k => simp
  · exact h j

theorem shards_ensure (s : ExtensionStructure T L) (i : Nat) : (s.ensure i).shards = s.shards := by
  unfold ensure
  split
  · simp [shards, addLevel]
  · rfl

theorem net_eq (s : ExtensionStructure T L) :
    s.net = (s.shards.map fun x => De.net (T.records x)).sum := by
  rw [net, shards]
  induction s.levels with
  | nil => rfl
  | cons l ls ih => simp [ih, InternalLevel.net]

theorem live_le_shards (s : ExtensionStructure T L) (i : Nat) :
    ((s.levelAt i).live : Multiset T.Shard) ≤ s.shards := by
  unfold levelAt
  cases hl : s.levels[i]? with
  | none => simp
  | some l =>
    exact List.single_le_sum (fun _ _ => Multiset.zero_le _) _
      (List.mem_map_of_mem (List.mem_of_getElem? hl))

theorem sum_map_set {α M : Type} [AddCommMonoid M] (f : α → M) (xs : List α) (i : Nat) (x y : α)
    (h : xs[i]? = some x) : ((xs.set i y).map f).sum + f x = (xs.map f).sum + f y := by
  induction xs generalizing i with
  | nil => simp at h
  | cons z xs ih =>
    cases i with
    | zero =>
      obtain rfl : z = x := by simpa using h
      simp only [List.set_cons_zero, List.map_cons, List.sum_cons]
      abel
    | succ i =>
      have := ih i (by simpa using h)
      simp only [List.set_cons_succ, List.map_cons, List.sum_cons, add_assoc, this]

/-- What `reconstruction` leaves once the combined level is known -/
def place (s : ExtensionStructure T L) (i : Nat) (l : InternalLevel T) :
    ExtensionStructure T L :=
  let e := s.ensure (i + 1)
  { e with
    levels := (e.levels.set (i + 1) l).set i (InternalLevel.new T i e.shardCapacity)
    currentState := (e.currentState.set (i + 1) (e.stateOf (i + 1) l)).set i
      (e.stateOf i (InternalLevel.new T i e.shardCapacity)) }

theorem reconstruction_eq_place {s : ExtensionStructure T L} {i : Nat} (hi : i < s.levels.length) :
    s.reconstruction (i + 1) i =
      (combine L (s.levelAt (i + 1)) (s.levelAt i)).map (s.place i) := by
  have hb := s.levels_ensure (i + 1) hi
  have hi' : (s.ensure (i + 1)).levels[i]? = some (s.levelAt i) := by
    rw [← s.levelAt_ensure hi i, levelAt, List.getElem?_eq_getElem]
    · rfl
    · unfold ensure
      split
      · simp [addLevel]
        omega
      · exact hi
  unfold reconstruction place
  rw [← ensure]
  simp only [hb, hi', Option.bind_eq_bind, Option.bind_some, stateOf_new]
  cases combine L (s.levelAt (i + 1)) (s.levelAt i) <;> rfl

theorem shardCapacity_congr {s s' : ExtensionStructure T L} (h : s'.scaleFactor = s.scaleFactor) :
    s'.shardCapacity = s.shardCapacity := by
  cases L <;> simp [shardCapacity, h]

section Place
variable {s : ExtensionStructure T L} {i : Nat} {l : InternalLevel T}

@[simp] theorem scaleFactor_place : (s.place i l).scaleFactor = s.scaleFactor :=
  s.scaleFactor_ensure (i + 1)

@[simp] theorem bufferSize_place : (s.place i l).bufferSize = s.bufferSize :=
  s.bufferSize_ensure (i + 1)

theorem length_ensure (j : Nat) (hj : j ≤ s.levels.length) :
    (s.ensure j).levels.length = max s.levels.length (j + 1) := by
  unfold ensure
  split
  · simp [addLevel]
    omega
  · omega

theorem length_place (hi : i < s.levels.length) :
    (s.place i l).levels.length = max s.levels.length (i + 2) := by
  simp only [place, List.length_set]
  exact s.length_ensure (i + 1) hi

theorem levelAt_place (hi : i < s.levels.length) (j : Nat) :
    (s.place i l).levelAt j =
      if j = i then InternalLevel.new T i s.shardCapacity
      else if j = i + 1 then l else s.levelAt j := by
  have hlen := s.length_ensure (i + 1) hi
  have hcap : (s.place i l).shardCapacity = s.shardCapacity :=
    shardCapacity_congr scaleFactor_place
  have hcap' : (s.ensure (i + 1)).shardCapacity = s.shardCapacity :=
    shardCapacity_congr (s.scaleFactor_ensure (i + 1))
  rw [← s.levelAt_ensure hi j]
  simp only [levelAt, hcap, hcap']
  simp only [place, List.getElem?_set, hcap', List.length_set]
  split
  · rename_i hij
    subst hij
    rw [if_pos rfl, if_pos (by omega)]
    rfl
  · rename_i hij
    rw [if_neg (Ne.symm hij)]
    split
    · rename_i hij'
      rw [if_pos hij'.symm, if_pos (by omega)]
      rfl
    · rename_i hij'
      rw [if_neg (Ne.symm hij')]

theorem real_place (h : s.Real) (hi : i < s.levels.length) : (s.place i l).Real := by
  have hlen := s.length_ensure (i + 1) hi
  have hreal : (s.ensure (i + 1)).Real := real_ensure h hi
  have hstate := length_state hreal
  intro j
  rw [stateOf_congr scaleFactor_place bufferSize_place]
  rw [← stateOf_congr (s.scaleFactor_ensure (i + 1)) (s.bufferSize_ensure (i + 1))]
  simp only [place, List.getElem?_set, List.length_set, hstate]
  split
  · rename_i hij
    subst hij
    rw [if_pos (by omega), if_pos (by omega)]
    rfl
  · split
    · rename_i hij'
      subst hij'
      rw [if_pos (by omega), if_pos (by omega)]
      rfl
    · have := hreal j
      rwa [stateOf_congr (s.scaleFactor_ensure (i + 1)) (s.bufferSize_ensure (i + 1))] at this ⊢

theorem shards_place (hi : i < s.levels.length) :
    (s.place i l).shards + ↑(s.levelAt (i + 1)).live + ↑(s.levelAt i).live =
      s.shards + ↑l.live := by
  have hb := s.levels_ensure (i + 1) hi
  have hlen := s.length_ensure (i + 1) hi
  have hi' : ((s.ensure (i + 1)).levels.set (i + 1) l)[i]? = some (s.levelAt i) := by
    rw [List.getElem?_set_ne (by omega), ← s.levelAt_ensure hi i, levelAt,
      List.getElem?_eq_getElem (by omega)]
    rfl
  have h₁ := sum_map_set (fun l => (l.live : Multiset T.Shard)) _ _ _ l hb
  have h₂ := sum_map_set (fun l => (l.live : Multiset T.Shard)) _ _ _
    (InternalLevel.new T i (s.ensure (i + 1)).shardCapacity) hi'
  have hplace : (s.place i l).shards = ((((s.ensure (i + 1)).levels.set (i + 1) l).set i
    (InternalLevel.new T i (s.ensure (i + 1)).shardCapacity)).map
      fun l => (l.live : Multiset T.Shard)).sum := rfl
  rw [InternalLevel.live_new, Multiset.coe_nil, add_zero] at h₂
  rw [hplace, add_right_comm, h₂, h₁, ← shards, shards_ensure]

theorem regroup_place (hi : i < s.levels.length)
    (hl : Regroup T (↑(s.levelAt (i + 1)).live + ↑(s.levelAt i).live) ↑l.live) :
    Regroup T s.shards (s.place i l).shards := by
  have hsum := shards_place (l := l) hi
  have hle := live_le_shards (s.place i l) (i + 1)
  rw [levelAt_place hi, if_neg (Nat.succ_ne_self i), if_pos rfl] at hle
  obtain ⟨rest, hrest⟩ := Multiset.le_iff_exists_add.mp hle
  have hs : s.shards = ↑(s.levelAt (i + 1)).live + ↑(s.levelAt i).live + rest := by
    rw [hrest, add_assoc, add_assoc, add_comm s.shards, add_right_inj] at hsum
    rw [← hsum, add_comm]
  rw [hs, hrest]
  exact hl.add_right rest

end Place

theorem calcLevelRecordCapacity_congr {s s' : ExtensionStructure T L}
    (h₁ : s'.scaleFactor = s.scaleFactor) (h₂ : s'.bufferSize = s.bufferSize) :
    s'.calcLevelRecordCapacity = s.calcLevelRecordCapacity := by
  funext i
  rw [calcLevelRecordCapacity, calcLevelRecordCapacity, h₁, h₂]

theorem ordered_place {s : ExtensionStructure T L} {i : Nat} {l : InternalLevel T}
    (hord : s.Ordered) (hi : i < s.levels.length)
    (hl : (s.levelAt (i + 1)).live ≠ [] ∧ l.levelNo = (s.levelAt (i + 1)).levelNo ∨
      (s.levelAt (i + 1)).live = [] ∧ l = s.levelAt i) : (s.place i l).Ordered := by
  intro a b hab ha hb
  have hai : a ≠ i := by
    rintro rfl
    simp [levelAt_place hi] at ha
  have hbi : b ≠ i := by
    rintro rfl
    simp [levelAt_place hi] at hb
  simp only [levelAt_place hi, hai, hbi, if_false] at ha hb ⊢
  by_cases ha' : a = i + 1
  · have hb' : b ≠ i + 1 := by omega
    simp only [ha', hb', if_true, if_false] at ha hb ⊢
    rcases hl with ⟨hne, hno⟩ | ⟨-, rfl⟩
    · rw [hno]
      exact hord (i + 1) b (by omega) hne hb
    · exact hord i b (by omega) ha hb
  · by_cases hb' : b = i + 1
    · simp only [ha', hb', if_true, if_false] at ha hb ⊢
      rcases hl with ⟨hne, hno⟩ | ⟨-, rfl⟩
      · rw [hno]
        exact hord a (i + 1) (by omega) ha hne
      · exact hord a i (by omega) ha hb
    · simp only [ha', hb', if_false] at ha hb ⊢
      exact hord a b hab ha hb

theorem sound_place {s : ExtensionStructure T L} {i : Nat} {l : InternalLevel T} (hs : s.Sound)
    (hi : i < s.levels.length) (hc : Combined L (s.levelAt (i + 1)) (s.levelAt i) l) :
    (s.place i l).Sound where
  real := real_place hs.real hi
  slots j := by
    rw [levelAt_place hi, shardCapacity_congr scaleFactor_place]
    split
    · simp
    · split
      · rw [hc.slots, hs.slots]
      · exact hs.slots j
  noPending j := by
    rw [levelAt_place hi]
    split
    · rfl
    · split
      · exact hc.noPending
      · exact hs.noPending j
  ordered hl := ordered_place (hs.ordered hl) hi (hc.levelNo hl)
  scale hl _ := by
    rw [scaleFactor_place]
    apply hs.scale hl
    rintro h
    simp [h] at hi

theorem combine_spec (h : L ≠ .bsm) {s : ExtensionStructure T L} {i : Nat} (hs : s.Sound)
    (hfits : Fits L (s.levelAt (i + 1)) (s.levelAt i)) :
    (∀ l, combine L (s.levelAt (i + 1)) (s.levelAt i) = some l →
        Combined L (s.levelAt (i + 1)) (s.levelAt i) l) ∧
      ((∀ xs ∈ stepMerges L (s.levelAt (i + 1)) (s.levelAt i), (T.ofShards xs).isSome) →
        (combine L (s.levelAt (i + 1)) (s.levelAt i)).isSome) := by
  cases L with
  | leveling =>
    refine combine_leveling (hs.slots (i + 1)) (hs.slots i) (hs.noPending i) hfits fun hb hi => ?_
    exact hs.ordered rfl i (i + 1) (by omega) hi hb
  | teiring => exact combine_teiring (hs.noPending (i + 1)) hfits
  | bsm => exact absurd rfl h

/-- The shard lists that the reconstructions from a base level up hand to the
merging constructor, read off the structure before the first of them -/
def downMerges (s : ExtensionStructure T L) : Nat → List (List T.Shard)
  | 0 => []
  | i + 1 => stepMerges L (s.levelAt (i + 1)) (s.levelAt i) ++
      if L = .leveling then [] else downMerges s i

theorem downMerges_congr (h : L = .teiring) {s s' : ExtensionStructure T L} (b : Nat)
    (hlt : ∀ j < b, s'.levelAt j = s.levelAt j) : s'.downMerges b = s.downMerges b := by
  subst h
  induction b with
  | zero => rfl
  | succ b ih =>
    simp only [downMerges, stepMerges, hlt b (Nat.lt_succ_self b)]
    rw [ih fun j hj => hlt j (Nat.lt_succ_of_lt hj)]

theorem downMerges_place (h : L ≠ .bsm) {s : ExtensionStructure T L} {i : Nat}
    (hi : i < s.levels.length) (l : InternalLevel T) :
    (s.place i l).downMerges i ⊆ s.downMerges (i + 1) := by
  cases L with
  | leveling =>
    cases i with
    | zero => simp [downMerges]
    | succ i => simp [downMerges, stepMerges, levelAt_place hi]
  | teiring =>
    have hcongr : (s.place i l).downMerges i = s.downMerges i := by
      apply downMerges_congr rfl
      intro j hj
      rw [levelAt_place hi, if_neg (by omega), if_neg (by omega)]
    rw [hcongr, downMerges, if_neg (by decide)]
    exact List.subset_append_right _ _
  | bsm => exact absurd rfl h

/-- After a cascade only the distribution over the levels has changed. -/
structure Rearranged (s s' : ExtensionStructure T L) : Prop where
  sound : s'.Sound
  regroup : Regroup T s.shards s'.shards
  scaleFactor : s'.scaleFactor = s.scaleFactor
  bufferSize : s'.bufferSize = s.bufferSize
  length : s.levels.length ≤ s'.levels.length

theorem fits_new (h : L ≠ .bsm) {s : ExtensionStructure T L} (hs : s.Sound) (n : Nat)
    (hne : s.levels ≠ []) (l : InternalLevel T) :
    Fits L (InternalLevel.new T n s.shardCapacity) l := by
  cases L with
  | leveling => exact .inl (InternalLevel.live_new n _)
  | teiring =>
    have hpos := hs.scale rfl hne
    simp only [Fits, InternalLevel.free_new, shardCapacity]
    omega
  | bsm => exact absurd rfl h

/-- One reconstruction of a cascade: what it leaves for the next one -/
structure Stepped (s : ExtensionStructure T L) (i : Nat) (s' : ExtensionStructure T L) :
    Prop where
  rearranged : Rearranged s s'
  emptied : s'.levelAt i = InternalLevel.new T i s.shardCapacity
  below : i < s'.levels.length
  fits : ∀ j, i = j + 1 → Fits L (s'.levelAt (j + 1)) (s'.levelAt j)
  merges : s'.downMerges i ⊆ s.downMerges (i + 1)

theorem reconstruction_spec (h : L ≠ .bsm) {s : ExtensionStructure T L} (hs : s.Sound) {i : Nat}
    (hi : i < s.levels.length) (hfits : Fits L (s.levelAt (i + 1)) (s.levelAt i)) :
    (∀ s', s.reconstruction (i + 1) i = some s' → Stepped s i s') ∧
      ((∀ xs ∈ s.downMerges (i + 1), (T.ofShards xs).isSome) →
        (s.reconstruction (i + 1) i).isSome) := by
  obtain ⟨hsome, hdef⟩ := combine_spec h hs hfits
  rw [reconstruction_eq_place hi]
  constructor
  · intro s' hs'
    obtain ⟨l, hl, rfl⟩ := Option.map_eq_some_iff.mp hs'
    have hc := hsome l hl
    have hlen : (s.place i l).levels.length = max s.levels.length (i + 2) := length_place hi
    refine ⟨⟨sound_place hs hi hc, regroup_place hi hc.regroup, scaleFactor_place,
      bufferSize_place, by omega⟩, ?_,
      by omega, ?_, downMerges_place h hi l⟩
    · rw [levelAt_place hi, if_pos rfl]
    · rintro j rfl
      rw [levelAt_place hi, if_pos rfl]
      exact fits_new h hs _ (by rintro h; simp [h] at hi) _
  · intro hm
    rw [Option.isSome_map]
    exact hdef fun xs hxs => hm xs (List.mem_append_left _ hxs)

theorem Rearranged.trans {s s₁ s₂ : ExtensionStructure T L} (h₁ : Rearranged s s₁)
    (h₂ : Rearranged s₁ s₂) : Rearranged s s₂ :=
  ⟨h₂.sound, h₁.regroup.trans h₂.regroup, h₂.scaleFactor.trans h₁.scaleFactor,
    h₂.bufferSize.trans h₁.bufferSize, h₁.length.trans h₂.length⟩

/-- Any number of reconstructions of a cascade: `b` was the base level of the
first of them, `c` is that of the next one. -/
structure Descended (s : ExtensionStructure T L) (b c : Nat) (s' : ExtensionStructure T L) :
    Prop where
  rearranged : Rearranged s s'
  below : c ≤ s'.levels.length
  fits : ∀ j, c = j + 1 → Fits L (s'.levelAt (j + 1)) (s'.levelAt j)
  first : c = 0 → s'.levelAt 0 =
    if b = 0 then s.levelAt 0 else InternalLevel.new T 0 s.shardCapacity
  unchanged : b = c → s' = s

theorem Descended.step {s s₁ s' : ExtensionStructure T L} {i c : Nat} (h₁ : Stepped s i s₁)
    (h₂ : Descended s₁ i c s') (hc : c ≤ i) : Descended s (i + 1) c s' where
  rearranged := h₁.rearranged.trans h₂.rearranged
  below := h₂.below
  fits := h₂.fits
  first h0 := by
    rw [h₂.first h0, if_neg (Nat.succ_ne_zero i),
      shardCapacity_congr h₁.rearranged.scaleFactor]
    split
    · rename_i hi
      subst hi
      exact h₁.emptied
    · rfl
  unchanged h := by omega

theorem runDown_append_spec (h : L ≠ .bsm) {s s' : ExtensionStructure T L} (hs : s.Sound) {b : Nat}
    (hb : b ≤ s.levels.length)
    (hfits : ∀ i, b = i + 1 → Fits L (s.levelAt (i + 1)) (s.levelAt i))
    {done rest : List ReconstructionTask}
    (ht : (done ++ rest).map ReconstructionTask.shape = downShapes b)
    (hrun : s.reconstructTasks done = some s') :
    ∃ c ≤ b, rest.map ReconstructionTask.shape = downShapes c ∧ Descended s b c s' := by
  induction done generalizing s b with
  | nil =>
    obtain rfl : s = s' := Option.some.inj hrun
    refine ⟨b, le_rfl, ht, ⟨hs, .refl _, rfl, rfl, le_rfl⟩, hb, hfits, ?_, fun _ => rfl⟩
    rintro rfl
    rfl
  | cons t ts ih =>
    cases b with
    | zero => simp [downShapes] at ht
    | succ i =>
      rw [downShapes_succ, List.cons_append, List.map_cons, List.cons.injEq] at ht
      rw [reconstructTasks, List.foldlM_cons, reconstructTask_shape h s t ht.1] at hrun
      cases hr : s.reconstruction (i + 1) i with
      | none =>
        rw [hr] at hrun
        cases hrun
      | some s₁ =>
        rw [hr] at hrun
        have hstep := (reconstruction_spec h hs hb (hfits i rfl)).1 s₁ hr
        obtain ⟨c, hc, hrest, hd⟩ :=
          ih hstep.rearranged.sound hstep.below.le hstep.fits ht.2 hrun
        exact ⟨c, by omega, hrest, hd.step hstep hc⟩

theorem runDown_isSome (h : L ≠ .bsm) (b : Nat) {s : ExtensionStructure T L} (hs : s.Sound)
    (hb : b ≤ s.levels.length)
    (hfits : ∀ i, b = i + 1 → Fits L (s.levelAt (i + 1)) (s.levelAt i))
    (hm : ∀ xs ∈ s.downMerges b, (T.ofShards xs).isSome) : (runDown b s).isSome := by
  induction b generalizing s with
  | zero => rfl
  | succ i ih =>
    obtain ⟨hsome, hdef⟩ := reconstruction_spec h hs hb (hfits i rfl)
    obtain ⟨s₁, hs₁⟩ := Option.isSome_iff_exists.mp (hdef hm)
    have hstep := hsome s₁ hs₁
    rw [runDown, hs₁]
    exact ih hstep.rearranged.sound hstep.below.le hstep.fits
      fun xs hxs => hm xs (hstep.merges hxs)

/-- Level 0 can take a buffer of so many records. -/
def Room (s : ExtensionStructure T L) (n : Nat) : Prop :=
  match L with
  | .leveling => (s.levelAt 0).getRecordCount + n ≤ s.calcLevelRecordCapacity 0
  | _ => (s.levelAt 0).free ≠ 0

/-- The shard lists that the flush itself hands to the merging constructor -/
def flushMerges (s : ExtensionStructure T L) (v : BufferView R) : List (List T.Shard) :=
  if L = .leveling ∧ (s.levelAt 0).live ≠ [] then [(s.levelAt 0).live ++ [T.ofBuffer v]] else []

/-- What a flush leaves at level 0 -/
structure Flushed (L : LayoutPolicy) (old : InternalLevel T) (v : BufferView R)
    (l : InternalLevel T) : Prop where
  regroup : Regroup T (↑old.live + {T.ofBuffer v}) ↑l.live
  slots : l.live.length + l.free = old.live.length + old.free
  noPending : l.pendingShard = none
  count : l.getRecordCount ≤ old.getRecordCount + v.getRecordCount
  levelNo : L = .leveling → l.levelNo = 0 ∨ old.live ≠ [] ∧ l.levelNo = old.levelNo
  nonempty : l.live ≠ []

theorem flushed_put {old : InternalLevel T} (hfree : old.free ≠ 0) (hp : old.pendingShard = none)
    (v : BufferView R) (hno : L = .leveling → old.levelNo = 0) :
    Flushed L old v (old.put (T.ofBuffer v)) where
  regroup := by
    rw [InternalLevel.live_put, ← Multiset.coe_add, Multiset.coe_singleton]
    exact .refl _
  slots := by
    rw [InternalLevel.live_put, InternalLevel.free_put, List.length_append, List.length_singleton]
    omega
  noPending := hp
  count := by
    have := T.ofBuffer_count v
    simp only [InternalLevel.getRecordCount_eq, InternalLevel.live_put, List.map_append,
      List.map_cons, List.map_nil, List.sum_append, List.sum_singleton]
    omega
  levelNo hl := .inl (hno hl)
  nonempty := by simp

theorem flushLevel_leveling {old : InternalLevel T} (hs : old.live.length + old.free = 1)
    (v : BufferView R) :
    (∀ l, flushLevel .leveling old v = some l → Flushed .leveling old v l) ∧
      ((∀ a, old.live = [a] → (T.ofShards [a, T.ofBuffer v]).isSome) →
        (flushLevel .leveling old v).isSome) := by
  have htemp : (InternalLevel.new T 0 1).appendBuffer v =
      some ((InternalLevel.new T 0 1).put (T.ofBuffer v)) :=
    InternalLevel.appendBuffer_free (by simp) v
  have hcnt : old.getShardCount = old.live.length := old.length_live.symm
  simp only [flushLevel, htemp, hcnt, Option.bind_eq_bind, Option.bind_some]
  cases hol : old.live with
  | nil =>
    refine ⟨?_, fun _ => by simp⟩
    rintro l ⟨⟩
    have hf : Flushed .leveling (InternalLevel.new T 0 1) v _ :=
      flushed_put (by simp) rfl v fun _ => rfl
    refine ⟨?_, ?_, hf.noPending, ?_, fun _ => .inl rfl, hf.nonempty⟩
    · simpa [hol] using hf.regroup
    · rw [hf.slots, hs]
      simp
    · have := hf.count
      simp only [InternalLevel.getRecordCount_eq, InternalLevel.live_new, hol] at this ⊢
      exact this
  | cons a as =>
    obtain rfl : as = [] := by
      rw [hol, List.length_cons] at hs
      exact List.eq_nil_of_length_eq_zero (by omega)
    have hlive : ((InternalLevel.new T 0 1).put (T.ofBuffer v)).live = [T.ofBuffer v] := by simp
    have hrec := InternalLevel.reconstruction_eq hol hlive
      (Nat.eq_zero_or_pos old.levelNo |>.symm.imp id fun h => ⟨h, rfl⟩)
    simp only [List.length_singleton, gt_iff_lt, Nat.lt_one_iff, if_true]
    rw [hrec]
    constructor
    · intro l hl
      obtain ⟨x, hx, rfl⟩ := Option.map_eq_some_iff.mp hl
      have hcount := T.ofShards_count _ _ hx
      have hbuf := T.ofBuffer_count v
      refine ⟨?_, ?_, rfl, ?_, fun _ => .inr ⟨by simp [hol], rfl⟩, by simp⟩
      · rw [hol]
        exact .single (by simp) hx
      · rw [hs]
        simp
      · simp only [InternalLevel.getRecordCount_eq, hol, InternalLevel.live_ofSlots,
          List.map_cons, List.map_nil, List.sum_cons, List.sum_nil] at hcount ⊢
        omega
    · intro h
      simpa using h a rfl

theorem flushLevel_spec (h : L ≠ .bsm) {s : ExtensionStructure T L} (hs : s.Sound) {n : Nat}
    (hroom : s.Room n) (v : BufferView R) :
    (∀ l, flushLevel L (s.levelAt 0) v = some l → Flushed L (s.levelAt 0) v l) ∧
      ((∀ xs ∈ s.flushMerges v, (T.ofShards xs).isSome) →
        (flushLevel L (s.levelAt 0) v).isSome) := by
  cases L with
  | leveling =>
    obtain ⟨h₁, h₂⟩ := flushLevel_leveling (hs.slots 0) v
    refine ⟨h₁, fun hm => h₂ fun a ha => hm _ ?_⟩
    simp [flushMerges, ha]
  | teiring =>
    have hfree : (s.levelAt 0).free ≠ 0 := hroom
    have hl : flushLevel .teiring (s.levelAt 0) v = some ((s.levelAt 0).put (T.ofBuffer v)) :=
      InternalLevel.appendBuffer_free hfree v
    rw [hl]
    refine ⟨?_, fun _ => rfl⟩
    rintro l ⟨⟩
    exact flushed_put hfree (hs.noPending 0) v (by simp)
  | bsm => exact absurd rfl h

/-- What `flush_buffer` leaves once the new level 0 is known -/
def placeFirst (s : ExtensionStructure T L) (l : InternalLevel T) : ExtensionStructure T L :=
  let e := s.ensure 0
  { e with
    flushSeq := e.flushSeq + 1
    levels := e.levels.set 0 l
    currentState := e.currentState.modify 0 fun st =>
      { st with reccnt := l.getRecordCount, shardcnt := l.getShardCount } }

/-- The state vector that the assertion of `flush_buffer` looks at -/
def flushState (s : ExtensionStructure T L) : List LevelState :=
  if s.currentState.length = 0 then (s.grow s.currentState).2 else s.currentState

/-- The assertion of `flush_buffer` on a structure whose state vector is real -/
theorem room_iff (h : L ≠ .bsm) {s : ExtensionStructure T L} (hs : s.Sound) (n : Nat) :
    canReconstructWith L 0 n s.flushState = true ↔ s.Room n := by
  have hzero : s.flushState[0]? = some (s.stateOf 0 (s.levelAt 0)) := by
    have hlen := length_state hs.real
    unfold flushState
    split
    · rename_i h0
      rw [h0] at hlen
      have hc : s.currentState = [] := List.eq_nil_of_length_eq_zero h0
      have hl : s.levels = [] := List.eq_nil_of_length_eq_zero hlen.symm
      simp [grow, hc, hl, levelAt, stateOf_new]
    · rename_i h0
      rw [hs.real 0, levelAt, List.getElem?_eq_getElem (by omega)]
      rfl
  have hslots := hs.slots 0
  have hcnt : (s.levelAt 0).getShardCount = (s.levelAt 0).live.length :=
    (s.levelAt 0).length_live.symm
  cases L with
  | leveling => simp only [canReconstructWith, hzero, Room, stateOf, decide_eq_true_eq]
  | teiring =>
    simp only [canReconstructWith, hzero, Room, stateOf, hcnt, decide_eq_true_eq]
    omega
  | bsm => exact absurd rfl h

theorem flushBuffer_eq_guard (s : ExtensionStructure T L) (v : BufferView R) :
    s.flushBuffer v =
      if canReconstructWith L 0 v.getRecordCount s.flushState then
        (flushLevel L (s.levelAt 0) v).map s.placeFirst
      else none := by
  have he : (if s.levels.length = 0 then s.addLevel 0 else s) = s.ensure 0 := by
    unfold ensure
    split
    · rw [if_pos (by omega)]
    · rw [if_neg (by omega)]
  have h0 := s.levels_ensure 0 (Nat.zero_le _)
  have hflush : s.flushBuffer v = do
      guard (canReconstructWith L 0 v.getRecordCount s.flushState)
      let s ← s.flushBufferIntoL0 v
      return { s with flushSeq := s.flushSeq + 1 } := rfl
  simp only [hflush, flushBufferIntoL0, he, h0]
  by_cases hcan : canReconstructWith L 0 v.getRecordCount s.flushState = true
  · cases hl : flushLevel L (s.levelAt 0) v with
    | none => simp [hcan, hl]
    | some l => simp [hcan, hl, placeFirst]
  · simp [hcan, guard]

theorem flushBuffer_eq (h : L ≠ .bsm) {s : ExtensionStructure T L} (hs : s.Sound)
    (v : BufferView R) :
    (¬ s.Room v.getRecordCount → s.flushBuffer v = none) ∧
      (s.Room v.getRecordCount →
        s.flushBuffer v = (flushLevel L (s.levelAt 0) v).map s.placeFirst) := by
  rw [flushBuffer_eq_guard, ← room_iff h hs]
  exact ⟨fun hno => if_neg hno, fun hyes => if_pos hyes⟩

theorem flushBuffer_cases (h : L ≠ .bsm) {s s' : ExtensionStructure T L} (hs : s.Sound)
    {v : BufferView R} (hrun : s.flushBuffer v = some s') :
    s.Room v.getRecordCount ∧
      ∃ l, flushLevel L (s.levelAt 0) v = some l ∧ s' = s.placeFirst l := by
  obtain ⟨hno, hyes⟩ := flushBuffer_eq h hs v
  have hroom : s.Room v.getRecordCount := by
    by_contra hr
    rw [hno hr] at hrun
    cases hrun
  rw [hyes hroom] at hrun
  obtain ⟨l, hl, hs'⟩ := Option.map_eq_some_iff.mp hrun
  exact ⟨hroom, l, hl, hs'.symm⟩

section PlaceFirst
variable {s : ExtensionStructure T L} {l : InternalLevel T}

@[simp] theorem scaleFactor_placeFirst : (s.placeFirst l).scaleFactor = s.scaleFactor :=
  s.scaleFactor_ensure 0

@[simp] theorem bufferSize_placeFirst : (s.placeFirst l).bufferSize = s.bufferSize :=
  s.bufferSize_ensure 0

theorem length_ensure_zero : 0 < (s.ensure 0).levels.length := by
  rw [s.length_ensure 0 (Nat.zero_le _)]
  omega

theorem length_placeFirst : (s.placeFirst l).levels.length = max s.levels.length 1 := by
  simp only [placeFirst, List.length_set]
  exact s.length_ensure 0 (Nat.zero_le _)

theorem levelAt_placeFirst (j : Nat) :
    (s.placeFirst l).levelAt j = if j = 0 then l else s.levelAt j := by
  have hcap : (s.placeFirst l).shardCapacity = s.shardCapacity :=
    shardCapacity_congr scaleFactor_placeFirst
  have hcap' : (s.ensure 0).shardCapacity = s.shardCapacity :=
    shardCapacity_congr (s.scaleFactor_ensure 0)
  rw [← s.levelAt_ensure (Nat.zero_le _) j]
  simp only [levelAt, hcap, hcap']
  simp only [placeFirst, List.getElem?_set]
  split
  · rename_i hj
    rw [if_pos length_ensure_zero, if_pos hj.symm]
    rfl
  · rename_i hj
    rw [if_neg (Ne.symm hj)]

theorem real_placeFirst (h : s.Real) : (s.placeFirst l).Real := by
  have hreal : (s.ensure 0).Real := real_ensure h (Nat.zero_le _)
  intro j
  rw [stateOf_congr scaleFactor_placeFirst bufferSize_placeFirst,
    ← stateOf_congr (s.scaleFactor_ensure 0) (s.bufferSize_ensure 0)]
  simp only [placeFirst, List.getElem?_set, List.getElem?_modify, hreal j]
  split
  · rename_i hj
    subst hj
    rw [if_pos length_ensure_zero, List.getElem?_eq_getElem length_ensure_zero]
    rfl
  · rw [id_map']

theorem shards_placeFirst :
    (s.placeFirst l).shards + ↑(s.levelAt 0).live = s.shards + ↑l.live := by
  have h0 := s.levels_ensure 0 (Nat.zero_le _)
  have := sum_map_set (fun l => (l.live : Multiset T.Shard)) _ _ _ l h0
  rw [← shards_ensure s 0]
  exact this

theorem regroup_placeFirst {x : T.Shard} (hl : Regroup T (↑(s.levelAt 0).live + {x}) ↑l.live) :
    Regroup T (s.shards + {x}) (s.placeFirst l).shards := by
  have hsum := shards_placeFirst (s := s) (l := l)
  obtain ⟨rest, hrest⟩ := Multiset.le_iff_exists_add.mp (live_le_shards s 0)
  have hs : (s.placeFirst l).shards = ↑l.live + rest := by
    rw [hrest, add_comm, add_assoc, add_right_inj] at hsum
    rw [hsum, add_comm]
  rw [hs, hrest, add_right_comm]
  exact hl.add_right rest

end PlaceFirst

theorem ordered_placeFirst {s : ExtensionStructure T L} {l : InternalLevel T} (hord : s.Ordered)
    (hl : l.levelNo = 0 ∨ (s.levelAt 0).live ≠ [] ∧ l.levelNo = (s.levelAt 0).levelNo) :
    (s.placeFirst l).Ordered := by
  intro a b hab ha hb
  have hb0 : b ≠ 0 := by omega
  simp only [levelAt_placeFirst, hb0, if_false] at ha hb ⊢
  by_cases ha0 : a = 0
  · simp only [ha0, if_true] at ha ⊢
    rcases hl with hno | ⟨hne, hno⟩
    · omega
    · rw [hno]
      exact hord 0 b (by omega) hne hb
  · simp only [ha0, if_false] at ha ⊢
    exact hord a b hab ha hb

theorem sound_placeFirst {s : ExtensionStructure T L} (hs : s.Sound) {v : BufferView R}
    (hpos : L = .teiring → 0 < s.scaleFactor) {l : InternalLevel T}
    (hf : Flushed L (s.levelAt 0) v l) : (s.placeFirst l).Sound where
  real := real_placeFirst hs.real
  slots j := by
    rw [levelAt_placeFirst, shardCapacity_congr scaleFactor_placeFirst]
    split
    · rw [hf.slots, hs.slots]
    · exact hs.slots j
  noPending j := by
    rw [levelAt_placeFirst]
    split
    · exact hf.noPending
    · exact hs.noPending j
  ordered hl := ordered_placeFirst (hs.ordered hl) (hf.levelNo hl)
  scale hl _ := by
    rw [scaleFactor_placeFirst]
    exact hpos hl

end ExtensionStructure

end De
