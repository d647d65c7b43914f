import DynamicExtension.StructureSteps
set_option autoImplicit false

namespace De
variable {R : Type} [DecidableEq R] {T : ShardType R} {L : LayoutPolicy}

namespace ExtensionStructure

/-- Between two rounds every level holds a shard; LEVELING relies on it. -/
structure Settled (s : ExtensionStructure T L) : Prop where
  sound : s.Sound
  nonempty : L = .leveling → ∀ i < s.levels.length, (s.levelAt i).live ≠ []

theorem levels_getElem? {s : ExtensionStructure T L} {i : Nat} (hi : i < s.levels.length) :
    s.levels[i]? = some (s.levelAt i) := by
  rw [levelAt, List.getElem?_eq_getElem hi]
  rfl

theorem clone_eq {l : InternalLevel T} (h : l.pendingShard = none) : l.clone = l := by
  conv_rhs => rw [l.eq_ofSlots, h]
  rfl

theorem copy_eq {s : ExtensionStructure T L} (hs : ∀ i, (s.levelAt i).pendingShard = none) :
    s.copy = s := by
  have hlevels : s.levels.map InternalLevel.clone = s.levels := by
    conv_rhs => rw [← List.map_id s.levels]
    apply List.map_congr_left
    intro l hl
    obtain ⟨i, hi, rfl⟩ := List.getElem_of_mem hl
    have := hs i
    rw [levelAt, List.getElem?_eq_getElem hi] at this
    exact clone_eq this
  rw [copy, hlevels]

theorem canReconstructWith_iff {s : ExtensionStructure T L} (hs : s.Real) (i n : Nat) :
    canReconstructWith L i n s.currentState = true ↔ i < s.levels.length ∧
      match L with
      | .leveling => (s.levelAt i).getRecordCount + n ≤ s.calcLevelRecordCapacity i
      | .bsm => (s.levelAt i).getRecordCount = 0
      | .teiring => (s.levelAt i).live.length < s.shardCapacity := by
  by_cases hi : i < s.levels.length
  · have hst : s.currentState[i]? = some (s.stateOf i (s.levelAt i)) := by
      rw [hs i, levels_getElem? hi]
      rfl
    have hcnt : (s.levelAt i).getShardCount = (s.levelAt i).live.length :=
      (s.levelAt i).length_live.symm
    cases L <;>
      simp only [canReconstructWith, hst, stateOf, hcnt, decide_eq_true_eq, hi, true_and]
  · have hst : s.currentState[i]? = none := by
      rw [List.getElem?_eq_none]
      rw [length_state hs]
      omega
    simp [canReconstructWith, hst, hi]

theorem live_ne_nil {l : InternalLevel T} (h : l.getRecordCount ≠ 0) : l.live ≠ [] := by
  intro hnil
  simp [InternalLevel.getRecordCount_eq, hnil] at h

theorem planTarget_le {s : ExtensionStructure T L} (hs : s.Sound) (hwm : Nat) :
    s.planTarget hwm ≤ s.levels.length := by
  unfold planTarget
  split
  · exact Nat.zero_le _
  · cases h : findReconstructionTarget L 0 s.currentState with
    | none => exact le_rfl
    | some i =>
      have := (findReconstructionTarget_some h).2.1
      rw [length_state hs.real] at this
      exact this.le

theorem planTarget_fits (h : L ≠ .bsm) {s : ExtensionStructure T L} (hs : s.Settled) (hwm : Nat)
    {i : Nat} (hi : s.planTarget hwm = i + 1) : Fits L (s.levelAt (i + 1)) (s.levelAt i) := by
  have hle := planTarget_le hs.sound hwm
  rw [hi] at hle
  have hlen := length_state hs.sound.real
  -- a base level that is there already has room
  have hbase : i + 1 < s.levels.length → canReconstructWith L (i + 1)
      (reccntAt s.currentState 0) s.currentState := by
    unfold planTarget at hi
    split at hi
    · omega
    · cases hfind : findReconstructionTarget L 0 s.currentState with
      | none =>
        rw [hfind, Option.getD_none] at hi
        exact fun hlt => absurd hlt (by omega)
      | some b =>
        obtain rfl : b = i + 1 := by rw [hfind] at hi; exact hi
        exact fun _ => (findReconstructionTarget_some hfind).2.2.1
  cases L with
  | leveling => exact .inr (hs.nonempty rfl i (by omega))
  | teiring =>
    have hslots := hs.sound.slots (i + 1)
    have hscale := hs.sound.scale rfl (by rintro h; simp [h] at hle)
    by_cases hlt : i + 1 < s.levels.length
    · have hcan := hbase hlt
      rw [canReconstructWith_iff hs.sound.real] at hcan
      have : (s.levelAt (i + 1)).live.length < s.shardCapacity := hcan.2
      show (s.levelAt (i + 1)).free ≠ 0
      omega
    · show (s.levelAt (i + 1)).free ≠ 0
      rw [levelAt, List.getElem?_eq_none (by omega)]
      simp only [Option.getD_none, InternalLevel.free_new, shardCapacity]
      omega
  | bsm => exact absurd rfl h

/-- The capacity of level 0, which only LEVELING looks at, is enough for so many records. -/
def HasCapacity (s : ExtensionStructure T L) (n : Nat) : Prop :=
  L = .leveling → n ≤ s.calcLevelRecordCapacity 0

instance (s : ExtensionStructure T L) (n : Nat) : Decidable (s.HasCapacity n) :=
  inferInstanceAs (Decidable (L = .leveling → n ≤ s.calcLevelRecordCapacity 0))

theorem hasCapacity_congr {s s' : ExtensionStructure T L} (h₁ : s'.scaleFactor = s.scaleFactor)
    (h₂ : s'.bufferSize = s.bufferSize) (n : Nat) : s'.HasCapacity n ↔ s.HasCapacity n := by
  rw [HasCapacity, HasCapacity, calcLevelRecordCapacity_congr h₁ h₂]

theorem room_new_iff (h : L ≠ .bsm) {s : ExtensionStructure T L} (hpos : 0 < s.scaleFactor)
    (h0 : s.levelAt 0 = InternalLevel.new T 0 s.shardCapacity) (n : Nat) :
    s.Room n ↔ s.HasCapacity n := by
  cases L with
  | leveling => simp [Room, HasCapacity, h0, InternalLevel.getRecordCount_eq]
  | teiring => simp [Room, HasCapacity, h0, shardCapacity, hpos.ne']
  | bsm => exact absurd rfl h
theorem room_of_planTarget (h : L ≠ .bsm) {s : ExtensionStructure T L} (hs : s.Sound)
    (hpos : 0 < s.scaleFactor) {n hwm : Nat} (hn : n ≤ hwm) (hcap : s.HasCapacity n)
    (h0 : s.planTarget hwm = 0) : s.Room n := by
  unfold planTarget at h0
  split at h0
  · rename_i hcan
    rw [canReconstructWith_iff hs.real] at hcan
    have hslots := hs.slots 0
    cases L with
    | leveling => exact (Nat.add_le_add_left hn _).trans hcan.2
    | teiring =>
      have : (s.levelAt 0).live.length < s.shardCapacity := hcan.2
      show (s.levelAt 0).free ≠ 0
      omega
    | bsm => exact absurd rfl h
  · have hnil : s.levels.length = 0 := by
      cases hfind : findReconstructionTarget L 0 s.currentState with
      | none =>
        rw [hfind] at h0
        exact h0
      | some i =>
        have := (findReconstructionTarget_some hfind).1
        rw [hfind] at h0
        exact absurd h0 (by simp; omega)
    refine (room_new_iff h hpos ?_ n).mpr hcap
    rw [levelAt, List.getElem?_eq_none (by omega)]
    rfl

/-- The shard lists that a round hands to the merging constructor -/
def roundMerges (s : ExtensionStructure T L) (hwm : Nat) (v : BufferView R) :
    List (List T.Shard) :=
  s.downMerges (s.planTarget hwm) ++ if s.planTarget hwm = 0 then s.flushMerges v else []

theorem reconstructTasks_round (h : L ≠ .bsm) {s : ExtensionStructure T L} (hs : s.Sound)
    (hwm : Nat) : s.copy.reconstructTasks (s.roundTasks hwm) = runDown (s.planTarget hwm) s := by
  rw [copy_eq hs.noPending, reconstructTasks_eq h _ _ _ (roundTasks_shapes s hwm h)]

/-- What a structure becomes in a round that flushes a view -/
structure Advanced (s : ExtensionStructure T L) (v : BufferView R)
    (s' : ExtensionStructure T L) : Prop where
  settled : s'.Settled
  regroup : Regroup T (s.shards + {T.ofBuffer v}) s'.shards
  scaleFactor : s'.scaleFactor = s.scaleFactor
  bufferSize : s'.bufferSize = s.bufferSize

theorem net_regroup {s s' : ExtensionStructure T L} {v : BufferView R}
    (h : Regroup T (s.shards + {T.ofBuffer v}) s'.shards) :
    s'.net = s.net + De.net v.records := by
  rw [net_eq, net_eq, h.net]
  simp [T.ofBuffer_net]

/-- The cascade leaves no level empty but level 0: each step fills the level that the
one before it emptied. -/
theorem nonempty_runDown (h : L ≠ .bsm) (b : Nat) {s s' : ExtensionStructure T L} (hs : s.Sound)
    (hb : b ≤ s.levels.length)
    (hfits : ∀ i, b = i + 1 → Fits L (s.levelAt (i + 1)) (s.levelAt i))
    (hne : ∀ j < s.levels.length, j ≠ b → (s.levelAt j).live ≠ []) (hrun : runDown b s = some s') :
    ∀ j < s'.levels.length, j ≠ 0 → (s'.levelAt j).live ≠ [] := by
  induction b generalizing s with
  | zero => exact Option.some.inj hrun ▸ hne
  | succ i ih =>
    obtain ⟨s₁, hs₁, hrest⟩ := Option.bind_eq_some_iff.mp hrun
    have hstep := (reconstruction_spec h hs hb (hfits i rfl)).1 s₁ hs₁
    rw [reconstruction_eq_place hb] at hs₁
    obtain ⟨l, hl, rfl⟩ := Option.map_eq_some_iff.mp hs₁
    have hlen : (s.place i l).levels.length = max s.levels.length (i + 2) := length_place hb
    refine ih hstep.rearranged.sound hstep.below.le hstep.fits (fun j hj hji => ?_) hrest
    rw [levelAt_place hb, if_neg hji]
    split
    · have hlast := ((combine_spec h hs (hfits i rfl)).1 l hl).length (hne i hb (by omega))
      refine List.ne_nil_of_length_pos ?_
      rw [hlast]
      split
      · omega
      · rename_i hbase
        exact List.length_pos_iff.mpr fun hnil => hbase (.inr hnil)
    · exact hne j (by omega) (by omega)

theorem flushBuffer_spec (h : L ≠ .bsm) {s s' : ExtensionStructure T L} (hs : s.Sound)
    (hne : L = .leveling → ∀ i < s.levels.length, i ≠ 0 → (s.levelAt i).live ≠ [])
    {v : BufferView R} (hrun : s.flushBuffer v = some s') : Advanced s v s' := by
  obtain ⟨hroom, l, hl, rfl⟩ := flushBuffer_cases h hs hrun
  have hf := (flushLevel_spec h hs hroom v).1 l hl
  have hpos : L = .teiring → 0 < s.scaleFactor := by
    rintro rfl
    have hfree : (s.levelAt 0).free ≠ 0 := hroom
    have hslots : (s.levelAt 0).live.length + (s.levelAt 0).free = s.scaleFactor := hs.slots 0
    omega
  refine ⟨⟨sound_placeFirst hs hpos hf, fun hL i hi => ?_⟩, regroup_placeFirst hf.regroup,
    scaleFactor_placeFirst, bufferSize_placeFirst⟩
  rw [levelAt_placeFirst]
  split
  · exact hf.nonempty
  · rename_i hi0
    refine hne hL i ?_ hi0
    rw [length_placeFirst] at hi
    omega

theorem round_spec (h : L ≠ .bsm) {s s' : ExtensionStructure T L} (hs : s.Settled) {hwm : Nat}
    {v : BufferView R} (hrun : s.round hwm v = some s') : Advanced s v s' := by
  obtain ⟨s₁, hs₁, hflush⟩ := Option.bind_eq_some_iff.mp hrun
  have hdown := hs₁
  rw [reconstructTasks_round h hs.sound] at hdown
  rw [copy_eq hs.sound.noPending] at hs₁
  obtain ⟨c, -, -, hd⟩ := runDown_append_spec h hs.sound (planTarget_le hs.sound hwm)
    (fun i hi => planTarget_fits h hs hwm hi)
    (by rw [List.append_nil]; exact roundTasks_shapes s hwm h) hs₁
  have hne : L = .leveling → ∀ i < s₁.levels.length, i ≠ 0 → (s₁.levelAt i).live ≠ [] := by
    intro hL
    exact nonempty_runDown h _ hs.sound (planTarget_le hs.sound hwm)
      (fun i hi => planTarget_fits h hs hwm hi) (fun i hi _ => hs.nonempty hL i hi) hdown
  have ha := flushBuffer_spec h hd.rearranged.sound hne hflush
  exact ⟨ha.settled, (hd.rearranged.regroup.add_right _).trans ha.regroup,
    ha.scaleFactor.trans hd.rearranged.scaleFactor, ha.bufferSize.trans hd.rearranged.bufferSize⟩

/-- The planned tasks leave the structure as it was, or with an empty level 0. -/
theorem planned_spec (h : L ≠ .bsm) {s s₁ : ExtensionStructure T L} (hs : s.Settled) {hwm : Nat}
    (hrun : s.reconstructTasks (s.roundTasks hwm) = some s₁) : Rearranged s s₁ ∧
      if s.planTarget hwm = 0 then s₁ = s
      else s₁.levelAt 0 = InternalLevel.new T 0 s₁.shardCapacity := by
  obtain ⟨c, -, hrest, hd⟩ := runDown_append_spec h hs.sound (planTarget_le hs.sound hwm)
    (fun i hi => planTarget_fits h hs hwm hi)
    (by rw [List.append_nil]; exact roundTasks_shapes s hwm h) hrun
  obtain rfl : c = 0 := by
    cases c with
    | zero => rfl
    | succ c => simp [downShapes_succ] at hrest
  refine ⟨hd.rearranged, ?_⟩
  split
  · rename_i h0
    exact hd.unchanged h0
  · rename_i h0
    rw [hd.first rfl, if_neg h0, shardCapacity_congr hd.rearranged.scaleFactor]

/-- After the planned tasks level 0 takes a buffer within the high watermark exactly
if its capacity is enough for it. -/
theorem room_planned_iff (h : L ≠ .bsm) {s s₁ : ExtensionStructure T L} (hs : s.Settled)
    (hpos : 0 < s.scaleFactor) {hwm n : Nat} (hn : n ≤ hwm)
    (hrun : s.reconstructTasks (s.roundTasks hwm) = some s₁) : s₁.Room n ↔ s.HasCapacity n := by
  obtain ⟨hr, hcase⟩ := planned_spec h hs hrun
  split at hcase
  · rename_i h0
    subst hcase
    refine ⟨fun hroom hL => ?_, fun hcap => room_of_planTarget h hs.sound hpos hn hcap h0⟩
    subst hL
    exact (Nat.le_add_left _ _).trans hroom
  · rw [room_new_iff h (by rwa [hr.scaleFactor]) hcase,
      hasCapacity_congr hr.scaleFactor hr.bufferSize]

theorem round_isSome (h : L ≠ .bsm) {s : ExtensionStructure T L} (hs : s.Settled)
    (hpos : 0 < s.scaleFactor) {hwm : Nat} {v : BufferView R}
    (hv : v.getRecordCount ≤ hwm) (hcap : s.HasCapacity v.getRecordCount)
    (hm : ∀ xs ∈ s.roundMerges hwm v, (T.ofShards xs).isSome) :
    (s.round hwm v).isSome := by
  obtain ⟨s₁, hs₁⟩ := Option.isSome_iff_exists.mp <|
    runDown_isSome h (s.planTarget hwm) hs.sound (planTarget_le hs.sound hwm)
      (fun i hi => planTarget_fits h hs hwm hi) fun xs hxs => hm xs (List.mem_append_left _ hxs)
  have hdone : s.reconstructTasks (s.roundTasks hwm) = some s₁ := by
    rw [reconstructTasks_eq h _ _ _ (roundTasks_shapes s hwm h), hs₁]
  have hround : s.round hwm v = s₁.flushBuffer v := by
    rw [round, reconstructTasks_round h hs.sound, hs₁]
    rfl
  obtain ⟨hr, hcase⟩ := planned_spec h hs hdone
  have hroom := (room_planned_iff h hs hpos hv hdone).mpr hcap
  rw [hround, (flushBuffer_eq h hr.sound v).2 hroom, Option.isSome_map]
  refine (flushLevel_spec h hr.sound hroom v).2 fun xs hxs => ?_
  split at hcase
  · rename_i h0
    subst hcase
    refine hm xs ?_
    rw [roundMerges, if_pos h0]
    exact List.mem_append_right _ hxs
  · simp [flushMerges, hcase] at hxs

/-- The structures of all runs: rounds from the empty structure, each of them
flushing a view of at most `hwm` records -/
inductive Reachable (T : ShardType R) (L : LayoutPolicy) (hwm scale : Nat) :
    ExtensionStructure T L → Prop
  | new : Reachable T L hwm scale (new T L hwm scale)
  | round {s s' : ExtensionStructure T L} {v : BufferView R} (hs : Reachable T L hwm scale s)
      (hv : v.getRecordCount ≤ hwm) (hrun : s.round hwm v = some s') : Reachable T L hwm scale s'

theorem Reachable.rounds {hwm scale : Nat} {vs : List (BufferView R)}
    {s s' : ExtensionStructure T L} (hs : Reachable T L hwm scale s)
    (hv : ∀ v ∈ vs, v.getRecordCount ≤ hwm) (hrun : s.rounds hwm vs = some s') :
    Reachable T L hwm scale s' := by
  induction vs generalizing s with
  | nil => exact Option.some.inj hrun ▸ hs
  | cons v vs ih =>
    obtain ⟨s₁, hs₁, hrest⟩ := Option.bind_eq_some_iff.mp hrun
    exact ih (hs.round (hv v List.mem_cons_self) hs₁)
      (fun w hw => hv w (List.mem_cons_of_mem _ hw)) hrest

theorem settled_new (T : ShardType R) (L : LayoutPolicy) (hwm scale : Nat) :
    (new T L hwm scale).Settled where
  sound :=
    { real := fun i => by simp [new]
      slots := fun i => by simp [new, levelAt]
      noPending := fun i => rfl
      ordered := fun _ i j _ hi => by simp [new, levelAt] at hi
      scale := fun _ h => absurd rfl h }
  nonempty _ i hi := absurd hi (Nat.not_lt_zero i)

theorem Reachable.settled (h : L ≠ .bsm) {hwm scale : Nat} {s : ExtensionStructure T L}
    (hs : Reachable T L hwm scale s) :
    s.Settled ∧ s.scaleFactor = scale ∧ s.bufferSize = hwm := by
  induction hs with
  | new => exact ⟨settled_new T L hwm scale, rfl, rfl⟩
  | round _ _ hrun ih =>
    have ha := round_spec h ih.1 hrun
    exact ⟨ha.settled, ha.scaleFactor.trans ih.2.1, ha.bufferSize.trans ih.2.2⟩

/-- The reconstruction for this task appends a shard to a level without a free
slot, the branch of `append_level` that makes it pending. -/
def taskPends (s : ExtensionStructure T L) (task : ReconstructionTask) : Prop :=
  L ≠ .leveling ∧ ∃ source base incoming, task.sources[0]? = some source ∧
    (s.ensure task.target).levels[task.target]? = some base ∧
    (s.ensure task.target).levels[source]? = some incoming ∧
    incoming.shardCnt ≠ 0 ∧ base.shardCnt = base.shards.length

/-- The flush appends its shard to a level without a free slot. -/
def flushPends (s : ExtensionStructure T L) : Prop :=
  if L = .leveling then
    (InternalLevel.new T 0 1).shardCnt = (InternalLevel.new T 0 1).shards.length
  else
    ∃ l, (s.ensure 0).levels[0]? = some l ∧ l.shardCnt = l.shards.length

theorem not_taskPends (h : L ≠ .bsm) {s : ExtensionStructure T L} {i : Nat}
    (hi : i < s.levels.length) (hfits : Fits L (s.levelAt (i + 1)) (s.levelAt i))
    {t : ReconstructionTask} (ht : t.shape = ([i], i + 1)) : ¬ s.taskPends t := by
  rintro ⟨hl, source, base, incoming, -, hb, -, -, hfull⟩
  obtain ⟨-, htarget⟩ := Prod.mk.inj ht
  rw [htarget, s.levels_ensure (i + 1) hi, Option.some.injEq] at hb
  subst hb
  rw [InternalLevel.full_iff] at hfull
  cases L with
  | leveling => exact hl rfl
  | teiring => exact hfits hfull
  | bsm => exact h rfl

theorem not_flushPends (h : L ≠ .bsm) {s : ExtensionStructure T L} {n : Nat} (hroom : s.Room n) :
    ¬ s.flushPends := by
  cases L with
  | leveling => simp [flushPends, InternalLevel.full_iff]
  | teiring =>
    rw [flushPends, if_neg (by decide)]
    rintro ⟨l, hl, hfull⟩
    rw [s.levels_ensure 0 (Nat.zero_le _), Option.some.injEq] at hl
    subst hl
    rw [InternalLevel.full_iff] at hfull
    exact hroom hfull
  | bsm => exact absurd rfl h

/-- A round adds the flushed view to the signed multiset. On the way no shard is
left pending and the state vector stays real, and where merges are defined and the
capacity of level 0 is enough for the view the round completes. -/
theorem round_conserves (h : L ≠ .bsm) {hwm scale : Nat} {s : ExtensionStructure T L}
    (hs : Reachable T L hwm scale s) {v : BufferView R} (hv : v.getRecordCount ≤ hwm) :
    (∀ s', s.round hwm v = some s' → s'.net = s.net + De.net v.records ∧ s'.Real) ∧
    (∀ done rest s₁, s.roundTasks hwm = done ++ rest →
      s.copy.reconstructTasks done = some s₁ → s₁.Real ∧
        (∀ t ts, rest = t :: ts → ¬ s₁.taskPends t) ∧
        (rest = [] → (s₁.flushBuffer v).isSome → ¬ s₁.flushPends)) ∧
    (T.Total → 0 < scale → s.HasCapacity v.getRecordCount → (s.round hwm v).isSome) := by
  obtain ⟨hset, hscale, -⟩ := hs.settled h
  refine ⟨fun s' hrun => ?_, fun done rest s₁ htasks hdone => ?_, fun htotal hpos hcap => ?_⟩
  · have ha := round_spec h hset hrun
    exact ⟨net_regroup ha.regroup, ha.settled.sound.real⟩
  · rw [copy_eq hset.sound.noPending] at hdone
    obtain ⟨c, -, hrest, hd⟩ := runDown_append_spec h hset.sound (planTarget_le hset.sound hwm)
      (fun i hi => planTarget_fits h hset hwm hi)
      (by rw [← htasks]; exact roundTasks_shapes s hwm h) hdone
    refine ⟨hd.rearranged.sound.real, ?_, ?_⟩
    · rintro t ts rfl
      cases c with
      | zero => simp [downShapes] at hrest
      | succ i =>
        rw [downShapes_succ, List.map_cons, List.cons.injEq] at hrest
        exact not_taskPends h hd.below (hd.fits i rfl) hrest.1
    · intro _ hflush
      obtain ⟨s', hs'⟩ := Option.isSome_iff_exists.mp hflush
      exact not_flushPends h (flushBuffer_cases h hd.rearranged.sound hs').1
  · exact round_isSome h hset (by omega) hv hcap fun xs _ => htotal xs

/-- A view of the listed keys, tombstones where the flag is set -/
def sampleView (l : List (Nat × Bool)) : BufferView Nat :=
  BufferView.ofList (l.map fun c => Wrapped.fresh c.1 c.2)

theorem round_conserves_sample :
    ∃ s : ExtensionStructure (ShardType.lists Nat) .teiring,
      (new _ .teiring 1 2).rounds 1 [sampleView [(1, false)], sampleView [(2, false)]] = some s ∧
      (s.round 1 (sampleView [(1, true)])).isSome := by
  have h : ((new (ShardType.lists Nat) .teiring 1 2).rounds 1
      [sampleView [(1, false)], sampleView [(2, false)]]).isSome := by decide
  obtain ⟨s, hs⟩ := Option.isSome_iff_exists.mp h
  have hreach : Reachable (ShardType.lists Nat) .teiring 1 2 s :=
    Reachable.new.rounds (by decide) hs
  exact ⟨s, hs, (round_conserves (by decide) hreach (by decide)).2.2
    (ShardType.total_lists Nat) (by decide) nofun⟩

end ExtensionStructure

end De
