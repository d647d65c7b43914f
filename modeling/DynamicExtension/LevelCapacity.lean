import DynamicExtension.PlannerAgreement
set_option autoImplicit false

namespace De
open Rounding
variable {R : Type} [DecidableEq R] {T : ShardType R} {L : LayoutPolicy}

namespace ExtensionStructure

theorem countAt_new (i n c : Nat) : (InternalLevel.new T n c).getRecordCount ≤ i := by
  simp [InternalLevel.getRecordCount_eq]

section Leveling

/-- The capacity of a level as the product that the source writes -/
def levelBound (s : ExtensionStructure T L) (i : Nat) : Nat :=
  s.bufferSize * s.scaleFactor ^ (i + 1)

theorem levelBound_congr {s s' : ExtensionStructure T L} (h₁ : s'.scaleFactor = s.scaleFactor)
    (h₂ : s'.bufferSize = s.bufferSize) : s'.levelBound = s.levelBound := by
  funext i
  rw [levelBound, levelBound, h₁, h₂]

theorem levelBound_mono (s : ExtensionStructure T L) {i j : Nat} (hij : i ≤ j) :
    s.levelBound i ≤ s.levelBound j := by
  apply Nat.mul_le_mul_left
  rcases Nat.eq_zero_or_pos s.scaleFactor with h | h
  · simp [h]
  · exact Nat.pow_le_pow_right h (by omega)

/-- Doubles and `size_t` give a product below `2 ^ 53` as it is. -/
theorem calcLevelRecordCapacity_eq {s : ExtensionStructure T L} {i : Nat}
    (h : s.levelBound i < 2 ^ 53) : s.calcLevelRecordCapacity i = s.levelBound i := by
  rw [levelBound] at h
  rw [calcLevelRecordCapacity, levelBound]
  rcases Nat.eq_zero_or_pos s.bufferSize with hb | hb
  · simp [hb]
  rcases Nat.eq_zero_or_pos s.scaleFactor with hs | hs
  · simp [hs]
  have hpow : s.scaleFactor ^ (i + 1) < 2 ^ 53 := (Nat.le_mul_of_pos_left _ hb).trans_lt h
  have hscale : s.scaleFactor < 2 ^ 53 := (Nat.le_self_pow (Nat.succ_ne_zero i) _).trans_lt hpow
  have hsize : s.bufferSize < 2 ^ 53 := (Nat.le_mul_of_pos_right _ (by positivity)).trans_lt h
  simp only [roundBits_of_lt hscale, roundBits_of_lt hpow, roundBits_of_lt hsize,
    roundBits_of_lt h]
  rw [if_pos (by omega)]

def WithinCapacity (s : ExtensionStructure T L) : Prop :=
  ∀ i, (s.levelAt i).getRecordCount ≤ s.levelBound i

/-- The base level has room for what arrives from the level above it; the levels
above only move down, and each of them fits one level lower. -/
theorem WithinCapacity.runDown (h : L ≠ .bsm) (b : Nat) {s s' : ExtensionStructure T L}
    (hcap : s.WithinCapacity) (hs : s.Sound) (hb : b ≤ s.levels.length)
    (hfits : ∀ i, b = i + 1 → Fits L (s.levelAt (i + 1)) (s.levelAt i))
    (hroom : ∀ i, b = i + 1 → (s.levelAt (i + 1)).getRecordCount +
      (s.levelAt i).getRecordCount ≤ s.levelBound (i + 1))
    (hrun : runDown b s = some s') :
    s'.WithinCapacity ∧ s'.levels.length ≤ max s.levels.length (b + 1) := by
  induction b generalizing s with
  | zero =>
    obtain rfl := Option.some.inj hrun
    exact ⟨hcap, le_max_left _ _⟩
  | succ i ih =>
    obtain ⟨s₁, hs₁, hrest⟩ := Option.bind_eq_some_iff.mp hrun
    have hstep := (reconstruction_spec h hs hb (hfits i rfl)).1 s₁ hs₁
    rw [reconstruction_eq_place hb] at hs₁
    obtain ⟨l, hl, rfl⟩ := Option.map_eq_some_iff.mp hs₁
    have hcount := count_regroup ((combine_spec h hs (hfits i rfl)).1 l hl).regroup
    rw [← InternalLevel.getRecordCount_eq, ← InternalLevel.getRecordCount_eq] at hcount
    have hroom := hroom i rfl
    have hbound := levelBound_congr (s := s) (scaleFactor_place (i := i) (l := l))
      bufferSize_place
    have hlen : (s.place i l).levels.length = max s.levels.length (i + 2) := length_place hb
    have hcap₁ : (s.place i l).WithinCapacity := by
      intro j
      rw [levelAt_place hb, hbound]
      split
      · exact countAt_new ..
      · split
        · rename_i hj
          rw [hj]
          omega
        · exact hcap j
    obtain ⟨hcap', hlen'⟩ := ih hcap₁ hstep.rearranged.sound hstep.below.le hstep.fits
      (fun j hj => by
        have hempty := countAt_new (T := T) 0 i s.shardCapacity
        have habove := hcap₁ j
        have hmono := (s.place i l).levelBound_mono (Nat.le_add_right j 1)
        rw [← hj, levelAt_place hb, if_pos rfl]
        rw [← hj] at hmono
        omega) hrest
    exact ⟨hcap', by omega⟩

variable {s : ExtensionStructure T .leveling}

/-- The capacities of the levels down to the base level that the planner chooses are computed
exactly, and the base level has room for the records of the level right above it, which are
the ones that arrive there. -/
structure BaseFits (s : ExtensionStructure T .leveling) (hwm : Nat) : Prop where
  exact : ∀ i ≤ s.planTarget hwm, s.calcLevelRecordCapacity i = s.levelBound i
  room : s.planTarget hwm ≠ 0 → (s.levelAt (s.planTarget hwm)).getRecordCount +
    (s.levelAt (s.planTarget hwm - 1)).getRecordCount ≤
      s.calcLevelRecordCapacity (s.planTarget hwm)

theorem baseFits_iff (s : ExtensionStructure T .leveling) (hwm : Nat) : s.BaseFits hwm ↔
    (∀ i ≤ s.planTarget hwm, s.calcLevelRecordCapacity i = s.levelBound i) ∧
      (s.planTarget hwm ≠ 0 → (s.levelAt (s.planTarget hwm)).getRecordCount +
        (s.levelAt (s.planTarget hwm - 1)).getRecordCount ≤
          s.calcLevelRecordCapacity (s.planTarget hwm)) :=
  ⟨fun h => ⟨h.exact, h.room⟩, fun h => ⟨h.1, h.2⟩⟩

instance (s : ExtensionStructure T .leveling) (hwm : Nat) : Decidable (s.BaseFits hwm) :=
  decidable_of_iff _ (s.baseFits_iff hwm).symm

theorem WithinCapacity.flushBuffer {s' : ExtensionStructure T .leveling} (hcap : s.WithinCapacity)
    (hs : s.Sound) (hexact : s.calcLevelRecordCapacity 0 = s.levelBound 0) {v : BufferView R}
    (hrun : s.flushBuffer v = some s') :
    s'.WithinCapacity ∧ s'.levels.length = max s.levels.length 1 := by
  obtain ⟨hroom, l, hl, rfl⟩ := flushBuffer_cases (by decide) hs hrun
  have hcount := ((flushLevel_spec (by decide) hs hroom v).1 l hl).count
  refine ⟨fun j => ?_, length_placeFirst⟩
  rw [levelAt_placeFirst,
    levelBound_congr (s := s) scaleFactor_placeFirst bufferSize_placeFirst]
  split
  · rename_i hj
    rw [hj, ← hexact]
    exact hcount.trans hroom
  · exact hcap j

theorem WithinCapacity.round {s' : ExtensionStructure T .leveling} {hwm : Nat}
    (hcap : s.WithinCapacity) (hs : s.Settled) (hfit : s.BaseFits hwm) {v : BufferView R}
    (hrun : s.round hwm v = some s') :
    s'.WithinCapacity ∧ s'.levels.length ≤ max s.levels.length (s.planTarget hwm + 1) := by
  obtain ⟨s₁, hs₁, hflush⟩ := Option.bind_eq_some_iff.mp hrun
  have hdown := hs₁
  rw [reconstructTasks_round (by decide) hs.sound] at hdown
  rw [copy_eq hs.sound.noPending] at hs₁
  have hre := (planned_spec (by decide) hs hs₁).1
  obtain ⟨hcap₁, hlen₁⟩ := hcap.runDown (by decide) _ hs.sound (planTarget_le hs.sound hwm)
    (fun i hi => planTarget_fits (by decide) hs hwm hi)
    (fun i hi => by
      have hroom := hfit.room (by omega)
      rwa [hfit.exact _ le_rfl, hi, Nat.add_sub_cancel] at hroom) hdown
  obtain ⟨hcap', hlen'⟩ := hcap₁.flushBuffer hre.sound (by
    rw [calcLevelRecordCapacity_congr hre.scaleFactor hre.bufferSize,
      levelBound_congr hre.scaleFactor hre.bufferSize]
    exact hfit.exact 0 (Nat.zero_le _)) hflush
  exact ⟨hcap', by omega⟩

/-- The runs of LEVELING rounds in each of which the base level fits -/
inductive FittingRun (T : ShardType R) (hwm scale : Nat) : ExtensionStructure T .leveling → Prop
  | new : FittingRun T hwm scale (new T .leveling hwm scale)
  | round {s s' : ExtensionStructure T .leveling} {v : BufferView R} (hs : FittingRun T hwm scale s)
      (hfit : s.BaseFits hwm) (hv : v.getRecordCount ≤ hwm) (hrun : s.round hwm v = some s') :
      FittingRun T hwm scale s'

theorem FittingRun.reachable {hwm scale : Nat} (hs : FittingRun T hwm scale s) :
    Reachable T .leveling hwm scale s := by
  induction hs with
  | new => exact .new
  | round _ _ hv hrun ih => exact ih.round hv hrun

theorem FittingRun.withinCapacity {hwm scale : Nat} (hs : FittingRun T hwm scale s) :
    s.WithinCapacity ∧
      ∀ i < s.levels.length, s.calcLevelRecordCapacity i = hwm * scale ^ (i + 1) := by
  induction hs with
  | new => exact ⟨fun i => countAt_new .., fun i hi => absurd hi (Nat.not_lt_zero i)⟩
  | @round s s' v hs hfit _ hrun ih =>
    obtain ⟨hset, hscale, hsize⟩ := hs.reachable.settled (by decide)
    obtain ⟨hcap, hlen⟩ := ih.1.round hset hfit hrun
    have ha := round_spec (by decide) hset hrun
    refine ⟨hcap, fun i hi => ?_⟩
    rw [calcLevelRecordCapacity_congr ha.scaleFactor ha.bufferSize]
    by_cases hlt : i < s.levels.length
    · exact ih.2 i hlt
    · rw [hfit.exact i (by omega), levelBound, hscale, hsize]

/-- In a run in which every base level had room for the level above it, no level exceeds
its capacity, which is the product of the buffer size and a power of the scale factor. -/
theorem leveling_capacity {hwm scale : Nat} (hs : FittingRun T hwm scale s) (i : Nat) :
    s.recordCountAt i ≤ hwm * scale ^ (i + 1) ∧
      (i < s.levels.length → s.calcLevelRecordCapacity i = hwm * scale ^ (i + 1)) := by
  obtain ⟨-, hscale, hsize⟩ := hs.reachable.settled (by decide)
  obtain ⟨hcap, hexact⟩ := hs.withinCapacity
  have hle := hcap i
  rw [levelBound, hscale, hsize, ← (s.countAt_eq i).2] at hle
  exact ⟨hle, hexact i⟩

/-- The third round moves level 0, which is full, into level 1. -/
theorem leveling_capacity_sample :
    ∃ s₂ s : ExtensionStructure (ShardType.lists Nat) .leveling,
      (new _ .leveling 1 2).rounds 1 [sampleView [(1, false)], sampleView [(2, false)]] =
        some s₂ ∧ s₂.planTarget 1 = 1 ∧ s₂.round 1 (sampleView [(3, false)]) = some s ∧
      s.recordCountAt 0 = 1 ∧ s.recordCountAt 1 = 2 ∧ s.recordCountAt 1 ≤ 1 * 2 ^ (1 + 1) := by
  have h : ((new (ShardType.lists Nat) .leveling 1 2).round 1 (sampleView [(1, false)])).bind
      (fun s₁ => (s₁.round 1 (sampleView [(2, false)])).bind fun s₂ =>
        (s₂.round 1 (sampleView [(3, false)])).map fun s =>
          decide (s₁.BaseFits 1 ∧ s₂.BaseFits 1 ∧ s₂.planTarget 1 = 1 ∧
            s.recordCountAt 0 = 1 ∧ s.recordCountAt 1 = 2)) = some true := by decide +kernel
  obtain ⟨s₁, hs₁, h⟩ := Option.bind_eq_some_iff.mp h
  obtain ⟨s₂, hs₂, h⟩ := Option.bind_eq_some_iff.mp h
  obtain ⟨s, hs, h⟩ := Option.map_eq_some_iff.mp h
  obtain ⟨hfit₁, hfit₂, hbase, h0, h1⟩ := of_decide_eq_true h
  have hrun₁ : FittingRun (ShardType.lists Nat) 1 2 s₁ := .round .new (by decide) (by decide) hs₁
  have hrun₂ := hrun₁.round hfit₁ (by decide) hs₂
  refine ⟨s₂, s, ?_, hbase, hs, h0, h1, (leveling_capacity (hrun₂.round hfit₂ (by decide) hs) 1).1⟩
  simp [rounds, hs₁, hs₂]

/-- Level 2 is chosen because it has room for level 0; what arrives there is level 1. -/
theorem not_leveling_capacity :
    ∃ s : ExtensionStructure (ISAMTree.shardType NodeLayout.words (StdLib.sorted (Record Nat Nat)))
        .leveling,
      Reachable _ .leveling 2 2 s ∧ ¬ s.recordCountAt 2 ≤ 2 * 2 ^ (2 + 1) := by
  set T := ISAMTree.shardType NodeLayout.words (StdLib.sorted (Record Nat Nat))
  set one : Nat → BufferView (Record Nat Nat) := fun k =>
    BufferView.ofList [Wrapped.fresh ⟨k, 1⟩ false]
  set two : Nat → BufferView (Record Nat Nat) := fun k =>
    BufferView.ofList [Wrapped.fresh ⟨k, 1⟩ false, Wrapped.fresh ⟨k, 2⟩ false]
  set vs := [one 0, two 1, one 2, two 3, one 4, two 5, one 6, two 7, one 8, two 9, one 10, two 11,
    one 12, two 13, one 14]
  have hrun : ((new T .leveling 2 2).rounds 2 vs).map (fun s => s.recordCountAt 2) = some 18 := by
    decide +kernel
  obtain ⟨s, hs, hcount⟩ := Option.map_eq_some_iff.mp hrun
  have hviews : ∀ v ∈ vs, v.getRecordCount ≤ 2 := by decide
  refine ⟨s, Reachable.new.rounds hviews hs, ?_⟩
  rw [hcount]
  decide

end Leveling

section Teiring
variable {s : ExtensionStructure T .teiring}

/-- No shard of a level exceeds the capacity of one buffer merged down to it. -/
def ShardsWithin (s : ExtensionStructure T .teiring) : Prop :=
  ∀ i, ∀ x ∈ (s.levelAt i).live, T.recordCount x ≤ s.bufferSize * s.scaleFactor ^ i

theorem live_combine_teiring {base incoming l : InternalLevel T} (hp : base.pendingShard = none)
    (hfits : Fits .teiring base incoming) (hl : combine .teiring base incoming = some l) :
    ∀ x ∈ l.live, x ∈ base.live ∨ T.ofShards incoming.live = some x := by
  by_cases hil : incoming.live = []
  · have hc : combine .teiring base incoming = some base := by
      simp [combine, InternalLevel.appendLevel_nil hil, InternalLevel.finalize_none hp]
    obtain rfl : base = l := Option.some.inj (hc.symm.trans hl)
    exact fun x hx => .inl hx
  · simp only [combine, InternalLevel.appendLevel_free hfits hil] at hl
    obtain ⟨l', hl', hfin⟩ := Option.bind_eq_some_iff.mp hl
    obtain ⟨y, hy, rfl⟩ := Option.map_eq_some_iff.mp hl'
    rw [InternalLevel.finalize_none (l := base.put y) hp, Option.some.injEq] at hfin
    subst hfin
    intro x hx
    rw [InternalLevel.live_put, List.mem_append, List.mem_singleton] at hx
    rcases hx with hx | rfl
    · exact .inl hx
    · exact .inr hy

theorem count_le_of_shards (hs : s.Sound) (hcap : s.ShardsWithin) (i : Nat) :
    (s.levelAt i).getRecordCount ≤ s.levelBound i := by
  have hslots := hs.slots i
  have hsum := List.sum_le_card_nsmul ((s.levelAt i).live.map T.recordCount)
    (s.bufferSize * s.scaleFactor ^ i) fun n hn => by
      obtain ⟨x, hx, rfl⟩ := List.mem_map.mp hn
      exact hcap i x hx
  have hlen : (s.levelAt i).live.length ≤ s.scaleFactor := by
    have hcap : s.shardCapacity = s.scaleFactor := rfl
    omega
  rw [List.length_map, smul_eq_mul] at hsum
  rw [InternalLevel.getRecordCount_eq, levelBound]
  calc ((s.levelAt i).live.map T.recordCount).sum
      ≤ (s.levelAt i).live.length * (s.bufferSize * s.scaleFactor ^ i) := hsum
    _ ≤ s.scaleFactor * (s.bufferSize * s.scaleFactor ^ i) := Nat.mul_le_mul_right _ hlen
    _ = s.bufferSize * s.scaleFactor ^ (i + 1) := by ring

/-- A merged shard holds at most what its level could hold, which is the bound for
one shard a level lower. -/
theorem ShardsWithin.place (hcap : s.ShardsWithin) (hs : s.Sound) {i : Nat}
    (hi : i < s.levels.length) (hfits : Fits .teiring (s.levelAt (i + 1)) (s.levelAt i))
    {l : InternalLevel T} (hl : combine .teiring (s.levelAt (i + 1)) (s.levelAt i) = some l) :
    (s.place i l).ShardsWithin := by
  intro j x hx
  rw [bufferSize_place, scaleFactor_place]
  rw [levelAt_place hi] at hx
  split at hx
  · simp at hx
  · split at hx
    · rename_i hj
      subst hj
      rcases live_combine_teiring (hs.noPending (i + 1)) hfits hl x hx with hx | hx
      · exact hcap (i + 1) x hx
      · have hcount := T.ofShards_count _ _ hx
        have hlevel := count_le_of_shards hs hcap i
        rw [InternalLevel.getRecordCount_eq, levelBound] at hlevel
        exact hcount.trans hlevel
    · exact hcap j x hx

theorem ShardsWithin.runDown (b : Nat) {s' : ExtensionStructure T .teiring} (hcap : s.ShardsWithin)
    (hs : s.Sound) (hb : b ≤ s.levels.length)
    (hfits : ∀ i, b = i + 1 → Fits .teiring (s.levelAt (i + 1)) (s.levelAt i))
    (hrun : runDown b s = some s') : s'.ShardsWithin := by
  induction b generalizing s with
  | zero => exact Option.some.inj hrun ▸ hcap
  | succ i ih =>
    obtain ⟨s₁, hs₁, hrest⟩ := Option.bind_eq_some_iff.mp hrun
    have hstep := (reconstruction_spec (by decide) hs hb (hfits i rfl)).1 s₁ hs₁
    rw [reconstruction_eq_place hb] at hs₁
    obtain ⟨l, hl, rfl⟩ := Option.map_eq_some_iff.mp hs₁
    exact ih (hcap.place hs hb (hfits i rfl) hl) hstep.rearranged.sound hstep.below.le hstep.fits
      hrest

theorem ShardsWithin.flushBuffer {s' : ExtensionStructure T .teiring} (hcap : s.ShardsWithin)
    (hs : s.Sound) {v : BufferView R} (hv : v.getRecordCount ≤ s.bufferSize)
    (hrun : s.flushBuffer v = some s') : s'.ShardsWithin := by
  obtain ⟨hroom, l, hl, rfl⟩ := flushBuffer_cases (by decide) hs hrun
  have hput : flushLevel .teiring (s.levelAt 0) v = some ((s.levelAt 0).put (T.ofBuffer v)) :=
    InternalLevel.appendBuffer_free hroom v
  rw [hput, Option.some.injEq] at hl
  intro j x hx
  rw [bufferSize_placeFirst, scaleFactor_placeFirst]
  rw [levelAt_placeFirst] at hx
  split at hx
  · rename_i hj
    subst hj hl
    rw [InternalLevel.live_put, List.mem_append, List.mem_singleton] at hx
    rcases hx with hx | rfl
    · exact hcap 0 x hx
    · simpa using (T.ofBuffer_count v).trans hv
  · exact hcap j x hx

theorem ShardsWithin.round {s' : ExtensionStructure T .teiring} {hwm : Nat} (hcap : s.ShardsWithin)
    (hs : s.Settled) (hsize : s.bufferSize = hwm) {v : BufferView R} (hv : v.getRecordCount ≤ hwm)
    (hrun : s.round hwm v = some s') : s'.ShardsWithin := by
  obtain ⟨s₁, hs₁, hflush⟩ := Option.bind_eq_some_iff.mp hrun
  have hdown := hs₁
  rw [reconstructTasks_round (by decide) hs.sound] at hdown
  rw [copy_eq hs.sound.noPending] at hs₁
  have hre := (planned_spec (by decide) hs hs₁).1
  refine ShardsWithin.flushBuffer ?_ hre.sound ?_ hflush
  · exact hcap.runDown _ hs.sound (planTarget_le hs.sound hwm)
      (fun i hi => planTarget_fits (by decide) hs hwm hi) hdown
  · rw [hre.bufferSize, hsize]
    exact hv

theorem Reachable.shardsWithin {hwm scale : Nat} (hs : Reachable T .teiring hwm scale s) :
    s.ShardsWithin := by
  induction hs with
  | new => exact fun i x hx => absurd hx (by simp [levelAt, ExtensionStructure.new])
  | round hs hv hrun ih =>
    obtain ⟨hset, -, hsize⟩ := hs.settled (by decide)
    exact ih.round hset hsize hv hrun

end Teiring

section BSM
variable {s : ExtensionStructure T .bsm}

/-- The levels as the digits of a binary counter: level `i` takes at most `2 ^ i` buffers. -/
def DigitsWithin (hwm : Nat) (s : ExtensionStructure T .bsm) : Prop :=
  ∀ i, (s.levelAt i).getRecordCount ≤ hwm * 2 ^ i

theorem sum_digits_le (hwm b : Nat) :
    ((List.range b).map fun i => hwm * 2 ^ i).sum ≤ hwm * 2 ^ b := by
  have hsum : ((List.range b).map fun i => hwm * 2 ^ i).sum + hwm = hwm * 2 ^ b := by
    induction b with
    | zero => simp
    | succ b ih =>
      rw [List.range_succ, List.map_append, List.sum_append, pow_succ, ← mul_assoc, ← ih]
      simp only [List.map_cons, List.map_nil, List.sum_singleton, ← ih]
      omega
  omega

theorem count_appendBuffer {l l' : InternalLevel T} {v : BufferView R}
    (h : l.appendBuffer v = some l') :
    l'.getRecordCount ≤ l.getRecordCount + v.getRecordCount := by
  unfold InternalLevel.appendBuffer at h
  split at h
  · obtain ⟨-, -, h⟩ := Option.bind_eq_some_iff.mp h
    obtain rfl := Option.some.inj h
    simp [InternalLevel.getRecordCount_eq]
  · obtain rfl := Option.some.inj h
    have := T.ofBuffer_count v
    simp only [InternalLevel.getRecordCount_eq, InternalLevel.live_put, List.map_append,
      List.sum_append, List.map_cons, List.map_nil, List.sum_singleton]
    omega

theorem DigitsWithin.copy {hwm : Nat} (hcap : DigitsWithin hwm s) : DigitsWithin hwm s.copy := by
  intro i
  rw [levelAt_copy, projects_reccnt.clone]
  exact hcap i

theorem DigitsWithin.placeMerged {hwm b : Nat} (hcap : DigitsWithin hwm s) (hs : s.Counted)
    (hb : b ≤ s.levels.length) {x : T.Shard} (hx : T.ofShards (s.mergedShards b) = some x) :
    DigitsWithin hwm (s.placeMerged b x) := by
  intro j
  rw [levelAt_placeMerged hb (length_counts hs)]
  split
  · exact countAt_new ..
  · split
    · rename_i hj
      subst hj
      have hcount := T.ofShards_count _ _ hx
      rw [count_mergedShards] at hcount
      have hdigits : ((List.range j).map fun i => (s.levelAt i).getRecordCount).sum ≤
          ((List.range j).map fun i => hwm * 2 ^ i).sum :=
        List.sum_le_sum fun i _ => hcap i
      have hcarry := sum_digits_le hwm j
      rw [InternalLevel.getRecordCount_eq, InternalLevel.live_ofSlots, List.map_cons, List.map_nil,
        List.sum_singleton]
      omega
    · exact hcap j

theorem DigitsWithin.round {hwm : Nat} (hcap : DigitsWithin hwm s) (hs : s.Counted)
    {v : BufferView R} (hv : v.getRecordCount ≤ hwm) {s' : ExtensionStructure T .bsm}
    (hrun : s.round hwm v = some s') : DigitsWithin hwm s' := by
  obtain ⟨s₁, hs₁, hflush⟩ := Option.bind_eq_some_iff.mp hrun
  have hc := (sound_copy hs).counts
  have htarget := planTarget_bsm hc hwm
  have hplanned : DigitsWithin hwm s₁ ∧ (s₁.levelAt 0).getRecordCount = 0 := by
    rcases reconstructTasks_copy hs hwm hs₁ with ⟨h0, rfl⟩ | ⟨h0, x, hx, rfl⟩
    · exact ⟨hcap.copy, htarget.2.2.mp h0⟩
    · refine ⟨hcap.copy.placeMerged hc htarget.1 hx, ?_⟩
      rw [levelAt_placeMerged htarget.1 (length_counts hc), if_pos (Nat.pos_of_ne_zero h0)]
      exact Nat.le_zero.mp (countAt_new ..)
  have hs₁ : s₁.Counted := Mirrors.reconstructTasks projects_reccnt hs hs hwm hs₁
  rw [flushBuffer_bsm hs₁ hplanned.2] at hflush
  obtain ⟨l, hl, rfl⟩ := Option.map_eq_some_iff.mp hflush
  have hcount := count_appendBuffer hl
  intro j
  rw [levelAt_placeFirst]
  split
  · rename_i hj
    subst hj
    rw [pow_zero, mul_one]
    omega
  · exact hplanned.1 j

theorem Reachable.digitsWithin {hwm scale : Nat} (hs : Reachable T .bsm hwm scale s) :
    DigitsWithin hwm s := by
  induction hs with
  | new => exact fun i => countAt_new ..
  | round hs hv hrun ih => exact ih.round hs.counted hv hrun

end BSM

/-- Under tiering and BSM no level of a reachable structure exceeds its capacity, and
under tiering none has more shards than the scale factor. -/
theorem tiering_capacity {hwm scale : Nat} {s : ExtensionStructure T L}
    (hs : Reachable T L hwm scale s) (hlayout : L = .teiring ∨ L = .bsm ∧ scale = 2) (i : Nat) :
    s.recordCountAt i ≤ hwm * scale ^ (i + 1) ∧ (L = .teiring → s.shardCountAt i ≤ scale) := by
  rw [(s.countAt_eq i).1, (s.countAt_eq i).2]
  rcases hlayout with rfl | ⟨rfl, rfl⟩
  · obtain ⟨hset, hscale, hsize⟩ := hs.settled (by decide)
    have hcount := count_le_of_shards hset.sound hs.shardsWithin i
    have hslots := hset.sound.slots i
    have hcap : s.shardCapacity = s.scaleFactor := rfl
    rw [levelBound, hsize, hscale] at hcount
    refine ⟨hcount, fun _ => ?_⟩
    rw [getShardCount_eq]
    omega
  · refine ⟨(hs.digitsWithin i).trans (Nat.mul_le_mul_left _ ?_), by simp⟩
    exact Nat.pow_le_pow_right (by decide) (Nat.le_succ i)

theorem tiering_capacity_sample :
    ∃ s : ExtensionStructure (ShardType.lists Nat) .bsm,
      (new _ .bsm 1 2).rounds 1 [sampleView [(1, false)], sampleView [(2, false)]] = some s ∧
      s.recordCountAt 1 ≤ 1 * 2 ^ (1 + 1) := by
  have h : ((new (ShardType.lists Nat) .bsm 1 2).rounds 1
      [sampleView [(1, false)], sampleView [(2, false)]]).isSome := by decide
  obtain ⟨s, hs⟩ := Option.isSome_iff_exists.mp h
  have hreach : Reachable (ShardType.lists Nat) .bsm 1 2 s := Reachable.new.rounds (by decide) hs
  exact ⟨s, hs, (tiering_capacity hreach (.inr ⟨rfl, rfl⟩) 1).1⟩

end ExtensionStructure

end De
