import DynamicExtension.Library.Counter
import DynamicExtension.LevelCapacity
import DynamicExtension.RecencyOrder
set_option autoImplicit false

namespace De
open Blocks
variable {R : Type} [DecidableEq R] {T : ShardType R}

namespace ExtensionStructure

/-- The number of shards on each level -/
def shardCounts {L : LayoutPolicy} (s : ExtensionStructure T L) : List Nat :=
  s.levels.map InternalLevel.getShardCount

theorem getD_shardCounts {L : LayoutPolicy} (s : ExtensionStructure T L) (i : Nat) :
    s.shardCounts.getD i 0 = (s.levelAt i).live.length := by
  rw [shardCounts, levelAt, List.getD_eq_getElem?_getD, List.getElem?_map]
  cases s.levels[i]? with
  | none => simp
  | some l => exact l.length_live.symm

section Teiring
variable {s : ExtensionStructure T .teiring}

theorem canReconstruct_teiring (hs : s.Real) (i n : Nat) :
    canReconstructWith .teiring i n s.currentState = true ↔
      i < s.levels.length ∧ s.shardCounts.getD i 0 < s.scaleFactor := by
  rw [canReconstructWith_iff hs, getD_shardCounts]
  rfl

theorem planTarget_teiring (hs : s.Real) (hwm : Nat) :
    s.planTarget hwm = Counter.carries s.scaleFactor s.shardCounts := by
  have hlen := length_state hs
  have hfull : ∀ {j n}, j < s.levels.length →
      ¬ canReconstructWith .teiring j n s.currentState = true →
      s.scaleFactor ≤ s.shardCounts.getD j 0 := by
    intro j n hj hcan
    rw [canReconstruct_teiring hs] at hcan
    omega
  have hcounts : s.shardCounts.length = s.levels.length := by simp [shardCounts]
  symm
  unfold planTarget
  split
  · rename_i h0
    exact Counter.carries_eq (Nat.zero_le _) (by simp)
      fun _ => ((canReconstruct_teiring hs 0 hwm).mp h0).2
  · rename_i h0
    cases hfind : findReconstructionTarget .teiring 0 s.currentState with
    | none =>
      rw [Option.getD_none]
      refine Counter.carries_eq hcounts.ge (fun j hj => ?_) (by omega)
      rcases Nat.eq_zero_or_pos j with rfl | hpos
      · exact hfull hj h0
      · exact hfull hj (findReconstructionTarget_none hfind hpos (by omega))
    | some b =>
      obtain ⟨-, hb, hcan, hbefore⟩ := findReconstructionTarget_some hfind
      rw [Option.getD_some]
      refine Counter.carries_eq (by omega) (fun j hj => ?_)
        fun _ => ((canReconstruct_teiring hs b _).mp hcan).2
      rcases Nat.eq_zero_or_pos j with rfl | hpos
      · exact hfull (by omega) h0
      · exact hfull (by omega) (hbefore j hpos hj)

/-- A shard's signed multiset, and the number of flushes that it should stand for -/
def sizedNet (base : Nat) (x : Nat × T.Shard) : (R → ℤ) × ℕ := (shardNet x, base ^ x.1)

theorem sum_sizedNet (base i : Nat) (xs : List T.Shard) :
    ((onLevel i xs).map (sizedNet base)).sum =
      ((xs.map fun x => De.net (T.records x)).sum, xs.length * base ^ i) := by
  induction xs with
  | nil => simp [onLevel, Prod.zero_eq_mk]
  | cons x xs ih =>
    have hcons : onLevel i (x :: xs) = (i, x) :: onLevel i xs := rfl
    rw [hcons, List.map_cons, List.sum_cons, ih, sizedNet, Prod.mk_add_mk, List.length_cons,
      Nat.succ_mul, add_comm (base ^ i)]
    rfl

/-- The shard counts after a cascade into level `b` over full levels -/
def cascaded (counts : Nat → Nat) (b j : Nat) : Nat :=
  if j < b then (if j = 0 then 0 else 1) else if j = b ∧ 0 < b then counts j + 1 else counts j

/-- What a cascade over full levels leaves -/
structure Cascaded (s : ExtensionStructure T .teiring) (b : Nat)
    (s' : ExtensionStructure T .teiring) : Prop where
  counts : ∀ j, (s'.levelAt j).live.length = cascaded (fun j => (s.levelAt j).live.length) b j
  length : max s'.levels.length 1 = max s.levels.length (b + 1)
  coarsens : Coarsens (sizedNet s.scaleFactor) s.byAge s'.byAge

theorem cascaded_runDown (b : Nat) {s s' : ExtensionStructure T .teiring} (hs : s.Sound)
    (hb : b ≤ s.levels.length)
    (hfits : ∀ i, b = i + 1 → Fits .teiring (s.levelAt (i + 1)) (s.levelAt i))
    (hfull : ∀ j < b, (s.levelAt j).live.length = s.scaleFactor)
    (hrun : runDown b s = some s') : Cascaded s b s' := by
  induction b generalizing s with
  | zero =>
    obtain rfl : s = s' := Option.some.inj hrun
    exact ⟨fun j => by simp [cascaded], by simp, .refl _⟩
  | succ i ih =>
    obtain ⟨s₁, hs₁, hrest⟩ := Option.bind_eq_some_iff.mp hrun
    have hstep := (reconstruction_spec (by decide) hs hb (hfits i rfl)).1 s₁ hs₁
    rw [reconstruction_eq_place hb] at hs₁
    obtain ⟨l, hl, rfl⟩ := Option.map_eq_some_iff.mp hs₁
    have hpos := hs.scale rfl (by rintro h; simp [h] at hb)
    have hi := hfull i (Nat.lt_succ_self i)
    obtain ⟨hnil, -⟩ | ⟨-, x, hx, rfl⟩ :=
      combine_teiring_live (hs.noPending (i + 1)) (hfits i rfl) hl
    · rw [hnil, List.length_nil] at hi
      omega
    have hlevel := levelAt_place (l := (s.levelAt (i + 1)).put x) hb
    have hc := ih hstep.rearranged.sound hstep.below.le hstep.fits (fun j hj => by
      rw [hlevel, if_neg (by omega), if_neg (by omega), scaleFactor_place]
      exact hfull j (by omega)) hrest
    refine ⟨fun j => ?_, ?_, ?_⟩
    · rw [hc.counts, cascaded, cascaded, hlevel]
      grind [InternalLevel.live_new, InternalLevel.live_put]
    · rw [hc.length, length_place hb]
      omega
    · rw [← scaleFactor_place (l := (s.levelAt (i + 1)).put x) (i := i)]
      refine (coarsens_place hb ?_).trans hc.coarsens
      rw [onLevel_put, scaleFactor_place]
      refine (Coarsens.refl _).append (.join ?_)
      rw [sum_sizedNet, hi, ← pow_succ', ← T.ofShards_net _ _ hx]
      rfl

theorem round_teiring {s' : ExtensionStructure T .teiring} (hs : s.Settled) {hwm : Nat}
    {v : BufferView R} (hrun : s.round hwm v = some s') :
    s'.shardCounts = Counter.succ s.scaleFactor 1 s.shardCounts ∧
      Coarsens (sizedNet s.scaleFactor) (s.byAge ++ [(0, T.ofBuffer v)]) s'.byAge := by
  obtain ⟨s₁, hs₁, hflush⟩ := Option.bind_eq_some_iff.mp hrun
  have hdown := hs₁
  rw [reconstructTasks_round (by decide) hs.sound, planTarget_teiring hs.sound.real] at hdown
  rw [copy_eq hs.sound.noPending] at hs₁
  have hre := (planned_spec (by decide) hs hs₁).1
  obtain ⟨hroom, l, hl, rfl⟩ := flushBuffer_cases (by decide) hre.sound hflush
  have hput : flushLevel .teiring (s₁.levelAt 0) v = some ((s₁.levelAt 0).put (T.ofBuffer v)) :=
    InternalLevel.appendBuffer_free hroom v
  obtain rfl := Option.some.inj (hput.symm.trans hl)
  have htarget := planTarget_teiring hs.sound.real hwm
  set b := Counter.carries s.scaleFactor s.shardCounts with hb
  have hfull : ∀ j < b, (s.levelAt j).live.length = s.scaleFactor := by
    intro j hj
    have hge := Counter.le_getD_of_lt_carries hj
    have hslots := hs.sound.slots j
    have hcap : s.shardCapacity = s.scaleFactor := rfl
    rw [getD_shardCounts] at hge
    omega
  have hc := cascaded_runDown b hs.sound (htarget ▸ planTarget_le hs.sound hwm)
    (fun i hi => planTarget_fits (by decide) hs hwm (htarget.trans hi)) hfull hdown
  refine ⟨Counter.eq_succ ?_ fun j => ?_, ?_⟩
  · rw [← hb, shardCounts, shardCounts, List.length_map, List.length_map, length_placeFirst,
      hc.length]
  · rw [← hb, getD_shardCounts, getD_shardCounts, levelAt_placeFirst]
    have h0 := hc.counts 0
    have hj := hc.counts j
    split
    · rename_i hzero
      subst hzero
      rw [InternalLevel.live_put, List.length_append, h0, cascaded, List.length_singleton]
      grind
    · rw [hj, cascaded]
      grind
  · refine (hc.coarsens.append (.refl _)).trans (coarsens_placeFirst ?_)
    rw [onLevel_put]
    exact .refl _

/-- Under TEIRING the number of flushes alone decides the shape: the shard counts of the
levels are the digits of that number, and each shard of level `i` nets `scale ^ i`
consecutive flushes. -/
theorem teiring_shape {hwm scale : Nat} {vs : List (BufferView R)}
    (hs : FlushRun T .teiring hwm scale vs s) :
    s.shardCounts = Counter.numeral scale 1 vs.length ∧
      (0 < scale → Nat.ofDigits scale s.shardCounts = vs.length) ∧
      Blocks.Covers (sizedNet scale) s.byAge (vs.map fun v => (De.net v.records, 1)) := by
  suffices h : s.shardCounts = Counter.numeral scale 1 vs.length ∧
      Blocks.Covers (sizedNet scale) s.byAge (vs.map fun v => (De.net v.records, 1)) by
    refine ⟨h.1, fun hpos => ?_, h.2⟩
    rw [h.1]
    exact Counter.ofDigits_numeral hpos hpos (add_comm scale 1) _
  induction hs with
  | new => exact ⟨rfl, .nil⟩
  | @round vs v s s' hs _ _ hrun ih =>
    obtain ⟨hset, hscale, -⟩ := hs.reachable.settled (by decide)
    obtain ⟨hcounts, hcoarsens⟩ := round_teiring hset hrun
    rw [hscale] at hcounts hcoarsens
    refine ⟨?_, hcoarsens _ ?_⟩
    · rw [hcounts, ih.1, List.length_append, List.length_singleton]
      rfl
    · rw [List.map_append, List.map_cons, List.map_nil]
      refine ih.2.append (.singleton ?_)
      rw [List.sum_singleton, sizedNet, pow_zero, Prod.mk.injEq]
      exact ⟨T.ofBuffer_net v, rfl⟩

/-- The third flush finds level 0 full and moves its two shards down as one. -/
theorem teiring_shape_sample :
    ∃ s : ExtensionStructure (ShardType.lists Nat) .teiring,
      (new _ .teiring 1 2).rounds 1 [sampleView [(1, false)], sampleView [(1, true)],
        sampleView [(2, false)]] = some s ∧
      Counter.numeral 2 1 3 = [1, 1] ∧ s.shardCounts = Counter.numeral 2 1 3 := by
  have h : ((new (ShardType.lists Nat) .teiring 1 2).round 1 (sampleView [(1, false)])).any
      (fun s₁ => (s₁.round 1 (sampleView [(1, true)])).any fun s₂ =>
        (s₂.round 1 (sampleView [(2, false)])).isSome) = true := by decide
  obtain ⟨s₁, hs₁, h⟩ := (Option.any_eq_true _ _).mp h
  obtain ⟨s₂, hs₂, hsome⟩ := (Option.any_eq_true _ _).mp h
  obtain ⟨s, hs⟩ := Option.isSome_iff_exists.mp hsome
  refine ⟨s, by simp [rounds, hs₁, hs₂, hs], rfl, ?_⟩
  have hrun₁ : FlushRun (ShardType.lists Nat) .teiring 1 2 [sampleView [(1, false)]] s₁ :=
    FlushRun.new.round trivial (by decide) hs₁
  have hrun₂ := hrun₁.round trivial (by decide) hs₂
  exact (teiring_shape (hrun₂.round trivial (by decide) hs)).1

end Teiring

section BSM
variable {s : ExtensionStructure T .bsm}

/-- Every shard holds a record. -/
def Dense (s : ExtensionStructure T .bsm) : Prop :=
  ∀ i, ∀ x ∈ (s.levelAt i).live, 0 < T.recordCount x

theorem Dense.count_eq_zero (h : s.Dense) (i : Nat) :
    (s.levelAt i).getRecordCount = 0 ↔ (s.levelAt i).live = [] := by
  rw [InternalLevel.getRecordCount_eq, List.sum_eq_zero_iff]
  constructor
  · intro hzero
    rw [List.eq_nil_iff_forall_not_mem]
    intro x hx
    have := h i x hx
    have := hzero _ (List.mem_map_of_mem hx)
    omega
  · intro hnil
    simp [hnil]

theorem getD_tail {c : Nat} {ds : List Nat} (h : s.shardCounts = c :: ds) (j : Nat) :
    ds.getD j 0 = (s.levelAt (j + 1)).live.length := by
  rw [← getD_shardCounts, h, List.getD_cons_succ]

theorem planTarget_dense (hs : s.Counted) (hd : s.Dense) {ds : List Nat}
    (hcounts : s.shardCounts = 1 :: ds) (hwm : Nat) :
    s.planTarget hwm = Counter.carries 1 ds + 1 := by
  have hlen : s.levels.length = ds.length + 1 := by
    have := congrArg List.length hcounts
    simpa [shardCounts] using this
  have hlive : ∀ {j n}, j + 1 < s.levels.length →
      (canReconstructWith .bsm (j + 1) n s.currentState = true ↔ ds.getD j 0 = 0) := by
    intro j n hj
    rw [canReconstructWith_bsm hs, hd.count_eq_zero, getD_tail hcounts, List.length_eq_zero_iff]
    exact and_iff_right hj
  have hzero : canReconstructWith .bsm 0 hwm s.currentState ≠ true := by
    rw [ne_eq, canReconstructWith_bsm hs, hd.count_eq_zero]
    rintro ⟨-, hnil⟩
    have h0 := s.getD_shardCounts 0
    rw [hcounts, hnil] at h0
    simp at h0
  have hstate := length_counts hs
  unfold planTarget
  rw [if_neg hzero]
  cases hfind : findReconstructionTarget .bsm 0 s.currentState with
  | none =>
    rw [Option.getD_none, hlen, Counter.carries_eq le_rfl (fun j hj => ?_) (by omega)]
    have hno := findReconstructionTarget_none hfind (Nat.succ_pos j) (by omega)
    rw [hlive (by omega)] at hno
    exact Nat.pos_of_ne_zero hno
  | some b =>
    obtain ⟨hpos, hb, hcan, hbefore⟩ := findReconstructionTarget_some hfind
    obtain ⟨i, rfl⟩ := Nat.exists_eq_succ_of_ne_zero (Nat.pos_iff_ne_zero.mp hpos)
    rw [Option.getD_some, Counter.carries_eq (b := i) (by omega) (fun j hj => ?_)
      fun _ => by rw [(hlive (by omega)).mp hcan]; exact Nat.one_pos]
    have hno := hbefore (j + 1) (Nat.succ_pos j) (by omega)
    rw [hlive (by omega)] at hno
    exact Nat.pos_of_ne_zero hno

/-- A shard's signed multiset, and the number of flushes that it should stand for -/
def sizedNetBSM (x : Nat × T.Shard) : (R → ℤ) × ℕ := (shardNet x, 2 ^ (x.1 - 1))

theorem sum_sizedNetBSM {b : Nat} (hone : ∀ j ≤ b, (s.levelAt j).live.length = 1) :
    ((downFrom (fun i => onLevel i (s.levelAt i).live) (b + 1)).map sizedNetBSM).sum =
      (((downFrom (fun i => onLevel i (s.levelAt i).live) (b + 1)).map shardNet).sum, 2 ^ b) := by
  induction b with
  | zero =>
    obtain ⟨x, hx⟩ := List.length_eq_one_iff.mp (hone 0 le_rfl)
    simp [downFrom, hx, onLevel, sizedNetBSM]
  | succ b ih =>
    obtain ⟨x, hx⟩ := List.length_eq_one_iff.mp (hone (b + 1) le_rfl)
    rw [downFrom, List.map_append, List.sum_append, ih fun j hj => hone j (by omega),
      List.map_append, List.sum_append, hx]
    have hsize : 2 ^ b + 2 ^ b = 2 ^ (b + 1) := by ring
    simp [onLevel, sizedNetBSM, hsize]

theorem Dense.hasSlot (h : s.Dense) (h0 : (s.levelAt 0).live ≠ []) : s.HasSlot :=
  .inl fun hcount => h0 ((h.count_eq_zero 0).mp hcount)

theorem live_of_le_carries {ds : List Nat} (hcounts : s.shardCounts = 1 :: ds)
    (hds : ∀ d ∈ ds, d ≤ 1) {j : Nat} (hj : j ≤ Counter.carries 1 ds) :
    (s.levelAt j).live.length = 1 := by
  cases j with
  | zero => rw [← getD_shardCounts, hcounts, List.getD_cons_zero]
  | succ j =>
    rw [← getD_tail hcounts]
    exact le_antisymm (Counter.getD_le hds j) (Counter.le_getD_of_lt_carries hj)

theorem carries_lt_length {ds : List Nat} (hcounts : s.shardCounts = 1 :: ds) :
    Counter.carries 1 ds + 1 ≤ s.levels.length := by
  have hlen := congrArg List.length hcounts
  have hle := Counter.carries_le 1 ds
  rw [shardCounts, List.length_map, List.length_cons] at hlen
  omega

/-- A merge below level 0, and the buffer into level 0 -/
def merged (s : ExtensionStructure T .bsm) (b : Nat) (x y : T.Shard) : ExtensionStructure T .bsm :=
  (s.placeMerged b x).placeFirst ((InternalLevel.new T 0 1).put y)

theorem round_dense_eq (hs : s.SoundBSM) (hd : s.Dense) {ds : List Nat}
    (hcounts : s.shardCounts = 1 :: ds) {hwm : Nat} {v : BufferView R}
    {s' : ExtensionStructure T .bsm} (hrun : s.round hwm v = some s') :
    ∃ x, T.ofShards (s.mergedShards (Counter.carries 1 ds + 1)) = some x ∧
      s' = s.merged (Counter.carries 1 ds + 1) x (T.ofBuffer v) := by
  have htarget := planTarget_dense hs.counts hd hcounts hwm
  have hb := carries_lt_length hcounts
  obtain ⟨s₁, hs₁, hflush⟩ := Option.bind_eq_some_iff.mp hrun
  have hcases := reconstructTasks_copy hs.counts hwm hs₁
  rw [copy_eq hs.noPending, htarget] at hcases
  obtain ⟨hno, -⟩ | ⟨-, x, hx, rfl⟩ := hcases
  · omega
  have hfirst : (s.placeMerged (Counter.carries 1 ds + 1) x).levelAt 0 = .new T 0 1 := by
    rw [levelAt_placeMerged hb (length_counts hs.counts), if_pos (Nat.succ_pos _)]
  rw [flushBuffer_bsm (counted_placeMerged hs.counts hb x)
    (by simp [hfirst, InternalLevel.getRecordCount_eq]),
    InternalLevel.appendBuffer_free (by simp [hfirst]), Option.map_some,
    Option.some.injEq, hfirst] at hflush
  exact ⟨x, hx, hflush.symm⟩

theorem live_merged_zero (s : ExtensionStructure T .bsm) (b : Nat) (x y : T.Shard) :
    ((s.merged b x y).levelAt 0).live = [y] := by
  rw [merged, levelAt_placeFirst, if_pos rfl, InternalLevel.live_put, InternalLevel.live_new]
  rfl

theorem live_merged_succ (hs : s.Counted) {b : Nat} (hb : b + 1 ≤ s.levels.length)
    (x y : T.Shard) (j : Nat) : ((s.merged (b + 1) x y).levelAt (j + 1)).live =
      if j < b then [] else if j = b then [x] else (s.levelAt (j + 1)).live := by
  rw [merged, levelAt_placeFirst, if_neg (Nat.succ_ne_zero j),
    levelAt_placeMerged hb (length_counts hs)]
  simp only [Nat.add_lt_add_iff_right, Nat.add_right_cancel_iff]
  split
  · exact InternalLevel.live_new ..
  · split
    · exact InternalLevel.live_ofSlots ..
    · rfl

theorem length_merged (hs : s.Counted) {b : Nat} (hb : b + 1 ≤ s.levels.length) (x y : T.Shard) :
    (s.merged (b + 1) x y).levels.length = max s.levels.length (b + 2) := by
  rw [merged, length_placeFirst, (cleared_placeMerged hb (length_counts hs) x).length,
    length_placeTarget hb]
  omega

theorem shardCounts_merged (hs : s.Counted) {ds : List Nat} (hcounts : s.shardCounts = 1 :: ds)
    (x y : T.Shard) : (s.merged (Counter.carries 1 ds + 1) x y).shardCounts =
      1 :: Counter.succ 1 0 ds := by
  have hb := carries_lt_length hcounts
  have hlen := length_merged hs hb x y
  have hold : s.levels.length = ds.length + 1 := by
    have := congrArg List.length hcounts
    simpa [shardCounts] using this
  obtain ⟨c₀, cs, hcs⟩ : ∃ c₀ cs,
      (s.merged (Counter.carries 1 ds + 1) x y).shardCounts = c₀ :: cs := by
    refine List.exists_cons_of_ne_nil fun hnil => ?_
    have := congrArg List.length hnil
    rw [shardCounts, List.length_map, List.length_nil] at this
    omega
  have hfirst : c₀ = 1 := by
    have h0 := (s.merged (Counter.carries 1 ds + 1) x y).getD_shardCounts 0
    rwa [hcs, List.getD_cons_zero, live_merged_zero] at h0
  rw [hcs, hfirst]
  refine congrArg _ (Counter.eq_succ ?_ fun j => ?_)
  · have := congrArg List.length hcs
    rw [shardCounts, List.length_map, List.length_cons] at this
    omega
  · have hend := Counter.getD_carries Nat.one_pos ds
    rw [getD_tail hcs, live_merged_succ hs hb]
    rcases lt_trichotomy j (Counter.carries 1 ds) with hj | rfl | hj
    · rw [if_pos hj, if_pos hj]
      rfl
    · rw [if_neg (lt_irrefl _), if_pos rfl, if_neg (lt_irrefl _), if_pos rfl,
        List.length_singleton]
      omega
    · rw [if_neg (by omega), if_neg (by omega), if_neg (by omega), if_neg (by omega),
        getD_tail hcounts]

theorem round_dense (hs : s.SoundBSM) (hd : s.Dense) {ds : List Nat}
    (hcounts : s.shardCounts = 1 :: ds) (hds : ∀ d ∈ ds, d ≤ 1) {hwm : Nat} {v : BufferView R}
    {s' : ExtensionStructure T .bsm} (hrun : s.round hwm v = some s') :
    s'.shardCounts = 1 :: Counter.succ 1 0 ds ∧
      Coarsens sizedNetBSM (s.byAge ++ [(0, T.ofBuffer v)]) s'.byAge := by
  obtain ⟨x, hx, rfl⟩ := round_dense_eq hs hd hcounts hrun
  refine ⟨shardCounts_merged hs.counts hcounts x _, ?_⟩
  have hb := carries_lt_length hcounts
  refine ((coarsens_placeMerged hs.counts hb ?_).append (.refl _)).trans (coarsens_placeFirst ?_)
  · have hnil : (s.levelAt (Counter.carries 1 ds + 1)).live = [] := by
      rw [← hd.count_eq_zero, ← planTarget_dense hs.counts hd hcounts hwm]
      exact (planTarget_bsm hs.counts hwm).2.1
    rw [hnil, sum_sizedNetBSM fun j hj => live_of_le_carries hcounts hds hj, ← shardNet_merged hx]
    simp [onLevel, sizedNetBSM]
  · have hfirst : (s.placeMerged (Counter.carries 1 ds + 1) x).levelAt 0 = .new T 0 1 := by
      rw [levelAt_placeMerged hb (length_counts hs.counts), if_pos (Nat.succ_pos _)]
    rw [hfirst, onLevel_put]
    exact .refl _

theorem round_first {hwm : Nat} (hnew : s = new T .bsm hwm 2) {v : BufferView R}
    {s' : ExtensionStructure T .bsm} (hrun : s.round hwm v = some s') :
    s'.SoundBSM ∧ s'.shardCounts = [1] ∧ s'.byAge = [(0, T.ofBuffer v)] := by
  have hs : s.SoundBSM := hnew ▸ sound_new_bsm T hwm 2
  have hlevel : s.levelAt 0 = .new T 0 2 := hnew ▸ rfl
  have hzero : (s.levelAt 0).getRecordCount = 0 := by
    rw [hlevel]
    exact Nat.le_zero.mp (countAt_new ..)
  have hfree : (s.levelAt 0).free ≠ 0 := by simp [hlevel]
  obtain ⟨s₁, hs₁, hflush⟩ := Option.bind_eq_some_iff.mp hrun
  have hcases := reconstructTasks_copy hs.counts hwm hs₁
  rw [copy_eq hs.noPending] at hcases
  obtain ⟨-, rfl⟩ | ⟨hno, -⟩ := hcases
  · rw [flushBuffer_bsm hs.counts hzero, InternalLevel.appendBuffer_free hfree, Option.map_some,
      Option.some.injEq] at hflush
    subst hflush
    have hlevels : (s₁.placeFirst ((s₁.levelAt 0).put (T.ofBuffer v))).levels =
        [(InternalLevel.new T 0 2).put (T.ofBuffer v)] := hnew ▸ rfl
    refine ⟨sound_placeFirst_bsm hs (hs.noPending 0), ?_, ?_⟩
    · rw [shardCounts, hlevels, List.map_singleton, getShardCount_eq, InternalLevel.live_put,
        InternalLevel.live_new]
      rfl
    · rw [byAge, hlevels]
      simp [downFrom, levelAt_placeFirst, hlevel, onLevel]
  · exact absurd ((planTarget_bsm hs.counts hwm).2.2.mpr hzero) hno

/-- What a run has built whose flushes all found level 0 with a shard that holds records -/
structure Shaped (hwm : Nat) (vs : List (BufferView R)) (s : ExtensionStructure T .bsm) :
    Prop where
  sound : s.SoundBSM
  new : vs = [] → s = ExtensionStructure.new T .bsm hwm 2
  counts : ∀ n, vs.length = n + 1 → s.shardCounts = 1 :: Counter.numeral 1 0 n
  covers : Blocks.Covers sizedNetBSM s.byAge (vs.map fun v => (De.net v.records, 1))

theorem shaped_new (T : ShardType R) (hwm : Nat) : Shaped hwm [] (new T .bsm hwm 2) :=
  ⟨sound_new_bsm T hwm 2, fun _ => rfl, by simp, .nil⟩

theorem Shaped.round {hwm : Nat} {vs : List (BufferView R)} (h : Shaped hwm vs s)
    (hd : s.Dense) {v : BufferView R} {s' : ExtensionStructure T .bsm}
    (hrun : s.round hwm v = some s') : Shaped hwm (vs ++ [v]) s' := by
  have hflushed : Blocks.Covers sizedNetBSM [(0, T.ofBuffer v)] [(De.net v.records, 1)] := by
    refine .singleton ?_
    rw [List.sum_singleton]
    exact Prod.ext (T.ofBuffer_net v) rfl
  cases hvs : vs with
  | nil =>
    obtain ⟨hsound, hcounts, hage⟩ := round_first (h.new hvs) hrun
    refine ⟨hsound, by simp, fun n hn => ?_, ?_⟩
    · obtain rfl : n = 0 := by simpa using hn.symm
      exact hcounts
    · rw [hage]
      exact hflushed
  | cons u us =>
    have hlen : vs.length = us.length + 1 := by rw [hvs, List.length_cons]
    have hcounts := h.counts us.length hlen
    obtain ⟨hcounts', hcoarsens⟩ := round_dense h.sound hd hcounts
      (Counter.le_of_mem_numeral Nat.one_pos (Nat.zero_le 1) _) hrun
    have hslot : s.HasSlot := hd.hasSlot fun hnil => by
      have h0 := s.getD_shardCounts 0
      rw [hcounts, hnil] at h0
      simp at h0
    refine ⟨(coarsens_round_bsm h.sound hslot hrun).1, by simp, fun n hn => ?_, ?_⟩
    · obtain rfl : n = us.length + 1 := by simpa using hn.symm
      exact hcounts'
    · rw [← hvs, List.map_append]
      exact hcoarsens _ (h.covers.append hflushed)

/-- The runs of BSM rounds with the views that they flushed, oldest first, in which no
shard is left without records -/
inductive DenseRun (T : ShardType R) (hwm : Nat) :
    List (BufferView R) → ExtensionStructure T .bsm → Prop
  | new : DenseRun T hwm [] (new T .bsm hwm 2)
  | round {vs : List (BufferView R)} {v : BufferView R} {s s' : ExtensionStructure T .bsm}
      (hs : DenseRun T hwm vs s) (hv : v.getRecordCount ≤ hwm) (hrun : s.round hwm v = some s')
      (hdense : s'.Dense) : DenseRun T hwm (vs ++ [v]) s'

theorem DenseRun.shaped {hwm : Nat} {vs : List (BufferView R)} (hs : DenseRun T hwm vs s) :
    Shaped hwm vs s ∧ s.Dense := by
  induction hs with
  | new => exact ⟨shaped_new T hwm, fun i x hx => by simp [ExtensionStructure.new, levelAt] at hx⟩
  | round _ _ hrun hdense ih => exact ⟨ih.1.round ih.2 hrun, hdense⟩

/-- The view holds records, none of them a tombstone. -/
def InsertsOnly (v : BufferView R) : Prop :=
  v.records ≠ [] ∧ ∀ w ∈ v.records, w.isTombstone = false

theorem net_of_live {ws : List (Wrapped R)} (h : ∀ w ∈ ws, w.isTombstone = false) (r : R) :
    De.net ws r = liveCount ws r := by
  have hzero : tombstoneCount ws r = 0 := by
    rw [tombstoneCount, List.countP_eq_zero]
    intro w hw
    simp [h w hw]
  rw [De.net, hzero]
  simp

theorem InsertsOnly.nonneg {v : BufferView R} (h : InsertsOnly v) (r : R) :
    0 ≤ De.net v.records r := by
  rw [net_of_live h.2]
  exact Int.natCast_nonneg _

theorem InsertsOnly.exists_pos {v : BufferView R} (h : InsertsOnly v) :
    ∃ r, 0 < De.net v.records r := by
  obtain ⟨w, hw⟩ := List.exists_mem_of_ne_nil _ h.1
  refine ⟨w.record, ?_⟩
  rw [net_of_live h.2, Int.natCast_pos, liveCount, List.countP_pos_iff]
  exact ⟨w, hw, by simp [h.2 w hw]⟩

theorem Shaped.dense {hwm : Nat} {vs : List (BufferView R)} (h : Shaped hwm vs s)
    (hvs : ∀ v ∈ vs, InsertsOnly v) : s.Dense := by
  intro i x hx
  obtain ⟨b, hb, hsum⟩ := h.covers.exists_block (mem_byAge hx)
  have hnonneg : ∀ m ∈ b, ∀ r, 0 ≤ m.1 r := by
    intro m hm r
    obtain ⟨v, hv, rfl⟩ := List.mem_map.mp (hb m hm)
    exact (hvs v hv).nonneg r
  have hne : b ≠ [] := by
    rintro rfl
    have hsize : 2 ^ (i - 1) = 0 := congrArg Prod.snd hsum
    exact absurd hsize (by positivity)
  obtain ⟨m, hm⟩ := List.exists_mem_of_ne_nil b hne
  obtain ⟨v, hv, rfl⟩ := List.mem_map.mp (hb m hm)
  obtain ⟨r, hr⟩ := (hvs v hv).exists_pos
  have hat : shardNet (i, x) r = (b.map fun m => m.1 r).sum := by
    have hfst : shardNet (i, x) = b.sum.1 := congrArg Prod.fst hsum
    rw [hfst]
    exact map_list_sum ((Pi.evalAddMonoidHom (fun _ : R => ℤ) r).comp
      (AddMonoidHom.fst (R → ℤ) ℕ)) b
  have hle : De.net v.records r ≤ (b.map fun m => m.1 r).sum := by
    refine List.single_le_sum (fun y hy => ?_) _ (List.mem_map_of_mem (f := fun m => m.1 r) hm)
    obtain ⟨m, hm, rfl⟩ := List.mem_map.mp hy
    exact hnonneg m hm r
  rw [Nat.pos_iff_ne_zero, T.recordCount_eq]
  intro hzero
  have : shardNet (i, x) r = 0 := congrFun (net_eq_zero_of_length hzero) r
  omega

theorem DenseRun.of_inserts {hwm : Nat} {vs : List (BufferView R)}
    {s s' : ExtensionStructure T .bsm} {us : List (BufferView R)} (hs : DenseRun T hwm us s)
    (hus : ∀ v ∈ us, InsertsOnly v) (hvs : ∀ v ∈ vs, InsertsOnly v ∧ v.getRecordCount ≤ hwm)
    (hrun : s.rounds hwm vs = some s') : DenseRun T hwm (us ++ vs) s' := by
  induction vs generalizing s us with
  | nil =>
    obtain rfl : s = s' := Option.some.inj hrun
    simpa using hs
  | cons v vs ih =>
    obtain ⟨s₁, hs₁, hrest⟩ := Option.bind_eq_some_iff.mp hrun
    obtain ⟨hv, hle⟩ := hvs v List.mem_cons_self
    have hus₁ : ∀ u ∈ us ++ [v], InsertsOnly u := by
      intro u hu
      rcases List.mem_append.mp hu with hu | hu
      · exact hus u hu
      · rwa [List.mem_singleton.mp hu]
    have hdense := (hs.shaped.1.round hs.shaped.2 hs₁).dense hus₁
    have h := ih (hs.round hle hs₁ hdense) hus₁
      (fun u hu => hvs u (List.mem_cons_of_mem _ hu)) hrest
    simpa using h

/-- Under BSM, as long as no shard is without records, the number of flushes alone decides
the shape: level 0 holds the last flush, the levels below it are the bits of the number of
flushes before, and the shard of level `i + 1` nets `2 ^ i` consecutive flushes. -/
theorem bsm_shape {hwm : Nat} {vs : List (BufferView R)} (hs : DenseRun T hwm vs s) :
    (∀ n, vs.length = n + 1 → s.shardCounts = 1 :: Counter.numeral 1 0 n ∧
      Nat.ofDigits 2 (Counter.numeral 1 0 n) = n) ∧
    Blocks.Covers sizedNetBSM s.byAge (vs.map fun v => (De.net v.records, 1)) := by
  have h := hs.shaped.1
  exact ⟨fun n hn => ⟨h.counts n hn,
    Counter.ofDigits_numeral Nat.one_pos (Nat.zero_le 1) rfl n⟩, h.covers⟩

theorem bsm_shape_sample :
    ∃ s : ExtensionStructure (ShardType.lists Nat) .bsm,
      (new _ .bsm 1 2).rounds 1 ([1, 2, 3, 4].map fun k => sampleView [(k, false)]) = some s ∧
      s.shardCounts = 1 :: Counter.numeral 1 0 3 := by
  have h : ((new (ShardType.lists Nat) .bsm 1 2).rounds 1
      ([1, 2, 3, 4].map fun k => sampleView [(k, false)])).isSome := by decide
  obtain ⟨s, hs⟩ := Option.isSome_iff_exists.mp h
  refine ⟨s, hs, ((bsm_shape (DenseRun.of_inserts .new (by simp) ?_ hs)).1 3 rfl).1⟩
  unfold InsertsOnly
  decide

end BSM

end ExtensionStructure

end De
