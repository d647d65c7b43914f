import DynamicExtension.ConservationBSM
set_option autoImplicit false

namespace De
variable {R : Type} [DecidableEq R] {T : ShardType R} {L : LayoutPolicy}

namespace ExtensionStructure

def shardcntAt (state : List LevelState) (idx : Nat) : Nat :=
  (state[idx]?.map LevelState.shardcnt).getD 0

/-- The scratch state of `get_reconstruction_tasks` before it simulates the flush -/
def plannedState (s : ExtensionStructure T L) (bufferReccnt : Nat) : List LevelState :=
  if canReconstructWith L 0 bufferReccnt s.currentState then s.currentState
  else (s.getReconstructionTasksFromLevel 0 s.currentState).2

/-- The scratch state has the shard count of every level, a missing one counting
as empty, and at least its record count. -/
def Predicts (p : List LevelState) (s : ExtensionStructure T L) : Prop :=
  ∀ i, shardcntAt p i = (s.levelAt i).getShardCount ∧ (s.levelAt i).getRecordCount ≤ reccntAt p i

theorem getShardCount_eq (l : InternalLevel T) : l.getShardCount = l.live.length :=
  l.length_live.symm

theorem count_regroup {xs ys : List T.Shard} {l : InternalLevel T}
    (h : Regroup T (↑xs + ↑ys) ↑l.live) :
    l.getRecordCount ≤ (xs.map T.recordCount).sum + (ys.map T.recordCount).sum := by
  have := h.count_le
  simpa [InternalLevel.getRecordCount_eq] using this

section PlanLevel
variable {i : Nat} {rv : ReconstructionVector} {p : List LevelState}

theorem reccntAt_planLevel (hi : i + 1 < p.length) (j : Nat) :
    reccntAt (planLevel L (i + 1) (rv, p)).2 j =
      if j = i then 0 else if j = i + 1 then reccntAt p (i + 1) + reccntAt p i
      else reccntAt p j := by
  have hp := List.getElem?_eq_getElem hi
  have hp' := List.getElem?_eq_getElem (Nat.lt_of_succ_lt hi)
  simp only [planLevel, reccntAt, List.getElem?_modify, Nat.add_sub_cancel]
  by_cases hj : j = i
  · subst hj
    simp [hp']
  · by_cases hj' : j = i + 1
    · subst hj'
      simp [hp]
    · simp [hj, hj', Ne.symm hj, Ne.symm hj']

theorem shardcntAt_planLevel (hi : i + 1 < p.length) (j : Nat) :
    shardcntAt (planLevel L (i + 1) (rv, p)).2 j =
      if j = i then 0
      else if j = i + 1 then
        if L = .teiring ∨ shardcntAt p (i + 1) = 0 then shardcntAt p (i + 1) + 1
        else shardcntAt p (i + 1)
      else shardcntAt p j := by
  have hp := List.getElem?_eq_getElem hi
  have hp' := List.getElem?_eq_getElem (Nat.lt_of_succ_lt hi)
  simp only [planLevel, shardcntAt, List.getElem?_modify, Nat.add_sub_cancel]
  by_cases hj : j = i
  · subst hj
    simp [hp']
  · by_cases hj' : j = i + 1
    · subst hj'
      simp [hp]
    · simp [hj, hj', Ne.symm hj, Ne.symm hj']

end PlanLevel

theorem length_planLevel {i : Nat} {q : ReconstructionVector × List LevelState} :
    (planLevel L i q).2.length = q.2.length := by
  simp [planLevel]

theorem Predicts.step (h : L ≠ .bsm) {s s' : ExtensionStructure T L} {p : List LevelState}
    (hp : Predicts p s) (hs : s.Sound) {i : Nat} (hi : i < s.levels.length)
    (hlen : i + 1 < p.length)
    (hfits : Fits L (s.levelAt (i + 1)) (s.levelAt i)) (hne : (s.levelAt i).live ≠ [])
    (hrun : s.reconstruction (i + 1) i = some s') (rv : ReconstructionVector) :
    Predicts (planLevel L (i + 1) (rv, p)).2 s' := by
  rw [reconstruction_eq_place hi] at hrun
  obtain ⟨l, hl, rfl⟩ := Option.map_eq_some_iff.mp hrun
  have hc := (combine_spec h hs hfits).1 l hl
  obtain ⟨hshards, hcount⟩ := hp (i + 1)
  obtain ⟨-, hcount'⟩ := hp i
  intro j
  rw [shardcntAt_planLevel hlen, reccntAt_planLevel hlen, levelAt_place hi]
  by_cases hj : j = i
  · simp [hj, getShardCount_eq, InternalLevel.getRecordCount_eq]
  · by_cases hj' : j = i + 1
    · simp only [hj', if_true, if_neg (Nat.succ_ne_self i)]
      constructor
      · rw [getShardCount_eq, hc.length hne, hshards, getShardCount_eq]
        simp only [List.length_eq_zero_iff]
      · have := count_regroup hc.regroup
        simp only [InternalLevel.getRecordCount_eq] at this hcount hcount' ⊢
        omega
    · simp only [if_neg hj, if_neg hj']
      exact hp j

theorem Predicts.runDown (h : L ≠ .bsm) (b : Nat) {s s' : ExtensionStructure T L}
    {p : List LevelState} (hp : Predicts p s) (hs : s.Sound) (hb : b ≤ s.levels.length)
    (hlen : 0 < b → b < p.length) (hfits : ∀ i, b = i + 1 → Fits L
    (s.levelAt (i + 1)) (s.levelAt i))
    (hne : ∀ j < b, (s.levelAt j).live ≠ []) (hrun : runDown b s = some s')
    (rv : ReconstructionVector) : Predicts (planDown L 0 b (rv, p)).2 s' := by
  induction b generalizing s p rv with
  | zero => exact Option.some.inj hrun ▸ hp
  | succ i ih =>
    obtain ⟨s₁, hs₁, hrest⟩ := Option.bind_eq_some_iff.mp hrun
    have hstep := (reconstruction_spec h hs hb (hfits i rfl)).1 s₁ hs₁
    have hlen := hlen (Nat.succ_pos i)
    have hp₁ := hp.step h hs hb hlen (hfits i rfl) (hne i (Nat.lt_succ_self i)) hs₁ rv
    rw [planDown, if_pos (Nat.succ_pos i)]
    refine ih hp₁ hstep.rearranged.sound hstep.below.le (fun _ => ?_) hstep.fits (fun j hj => ?_)
      hrest _
    · rw [length_planLevel]
      exact Nat.lt_of_succ_lt hlen
    · -- the levels above the two that were combined are as they were
      rw [reconstruction_eq_place hb] at hs₁
      obtain ⟨l, -, rfl⟩ := Option.map_eq_some_iff.mp hs₁
      rw [levelAt_place hb, if_neg (by omega), if_neg (by omega)]
      exact hne j (Nat.lt_succ_of_lt hj)

theorem planTarget_blocked {s : ExtensionStructure T L}
    (hs : s.currentState.length = s.levels.length)
    {hwm j : Nat} (hj : j < s.planTarget hwm) :
    j < s.levels.length ∧ (j = 0 → ¬ canReconstructWith L 0 hwm s.currentState) ∧
      (0 < j → ¬ canReconstructWith L j (reccntAt s.currentState 0) s.currentState) := by
  unfold planTarget at hj
  split at hj
  · omega
  · rename_i hno
    cases hfind : findReconstructionTarget L 0 s.currentState with
    | none =>
      rw [hfind, Option.getD_none] at hj
      exact ⟨hj, fun _ => hno, fun hpos => findReconstructionTarget_none hfind hpos (by omega)⟩
    | some b =>
      rw [hfind, Option.getD_some] at hj
      obtain ⟨-, hlt, -, hbefore⟩ := findReconstructionTarget_some hfind
      exact ⟨by omega, fun _ => hno, fun hpos => hbefore j hpos hj⟩

theorem live_below (h : L ≠ .bsm) {s : ExtensionStructure T L} (hs : s.Settled) {hwm j : Nat}
    (hj : j < s.planTarget hwm) : (s.levelAt j).live ≠ [] := by
  obtain ⟨hlt, hzero, hpos⟩ := planTarget_blocked (length_state hs.sound.real) hj
  cases L with
  | leveling => exact hs.nonempty rfl j hlt
  | teiring =>
    have hcap : 0 < s.shardCapacity := hs.sound.scale rfl (by rintro h; simp [h] at hlt)
    have hfull : ¬ (s.levelAt j).live.length < s.shardCapacity := by
      intro hroom
      have hcan : ∀ n, canReconstructWith .teiring j n s.currentState = true := fun n =>
        (canReconstructWith_iff hs.sound.real j n).mpr ⟨hlt, hroom⟩
      rcases Nat.eq_zero_or_pos j with rfl | hj0
      · exact hzero rfl (hcan hwm)
      · exact hpos hj0 (hcan _)
    intro hnil
    rw [hnil] at hfull
    exact hfull hcap
  | bsm => exact absurd rfl h

theorem predicts_currentState {s : ExtensionStructure T L} (hs : s.Real) :
    Predicts s.currentState s := by
  intro i
  rw [shardcntAt, reccntAt, hs i, levelAt]
  cases s.levels[i]? with
  | none => simp [getShardCount_eq, InternalLevel.getRecordCount_eq]
  | some l => exact ⟨rfl, le_rfl⟩

theorem predicts_grow {s : ExtensionStructure T L} {p : List LevelState} (hp : Predicts p s) :
    Predicts (s.grow p).2 s := by
  intro i
  have hi := hp i
  rw [grow, shardcntAt, reccntAt, List.getElem?_append]
  split
  · exact hi
  · rename_i hge
    rw [shardcntAt, reccntAt, List.getElem?_eq_none (by omega)] at hi
    cases hk : i - p.length with
    | zero => simpa using hi
    | succ k => simpa using hi

theorem plannedState_eq (h : L ≠ .bsm) {s : ExtensionStructure T L} (hs : s.Settled) (hwm : Nat) :
    ∃ p, s.plannedState hwm = (planDown L 0 (s.planTarget hwm) (.empty, p)).2 ∧ Predicts p s ∧
      (0 < s.planTarget hwm → s.planTarget hwm < p.length) := by
  have hreal := hs.sound.real
  have hlen := length_state hreal
  have hplan : ∀ state, (s.getReconstructionTasksFromLevel 0 state).2 =
      (findReconstructionTarget L 0 state).elim
        (planDown L 0 s.levels.length (.empty, (s.grow state).2)).2
        fun i => (planDown L 0 i (.empty, state)).2 := by
    intro state
    unfold getReconstructionTasksFromLevel
    cases findReconstructionTarget L 0 state <;> cases L <;> first | rfl | exact absurd rfl h
  rw [plannedState, planTarget]
  split
  · exact ⟨s.currentState, rfl, predicts_currentState hreal, fun h0 => absurd h0 (lt_irrefl 0)⟩
  · rw [hplan]
    cases hfind : findReconstructionTarget L 0 s.currentState with
    | none =>
      refine ⟨_, rfl, predicts_grow (predicts_currentState hreal), fun _ => ?_⟩
      simp [grow, hlen]
    | some i =>
      exact ⟨_, rfl, predicts_currentState hreal, fun _ =>
        (findReconstructionTarget_some hfind).2.1⟩

section BSM
variable {s : ExtensionStructure T .bsm}

theorem predicts_of_mirrors (hs : Mirrors (fun st => (st.reccnt, st.shardcnt))
    (fun l => (l.getRecordCount, l.getShardCount)) s) : Predicts s.currentState s := by
  intro i
  have hi := hs i
  rw [shardcntAt, reccntAt, levelAt]
  cases hl : s.levels[i]? with
  | none =>
    rw [hl, Option.map_none, Option.map_eq_none_iff] at hi
    simp [hi, getShardCount_eq, InternalLevel.getRecordCount_eq]
  | some l =>
    rw [hl, Option.map_some, Option.map_eq_some_iff] at hi
    obtain ⟨st, hst, hcounts⟩ := hi
    obtain ⟨hrec, hshard⟩ := Prod.mk.inj hcounts
    simp [hst, hrec, hshard]

theorem gatherDown_state (b : Nat) (task : ReconstructionTask) (n : Nat) (state : List LevelState) :
    (gatherDown 0 b (task, n, state)).2.1 = n + ((List.range b).map (reccntAt state)).sum ∧
      ∀ j : Nat, (gatherDown 0 b (task, n, state)).2.2[j]? =
        if j < b then state[j]?.map fun st => { st with reccnt := 0, shardcnt := 0 }
        else state[j]? := by
  induction b generalizing task n state with
  | zero => simp [gatherDown]
  | succ b ih =>
    rw [gatherDown, if_pos (Nat.succ_pos b)]
    obtain ⟨hsum, hstate⟩ := ih (task.addSource b (reccntAt state b)) (n + reccntAt state b)
      (state.modify b fun st => { st with reccnt := 0, shardcnt := 0 })
    have hbelow : ∀ i ∈ List.range b, reccntAt
        (state.modify b fun st => { st with reccnt := 0, shardcnt := 0 }) i = reccntAt state i := by
      intro i hi
      have hne : b ≠ i := by
        have := List.mem_range.mp hi
        omega
      simp [reccntAt, hne]
    refine ⟨?_, fun j => ?_⟩
    · rw [hsum, List.map_congr_left hbelow, List.range_succ, List.map_append, List.sum_append]
      simp
      omega
    · rw [hstate, List.getElem?_modify]
      by_cases hj : j < b
      · simp [hj, Nat.lt_succ_of_lt hj, Nat.ne_of_gt hj]
      · by_cases hjb : b = j
        · simp [← hjb]
        · simp [hj, hjb, show ¬ j < b + 1 by omega]

theorem plannedState_bsm (hlen : s.currentState.length = s.levels.length) (hwm : Nat) :
    ∃ p, (p = s.currentState ∨ p = (s.grow s.currentState).2) ∧
      (0 < s.planTarget hwm → s.planTarget hwm < p.length) ∧
      s.plannedState hwm =
        if s.planTarget hwm = 0 then p
        else (gatherDown 0 (s.planTarget hwm) (⟨[], s.planTarget hwm, none⟩, 0, p)).2.2.modify
          (s.planTarget hwm) fun st =>
            { st with
              reccnt := (gatherDown 0 (s.planTarget hwm)
                (⟨[], s.planTarget hwm, none⟩, 0, p)).2.1
              shardcnt := 1 } := by
  rw [plannedState, planTarget]
  split
  · exact ⟨_, .inl rfl, fun h0 => absurd h0 (lt_irrefl 0), rfl⟩
  · rw [getReconstructionTasksFromLevel]
    cases hfind : findReconstructionTarget .bsm 0 s.currentState with
    | none =>
      refine ⟨_, .inr rfl, by simp [grow, hlen], ?_⟩
      by_cases h0 : s.levels.length = 0
      · simp [grow, h0]
      · simp [grow, h0]
    | some i =>
      have hpos := (findReconstructionTarget_some hfind).1.ne'
      refine ⟨_, .inl rfl, fun _ => (findReconstructionTarget_some hfind).2.1, ?_⟩
      simp [hpos]

theorem count_mergedShards (s : ExtensionStructure T .bsm) (b : Nat) :
    ((s.mergedShards b).map T.recordCount).sum =
      ((List.range b).map fun i => (s.levelAt i).getRecordCount).sum := by
  induction b with
  | zero => rfl
  | succ b ih =>
    have hsucc : s.mergedShards (b + 1) = (s.levelAt b).live ++ s.mergedShards b := by
      simp [mergedShards, List.range_succ]
    rw [hsucc, List.map_append, List.sum_append, ih, List.range_succ, List.map_append,
      List.sum_append, ← InternalLevel.getRecordCount_eq]
    simp
    omega

theorem predicts_merged {p : List LevelState} (hp : Predicts p s) (hs : s.Counted) {b : Nat}
    (hb : b ≤ s.levels.length) (hlen : b < p.length) {x : T.Shard}
    (hx : T.ofShards (s.mergedShards b) = some x) (task : ReconstructionTask) :
    Predicts ((gatherDown 0 b (task, 0, p)).2.2.modify b fun st =>
      { st with reccnt := (gatherDown 0 b (task, 0, p)).2.1, shardcnt := 1 })
        (s.placeMerged b x) := by
  obtain ⟨hsum, hstate⟩ := gatherDown_state b task 0 p
  have hget := List.getElem?_eq_getElem hlen
  intro j
  rw [shardcntAt, reccntAt, List.getElem?_modify, hstate, levelAt_placeMerged hb (length_counts hs)]
  by_cases hj : j < b
  · cases p[j]? <;> simp [hj, Nat.ne_of_gt hj, getShardCount_eq, InternalLevel.getRecordCount_eq]
  · by_cases hjb : b = j
    · subst hjb
      have hcount := T.ofShards_count _ _ hx
      have hle : ((List.range b).map fun i => (s.levelAt i).getRecordCount).sum ≤
          ((List.range b).map (reccntAt p)).sum :=
        List.sum_le_sum fun i _ => (hp i).2
      rw [count_mergedShards] at hcount
      simp only [lt_irrefl, if_false, hget, if_true, Option.map_eq_map, Option.map_some,
        Option.getD_some, getShardCount_eq, InternalLevel.live_ofSlots, List.length_singleton,
        InternalLevel.getRecordCount_eq, List.map_cons, List.map_nil, List.sum_singleton, hsum,
        true_and]
      omega
    · have hpj := hp j
      simpa [hj, hjb, Ne.symm hjb, shardcntAt, reccntAt] using hpj

end BSM

theorem Reachable.predicts_planned {hwm scale : Nat} {s s₁ : ExtensionStructure T L}
    (hs : Reachable T L hwm scale s)
    (hrun : s.copy.reconstructTasks (s.roundTasks hwm) = some s₁) :
    Predicts (s.copy.plannedState hwm) s₁ := by
  by_cases h : L = .bsm
  · subst h
    have hp := predicts_of_mirrors ((hs.mirrors projects_counts).copy projects_counts)
    have hc := (sound_copy hs.counted).counts
    obtain ⟨p, hpcase, hlen, hplan⟩ := plannedState_bsm (length_counts hc) hwm
    have hp' : Predicts p s.copy := by
      rcases hpcase with rfl | rfl
      · exact hp
      · exact predicts_grow hp
    rcases reconstructTasks_copy hs.counted hwm hrun with ⟨h0, rfl⟩ | ⟨h0, x, hx, rfl⟩
    · rw [hplan, if_pos h0]
      exact hp'
    · have hb := (planTarget_bsm hc hwm).1
      rw [hplan, if_neg h0]
      exact predicts_merged hp' hc hb (hlen (Nat.pos_of_ne_zero h0)) hx _
  · have hset := (hs.settled h).1
    rw [copy_eq hset.sound.noPending] at hrun ⊢
    obtain ⟨p, hplan, hp, hlen⟩ := plannedState_eq h hset hwm
    rw [reconstructTasks_eq h _ _ _ (roundTasks_shapes s hwm h)] at hrun
    rw [hplan]
    exact hp.runDown h _ hset.sound (planTarget_le hset.sound hwm) hlen
      (fun i hi => planTarget_fits h hset hwm hi) (fun j hj => live_below h hset hj) hrun _

theorem Reachable.target_le {hwm scale : Nat} {s s₁ : ExtensionStructure T L}
    (hs : Reachable T L hwm scale s) {done rest : List ReconstructionTask} {t : ReconstructionTask}
    (htasks : s.roundTasks hwm = done ++ t :: rest)
    (hrun : s.copy.reconstructTasks done = some s₁) : t.target ≤ s₁.levels.length := by
  by_cases h : L = .bsm
  · subst h
    rw [roundTasks_bsm] at htasks
    split at htasks
    · simp at htasks
    · obtain ⟨rfl, ht⟩ : done = [] ∧ t :: rest = [_] := by
        cases done with
        | nil => exact ⟨rfl, htasks.symm⟩
        | cons u done => simp at htasks
      obtain rfl : s.copy = s₁ := Option.some.inj hrun
      obtain ⟨rfl, -⟩ := List.cons.inj ht
      have hlen : s.copy.levels.length = s.levels.length := by simp [copy]
      rw [hlen]
      exact (planTarget_bsm hs.counted hwm).1
  · have hset := (hs.settled h).1
    rw [copy_eq hset.sound.noPending] at hrun
    obtain ⟨c, -, hrest, hd⟩ := runDown_append_spec h hset.sound (planTarget_le hset.sound hwm)
      (fun i hi => planTarget_fits h hset hwm hi)
      (by rw [← htasks]; exact roundTasks_shapes s hwm h) hrun
    cases c with
    | zero => simp [downShapes] at hrest
    | succ i =>
      rw [downShapes_succ, List.map_cons, List.cons.injEq] at hrest
      rw [(Prod.mk.inj hrest.1).2]
      exact hd.below

/-- The assertion of `flush_buffer` holds after the planned tasks exactly if the capacity
of level 0 is enough for the buffer. -/
theorem Reachable.canFlush_iff {hwm scale : Nat} {s s₁ : ExtensionStructure T L}
    (hs : Reachable T L hwm scale s) (hpos : 0 < scale)
    (hrun : s.copy.reconstructTasks (s.roundTasks hwm) = some s₁) {n : Nat} (hn : n ≤ hwm) :
    canReconstructWith L 0 n s₁.flushState = true ↔ s.HasCapacity n := by
  by_cases h : L = .bsm
  · subst h
    have hc := (sound_copy hs.counted).counts
    have hs₁ : s₁.Counted :=
      Mirrors.reconstructTasks projects_reccnt hs.counted hs.counted hwm hrun
    refine iff_of_true (canFlush_bsm hs₁ ?_ n) nofun
    rcases reconstructTasks_copy hs.counted hwm hrun with ⟨h0, rfl⟩ | ⟨h0, x, -, rfl⟩
    · exact (planTarget_bsm hc hwm).2.2.mp h0
    · rw [levelAt_placeMerged (planTarget_bsm hc hwm).1 (length_counts hc),
        if_pos (Nat.pos_of_ne_zero h0)]
      simp [InternalLevel.getRecordCount_eq]
  · obtain ⟨hset, hscale, -⟩ := hs.settled h
    rw [copy_eq hset.sound.noPending] at hrun
    rw [room_iff h (planned_spec h hset hrun).1.sound]
    exact room_planned_iff h hset (by omega) hn hrun

theorem Reachable.tasks_isSome (hT : T.Total) {hwm scale : Nat} {s : ExtensionStructure T L}
    (hs : Reachable T L hwm scale s) : (s.copy.reconstructTasks (s.roundTasks hwm)).isSome := by
  by_cases h : L = .bsm
  · subst h
    have hb := (planTarget_bsm (sound_copy hs.counted).counts hwm).1
    obtain ⟨x, hx⟩ := Option.isSome_iff_exists.mp (hT (s.copy.mergedShards (s.copy.planTarget hwm)))
    rw [roundTasks_bsm, ← planTarget_copy]
    split
    · rfl
    · simp [reconstructTasks, reconstructTask, reconstructionTask_eq hb, hx]
  · have hset := (hs.settled h).1
    rw [reconstructTasks_round h hset.sound]
    exact runDown_isSome h _ hset.sound (planTarget_le hset.sound hwm)
      (fun i hi => planTarget_fits h hset hwm hi) fun xs _ => hT xs

/-- Counts of a level in the vector, a missing level counting as empty -/
def shardCountAt (s : ExtensionStructure T L) (i : Nat) : Nat :=
  (s.levels[i]?.map InternalLevel.getShardCount).getD 0

def recordCountAt (s : ExtensionStructure T L) (i : Nat) : Nat :=
  (s.levels[i]?.map InternalLevel.getRecordCount).getD 0

theorem countAt_eq (s : ExtensionStructure T L) (i : Nat) :
    s.shardCountAt i = (s.levelAt i).getShardCount ∧
      s.recordCountAt i = (s.levelAt i).getRecordCount := by
  rw [shardCountAt, recordCountAt, levelAt]
  cases s.levels[i]? with
  | none => simp [getShardCount_eq, InternalLevel.getRecordCount_eq]
  | some l => exact ⟨rfl, rfl⟩

/-- Executing the planned tasks of a round does what the planner simulated: levels
are only added at the end, the shard counts are the predicted ones, the record
counts at most the predicted ones, and level 0 then takes any buffer. -/
structure PlanAgrees (s : ExtensionStructure T L) (hwm : Nat) : Prop where
  appends : ∀ done t rest s₁, s.roundTasks hwm = done ++ t :: rest →
    s.copy.reconstructTasks done = some s₁ → s₁.levels.length ≤ t.target →
    t.target = s₁.levels.length
  predicts : ∀ s₁, s.copy.reconstructTasks (s.roundTasks hwm) = some s₁ →
    ∀ i, s₁.shardCountAt i = shardcntAt (s.copy.plannedState hwm) i ∧
      s₁.recordCountAt i ≤ reccntAt (s.copy.plannedState hwm) i
  takes : ∀ s₁, s.copy.reconstructTasks (s.roundTasks hwm) = some s₁ →
    ∀ n ≤ hwm, canReconstructWith L 0 n s₁.flushState = true
  completes : T.Total → (s.copy.reconstructTasks (s.roundTasks hwm)).isSome

theorem Reachable.hasCapacity_iff {hwm scale : Nat} {s : ExtensionStructure T L}
    (hs : Reachable T L hwm scale s) (n : Nat) :
    s.HasCapacity n ↔ (ExtensionStructure.new T L hwm scale).HasCapacity n := by
  by_cases h : L = .bsm
  · subst h
    exact iff_of_true (fun hL => nomatch hL) (fun hL => nomatch hL)
  · obtain ⟨-, hscale, hsize⟩ := hs.settled h
    exact hasCapacity_congr hscale hsize n

/-- The planner agrees with the execution in every reachable structure exactly if the
capacity of level 0, as it is computed, is enough for a full buffer. -/
theorem planner_agrees_iff {hwm scale : Nat} (hscale : 2 ≤ scale) :
    (∀ s, Reachable T L hwm scale s → s.PlanAgrees hwm) ↔ (new T L hwm scale).HasCapacity hwm := by
  constructor
  · intro h
    have hrun : (new T L hwm scale).copy.reconstructTasks ((new T L hwm scale).roundTasks hwm) =
        some (new T L hwm scale) := by cases L <;> rfl
    exact (Reachable.new.canFlush_iff (by omega) hrun le_rfl).mp
      ((h _ .new).takes _ hrun hwm le_rfl)
  · intro hcap s hs
    refine ⟨fun done t rest s₁ htasks hrun hge => ?_, fun s₁ hrun i => ?_, fun s₁ hrun n hn => ?_,
      fun hT => hs.tasks_isSome hT⟩
    · exact le_antisymm (hs.target_le htasks hrun) hge
    · obtain ⟨hshard, hcount⟩ := hs.predicts_planned hrun i
      rw [(s₁.countAt_eq i).1, (s₁.countAt_eq i).2, hshard]
      exact ⟨rfl, hcount⟩
    · refine (hs.canFlush_iff (by omega) hrun hn).mpr fun hL => ?_
      exact hn.trans ((hs.hasCapacity_iff hwm).mpr hcap hL)

/-- The third of these rounds moves level 0 into a level that it adds. -/
theorem planner_agrees_sample :
    ∃ s : ExtensionStructure (ShardType.lists Nat) .leveling,
      (new _ .leveling 1 2).rounds 1 [sampleView [(1, false)], sampleView [(2, false)]] = some s ∧
      (s.roundTasks 1).map ReconstructionTask.shape = [([0], 1)] ∧
      ∃ s₁, s.copy.reconstructTasks (s.roundTasks 1) = some s₁ ∧
        canReconstructWith .leveling 0 1 s₁.flushState = true ∧
        ∀ i, s₁.shardCountAt i = shardcntAt (s.copy.plannedState 1) i ∧
          s₁.recordCountAt i ≤ reccntAt (s.copy.plannedState 1) i := by
  have h : ((new (ShardType.lists Nat) .leveling 1 2).rounds 1
      [sampleView [(1, false)], sampleView [(2, false)]]).map
        (fun s => (s.roundTasks 1).map ReconstructionTask.shape) = some [([0], 1)] := by decide
  obtain ⟨s, hs, htasks⟩ := Option.map_eq_some_iff.mp h
  have hreach : Reachable (ShardType.lists Nat) .leveling 1 2 s :=
    Reachable.new.rounds (by decide) hs
  have hagree := (planner_agrees_iff le_rfl).mpr (by decide) s hreach
  obtain ⟨s₁, hs₁⟩ := Option.isSome_iff_exists.mp (hagree.completes (ShardType.total_lists Nat))
  exact ⟨s, hs, htasks, s₁, hs₁, hagree.takes s₁ hs₁ 1 le_rfl, hagree.predicts s₁ hs₁⟩

/-- The capacity of level 0 is 2 ^ 64, which the conversion makes 0: the first flush of the
new structure fails its assertion. -/
theorem not_planner_agrees :
    let T := ISAMTree.shardType NodeLayout.words (StdLib.sorted (Record Nat Nat))
    let v := BufferView.ofList [Wrapped.fresh ⟨1, 5⟩ false, Wrapped.fresh ⟨2, 6⟩ false]
    Reachable T .leveling 2 (2 ^ 63) (new T .leveling 2 (2 ^ 63)) ∧
      ¬ (new T .leveling 2 (2 ^ 63)).PlanAgrees 2 ∧
      (new T .leveling 2 (2 ^ 63)).round 2 v = none := by
  intro T v
  have hrun : (new T .leveling 2 (2 ^ 63)).copy.reconstructTasks
      ((new T .leveling 2 (2 ^ 63)).roundTasks 2) = some (new T .leveling 2 (2 ^ 63)) := rfl
  refine ⟨.new, fun h => ?_, by decide +kernel⟩
  exact absurd (h.takes _ hrun 2 le_rfl) (by decide +kernel)

end ExtensionStructure

end De
