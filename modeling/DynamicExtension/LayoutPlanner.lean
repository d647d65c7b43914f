import DynamicExtension.ExtensionStructure
set_option autoImplicit false

namespace De
variable {R : Type} [DecidableEq R] {T : ShardType R} {L : LayoutPolicy}

/-- The source levels and the target of a task -/
def ReconstructionTask.shape (t : ReconstructionTask) : List Nat × Nat := (t.sources, t.target)

namespace ExtensionStructure

/-- One task a level, from the base level up to level 0 -/
def downShapes (b : Nat) : List (List Nat × Nat) :=
  (List.range b).reverse.map fun i => ([i], i + 1)

theorem downShapes_succ (b : Nat) : downShapes (b + 1) = ([b], b + 1) :: downShapes b := by
  simp [downShapes, List.range_succ]

theorem planDown_shapes (b : Nat) (p : ReconstructionVector × List LevelState) :
    (planDown L 0 b p).1.tasks.map ReconstructionTask.shape =
      p.1.tasks.map ReconstructionTask.shape ++ downShapes b := by
  induction b generalizing p with
  | zero => simp [planDown, downShapes]
  | succ b ih =>
    rw [planDown, if_pos (Nat.succ_pos b), ih, downShapes_succ]
    simp [planLevel, ReconstructionVector.addReconstruction, ReconstructionTask.shape]

/-- The level down to which the planner opens up space; 0 when level 0 can take
the buffer as it is. -/
def planTarget (s : ExtensionStructure T L) (hwm : Nat) : Nat :=
  if canReconstructWith L 0 hwm s.currentState then 0
  else (findReconstructionTarget L 0 s.currentState).getD s.levels.length

theorem planTarget_copy (s : ExtensionStructure T L) (hwm : Nat) :
    s.copy.planTarget hwm = s.planTarget hwm := by
  simp [planTarget, copy]

theorem roundTasks_shapes (s : ExtensionStructure T L) (hwm : Nat) (h : L ≠ .bsm) :
    (s.roundTasks hwm).map ReconstructionTask.shape = downShapes (s.planTarget hwm) := by
  have hjob : ∀ rv : ReconstructionVector, jobTasks L rv = rv.tasks := by
    intro rv
    cases L <;> first | rfl | exact absurd rfl h
  have hplan : ∀ scratch, (s.copy.getReconstructionTasksFromLevel 0 scratch).1.tasks.map
      ReconstructionTask.shape =
        downShapes ((findReconstructionTarget L 0 scratch).getD s.levels.length) := by
    intro scratch
    have hlen : s.copy.levels.length = s.levels.length := by simp [copy]
    unfold getReconstructionTasksFromLevel
    cases findReconstructionTarget L 0 scratch with
    | none =>
      cases L <;> first
        | exact absurd rfl h
        | (rw [Option.getD_none, ← hlen]; exact planDown_shapes ..)
    | some i =>
      cases L <;> first
        | exact absurd rfl h
        | exact planDown_shapes ..
  rw [roundTasks, hjob, getReconstructionTasks, planTarget]
  simp only [List.length_nil, if_true]
  have hstate : s.copy.currentState = s.currentState := rfl
  rw [hstate]
  split
  · rfl
  · exact hplan _

/-- The reconstructions from a base level up, as the job runs them -/
def runDown : Nat → ExtensionStructure T L → Option (ExtensionStructure T L)
  | 0, s => some s
  | b + 1, s => (s.reconstruction (b + 1) b).bind (runDown b)

theorem reconstructTask_shape (h : L ≠ .bsm) (s : ExtensionStructure T L)
    (t : ReconstructionTask) {i j : Nat} (ht : ReconstructionTask.shape t = ([i], j)) :
    s.reconstructTask t = s.reconstruction j i := by
  obtain ⟨hs, hj⟩ := Prod.mk.inj ht
  cases L <;> first | exact absurd rfl h | simp [reconstructTask, hs, hj]

theorem reconstructTasks_eq (h : L ≠ .bsm) (b : Nat) (s : ExtensionStructure T L)
    (tasks : List ReconstructionTask)
    (ht : tasks.map ReconstructionTask.shape = downShapes b) :
    s.reconstructTasks tasks = runDown b s := by
  induction b generalizing s tasks with
  | zero =>
    obtain rfl : tasks = [] := by simpa [downShapes] using ht
    rfl
  | succ b ih =>
    rw [downShapes_succ] at ht
    obtain ⟨t, ts, rfl, h₁, h₂⟩ := List.map_eq_cons_iff.mp ht
    rw [reconstructTasks, List.foldlM_cons, reconstructTask_shape h s t h₁, runDown]
    cases s.reconstruction (b + 1) b with
    | none => rfl
    | some s' => exact ih s' ts h₂

theorem findReconstructionTarget_some {state : List LevelState} {i : Nat}
    (h : findReconstructionTarget L 0 state = some i) :
    0 < i ∧ i < state.length ∧ canReconstructWith L i (reccntAt state 0) state ∧
      ∀ j, 0 < j → j < i → ¬ canReconstructWith L j (reccntAt state 0) state := by
  unfold findReconstructionTarget at h
  split at h
  · simp at h
  · rw [List.find?_range'_eq_some] at h
    obtain ⟨hi, hmem, hlt⟩ := h
    simp only [List.mem_range'_1] at hmem
    refine ⟨by omega, by omega, hi, fun j hj hji => ?_⟩
    simpa using hlt j (by omega) hji

theorem findReconstructionTarget_none {state : List LevelState}
    (h : findReconstructionTarget L 0 state = none) {j : Nat} (hj : 0 < j)
    (hlt : j < state.length) : ¬ canReconstructWith L j (reccntAt state 0) state := by
  unfold findReconstructionTarget at h
  rw [if_neg (by omega), List.find?_eq_none] at h
  simpa using h j (List.mem_range'_1.mpr ⟨by omega, by omega⟩)

end ExtensionStructure

end De
