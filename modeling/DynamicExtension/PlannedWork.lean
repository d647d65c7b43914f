import DynamicExtension.ExtensionStructure
import DynamicExtension.Library.StepRun
set_option autoImplicit false

namespace De
open StepRun

/-- A sum taken in a `size_t` -/
def ReconstructionTask.wrap (t : ReconstructionTask) : ReconstructionTask :=
  { t with reccnt := t.reccnt.map (· % 2 ^ 64) }

namespace ReconstructionVector

def wrap (rv : ReconstructionVector) : ReconstructionVector :=
  { rv with totalReccnt := rv.totalReccnt % 2 ^ 64 }

/-- Fails on an index that the source asserts away -/
def removeReconstruction (rv : ReconstructionVector) (idx : Nat) :
    Option (ReconstructionTask × ReconstructionVector) := do
  let task ← rv.tasks[idx]?
  let reccnt ← task.reccnt
  return (task, ⟨rv.tasks.eraseIdx idx, (rv.totalReccnt + 2 ^ 64 - reccnt) % 2 ^ 64⟩)

/-- The loop over the tasks from `i` on -/
def smallestLoop : List ReconstructionTask → Nat → Nat → Nat → Option Nat
  | [], _, _, idx => some idx
  | task :: tasks, i, minSize, idx => do
    let reccnt ← task.reccnt
    if reccnt < minSize then smallestLoop tasks (i + 1) reccnt i
    else smallestLoop tasks (i + 1) minSize idx

/-- The index that `remove_smallest_reconstruction` removes -/
def smallest (rv : ReconstructionVector) : Option Nat := do
  let first ← rv.tasks.head?
  let minSize ← first.reccnt
  smallestLoop rv.tasks.tail 1 minSize 0

end ReconstructionVector

/-- A planner's vector and the task variable it works on. `added` and `taskAdded` are what was
counted into each task of the vector and into the variable. -/
structure Planning where
  recons : ReconstructionVector
  task : Option ReconstructionTask
  added : List Nat
  taskAdded : Nat

inductive PlanOp where
  /-- `ReconstructionTask task;` where the memory of the counter holds `found` -/
  | declare (target : Nat) (found : UInt64)
  | addSource (source : Nat) (cnt : UInt64)
  | addTask
  | addReconstruction (source target : Nat) (reccnt : UInt64)
  | removeReconstruction (idx : Nat)
  | removeSmallest

namespace Planning

def new : Planning := ⟨.empty, none, [], 0⟩

/-- The variable is given the task that is removed. -/
def remove (s : Planning) (idx : Nat) : Option Planning := do
  let (task, recons) ← s.recons.removeReconstruction idx
  return ⟨recons, some task, s.added.eraseIdx idx, s.added.getD idx 0⟩

def step (s : Planning) : PlanOp → Option Planning
  | .declare target found =>
    some { s with task := some ⟨[], target, some found.toNat⟩, taskAdded := 0 }
  | .addSource source cnt => do
    let task ← s.task
    return { s with task := some (task.addSource source cnt.toNat).wrap,
                    taskAdded := s.taskAdded + cnt.toNat }
  | .addTask => do
    let task ← s.task
    return { s with recons := s.recons.addTask task, added := s.added ++ [s.taskAdded] }
  | .addReconstruction source target reccnt =>
    some { s with recons := (s.recons.addReconstruction source target reccnt.toNat).wrap,
                  added := s.added ++ [reccnt.toNat] }
  | .removeReconstruction idx => s.remove idx
  | .removeSmallest => do
    let idx ← s.recons.smallest
    s.remove idx

/-- The total is the sum over the tasks held, and a task's counter is what was added to it. -/
structure Accounted (s : Planning) : Prop where
  total : s.recons.totalReccnt = (s.recons.tasks.map fun t => t.reccnt.getD 0).sum
  counts : s.recons.tasks.map (·.reccnt) = s.added.map some
  task : ∀ t ∈ s.task, t.reccnt = some s.taskAdded

/-- The index that a step is going to remove -/
def removed (s : Planning) : PlanOp → Option Nat
  | .removeReconstruction idx => some idx
  | .removeSmallest => s.recons.smallest
  | _ => none

/-- What a removal takes from the total is in it. -/
def NoWrap (s : Planning) (op : PlanOp) : Prop :=
  ∀ idx ∈ s.removed op, ∀ t ∈ s.recons.tasks[idx]?, ∀ n ∈ t.reccnt, n ≤ s.recons.totalReccnt

/-- A declared counter happens to hold zero, sums fit, and the overload for a whole task is
given one without records. -/
def StepOk (s : Planning) : PlanOp → Prop
  | .declare _ found => found = 0
  | .addSource _ cnt => ∀ t ∈ s.task, ∀ n ∈ t.reccnt, n + cnt.toNat < 2 ^ 64
  | .addTask => ∀ t ∈ s.task, t.reccnt = some 0
  | .addReconstruction _ _ reccnt => s.recons.totalReccnt + reccnt.toNat < 2 ^ 64
  | .removeReconstruction _ => True
  | .removeSmallest => True

/-- A total that fits in a `size_t`, as it always does -/
structure Inv (s : Planning) : Prop where
  accounted : s.Accounted
  fits : s.recons.totalReccnt < 2 ^ 64

theorem declare_iff {s s' : Planning} {target : Nat} {found : UInt64} (h : s.Inv)
    (hstep : s.step (.declare target found) = some s') :
    (s'.Accounted ↔ StepOk s (.declare target found)) ∧ s'.recons.totalReccnt < 2 ^ 64 := by
  obtain rfl := Option.some.inj hstep
  refine ⟨⟨fun h' => ?_, fun hok => ?_⟩, h.fits⟩
  · have hzero : some found.toNat = some 0 := h'.task _ rfl
    exact UInt64.toNat_inj.mp (Option.some.inj hzero)
  · obtain rfl : found = 0 := hok
    refine ⟨h.accounted.total, h.accounted.counts, fun t ht => ?_⟩
    obtain rfl := Option.some.inj ht
    rfl

theorem addSource_iff {s s' : Planning} {source : Nat} {cnt : UInt64} (h : s.Inv)
    (hstep : s.step (.addSource source cnt) = some s') :
    (s'.Accounted ↔ StepOk s (.addSource source cnt)) ∧ s'.recons.totalReccnt < 2 ^ 64 := by
  obtain ⟨t, ht, hstep⟩ := Option.bind_eq_some_iff.mp hstep
  obtain rfl := Option.some.inj hstep
  have hcnt : t.reccnt = some s.taskAdded := h.accounted.task t ht
  have hnew : (t.addSource source cnt.toNat).wrap.reccnt =
      some ((s.taskAdded + cnt.toNat) % 2 ^ 64) := by
    simp only [ReconstructionTask.wrap, ReconstructionTask.addSource, hcnt, Option.map_some]
  refine ⟨⟨fun h' t' ht' n hn => ?_, fun hok => ?_⟩, h.fits⟩
  · obtain rfl : t = t' := Option.some.inj (ht.symm.trans ht')
    obtain rfl : s.taskAdded = n := Option.some.inj (hcnt.symm.trans hn)
    have hsum := h'.task _ rfl
    rw [hnew, Option.some.injEq] at hsum
    exact (Nat.mod_eq_iff_lt (by decide)).mp hsum
  · refine ⟨h.accounted.total, h.accounted.counts, fun t' ht' => ?_⟩
    obtain rfl := Option.some.inj ht'
    rw [hnew, (Nat.mod_eq_iff_lt (by decide)).mpr (hok t ht s.taskAdded hcnt)]

theorem addTask_iff {s s' : Planning} (h : s.Inv) (hstep : s.step .addTask = some s') :
    (s'.Accounted ↔ StepOk s .addTask) ∧ s'.recons.totalReccnt < 2 ^ 64 := by
  obtain ⟨t, ht, hstep⟩ := Option.bind_eq_some_iff.mp hstep
  obtain rfl := Option.some.inj hstep
  have hcnt : t.reccnt = some s.taskAdded := h.accounted.task t ht
  have htotal := h.accounted.total
  refine ⟨⟨fun h' t' ht' => ?_, fun hok => ?_⟩, h.fits⟩
  · obtain rfl : t = t' := Option.some.inj (ht.symm.trans ht')
    have hsum := h'.total
    simp only [ReconstructionVector.addTask, List.map_append, List.map_cons, List.map_nil,
      List.sum_append, List.sum_singleton, hcnt, Option.getD_some] at hsum
    rw [hcnt, show s.taskAdded = 0 by omega]
  · have hzero : s.taskAdded = 0 := Option.some.inj (hcnt.symm.trans (hok t ht))
    refine ⟨?_, ?_, h.accounted.task⟩
    · simp only [ReconstructionVector.addTask, List.map_append, List.map_cons, List.map_nil,
        List.sum_append, List.sum_singleton, hcnt, hzero, Option.getD_some, htotal, add_zero]
    · simp only [ReconstructionVector.addTask, List.map_append, List.map_cons, List.map_nil,
        hcnt, h.accounted.counts]

theorem addReconstruction_iff {s s' : Planning} {source target : Nat} {reccnt : UInt64}
    (h : s.Inv) (hstep : s.step (.addReconstruction source target reccnt) = some s') :
    (s'.Accounted ↔ StepOk s (.addReconstruction source target reccnt)) ∧
      s'.recons.totalReccnt < 2 ^ 64 := by
  obtain rfl := Option.some.inj hstep
  have hsum : ∀ rv : ReconstructionVector,
      ((rv.addReconstruction source target reccnt.toNat).tasks.map
        fun t => t.reccnt.getD 0).sum =
          (rv.tasks.map fun t => t.reccnt.getD 0).sum + reccnt.toNat := by
    intro rv
    simp only [ReconstructionVector.addReconstruction, List.map_append, List.map_cons,
      List.map_nil, List.sum_append, List.sum_singleton, Option.getD_some]
  refine ⟨⟨fun h' => ?_, fun hok => ?_⟩, Nat.mod_lt _ (by decide)⟩
  · have htotal : (s.recons.totalReccnt + reccnt.toNat) % 2 ^ 64 = _ :=
      h'.total.trans (hsum s.recons)
    rw [← h.accounted.total] at htotal
    exact (Nat.mod_eq_iff_lt (by decide)).mp htotal
  · refine ⟨?_, ?_, h.accounted.task⟩
    · refine Eq.trans ?_ (hsum s.recons).symm
      rw [← h.accounted.total]
      exact (Nat.mod_eq_iff_lt (by decide)).mpr hok
    · simp only [ReconstructionVector.wrap, ReconstructionVector.addReconstruction, List.map_append,
        List.map_cons, List.map_nil, h.accounted.counts]

theorem step_removed {s s' : Planning} {op : PlanOp} {idx : Nat} (hidx : s.removed op = some idx)
    (hstep : s.step op = some s') : s.remove idx = some s' := by
  cases op with
  | removeReconstruction idx' =>
    obtain rfl := Option.some.inj hidx
    exact hstep
  | removeSmallest =>
    obtain ⟨idx', hsmall, hremove⟩ := Option.bind_eq_some_iff.mp hstep
    obtain rfl : idx = idx' := Option.some.inj (hidx.symm.trans hsmall)
    exact hremove
  | declare => cases hidx
  | addSource => cases hidx
  | addTask => cases hidx
  | addReconstruction => cases hidx

theorem remove_inv {s s' : Planning} {idx : Nat} (h : s.Inv) (hremove : s.remove idx = some s') :
    s'.Inv ∧ ∀ t ∈ s.recons.tasks[idx]?, ∀ n ∈ t.reccnt, n ≤ s.recons.totalReccnt := by
  obtain ⟨⟨t, rv⟩, hrv, hremove⟩ := Option.bind_eq_some_iff.mp hremove
  obtain rfl := Option.some.inj hremove
  obtain ⟨t', ht, hrv⟩ := Option.bind_eq_some_iff.mp hrv
  obtain ⟨n, hn, hrv⟩ := Option.bind_eq_some_iff.mp hrv
  obtain ⟨rfl, rfl⟩ := Prod.mk.inj (Option.some.inj hrv)
  obtain ⟨hlt, hget⟩ := List.getElem?_eq_some_iff.mp ht
  -- the sum splits into what is removed and what stays
  have hsum : n + ((s.recons.tasks.eraseIdx idx).map fun t => t.reccnt.getD 0).sum =
      s.recons.totalReccnt := by
    have hsplit := List.CommMonoid.add_sum_eraseIdx
      (l := s.recons.tasks.map fun t => t.reccnt.getD 0) (i := idx) (by simpa using hlt)
    rw [List.getElem_map, hget, hn, Option.getD_some, List.eraseIdx_map] at hsplit
    rw [hsplit, h.accounted.total]
  have hfits := h.fits
  have hword : (s.recons.totalReccnt + 2 ^ 64 - n) % 2 ^ 64 = s.recons.totalReccnt - n := by
    rw [show s.recons.totalReccnt + 2 ^ 64 - n = s.recons.totalReccnt - n + 2 ^ 64 by omega,
      Nat.add_mod_right, Nat.mod_eq_of_lt (by omega)]
  have hadded : s.added[idx]? = some n := by
    have hcounts := congrArg (·[idx]?) h.accounted.counts
    simp only [List.getElem?_map, ht, Option.map_some, hn] at hcounts
    cases hat : s.added[idx]? with
    | none => rw [hat] at hcounts; cases hcounts
    | some m =>
      rw [hat] at hcounts
      exact (Option.some.inj (Option.some.inj hcounts)).symm ▸ rfl
  refine ⟨⟨⟨?_, ?_, fun t' ht' => ?_⟩, Nat.mod_lt _ (by decide)⟩, fun t' ht' n' hn' => ?_⟩
  · rw [hword, ← hsum, Nat.add_sub_cancel_left]
  · rw [← List.eraseIdx_map, h.accounted.counts, List.eraseIdx_map]
  · obtain rfl := Option.some.inj ht'
    rw [hn, List.getD_eq_getElem?_getD, hadded, Option.getD_some]
  · obtain rfl := Option.some.inj (ht.symm.trans ht')
    obtain rfl : n = n' := Option.some.inj (hn.symm.trans hn')
    omega

section Smallest

theorem smallestLoop_spec {tasks : List ReconstructionTask} {counts : List Nat}
    (h : tasks.map (·.reccnt) = counts.map some) (i minSize idx : Nat) :
    ∃ idx', ReconstructionVector.smallestLoop tasks i minSize idx = some idx' ∧
      ((idx' = idx ∧ ∀ n ∈ counts, minSize ≤ n) ∨
        ∃ j n, idx' = i + j ∧ counts[j]? = some n ∧ n < minSize ∧ ∀ m ∈ counts, n ≤ m) := by
  induction tasks generalizing counts i minSize idx with
  | nil =>
    obtain rfl : counts = [] := List.map_eq_nil_iff.mp h.symm
    exact ⟨idx, rfl, .inl ⟨rfl, fun _ hn => absurd hn List.not_mem_nil⟩⟩
  | cons t tasks ih =>
    cases counts with
    | nil => cases h
    | cons n counts =>
      obtain ⟨hn, htail⟩ := List.cons.inj h
      change t.reccnt = some n at hn
      rw [ReconstructionVector.smallestLoop, hn, Option.bind_eq_bind, Option.bind_some]
      by_cases hlt : n < minSize
      · rw [if_pos hlt]
        obtain ⟨idx', hloop, ⟨rfl, hall⟩ | ⟨j, m, rfl, hj, hm, hall⟩⟩ := ih htail (i + 1) n i
        · exact ⟨_, hloop, .inr ⟨0, n, rfl, rfl, hlt, List.forall_mem_cons.mpr ⟨le_rfl, hall⟩⟩⟩
        · exact ⟨_, hloop, .inr ⟨j + 1, m, by omega, hj, by omega,
            List.forall_mem_cons.mpr ⟨hm.le, hall⟩⟩⟩
      · rw [if_neg hlt]
        obtain ⟨idx', hloop, ⟨rfl, hall⟩ | ⟨j, m, rfl, hj, hm, hall⟩⟩ :=
          ih htail (i + 1) minSize idx
        · exact ⟨_, hloop, .inl ⟨rfl, List.forall_mem_cons.mpr ⟨not_lt.mp hlt, hall⟩⟩⟩
        · exact ⟨_, hloop, .inr ⟨j + 1, m, by omega, hj, hm,
            List.forall_mem_cons.mpr ⟨by omega, hall⟩⟩⟩

theorem removeSmallest_least {s : Planning} (h : s.Accounted) (hne : s.recons.tasks ≠ []) :
    ∃ s' n, s.step .removeSmallest = some s' ∧ s'.taskAdded = n ∧ n ∈ s.added ∧
      ∀ m ∈ s.added, n ≤ m := by
  obtain ⟨first, tasks, htasks⟩ := List.exists_cons_of_ne_nil hne
  have hcounts := h.counts
  rw [htasks, List.map_cons] at hcounts
  cases hadded : s.added with
  | nil => rw [hadded] at hcounts; cases hcounts
  | cons minSize counts =>
    rw [hadded] at hcounts
    obtain ⟨hfirst, htail⟩ := List.cons.inj hcounts
    obtain ⟨idx, hloop, hidx⟩ := smallestLoop_spec htail 1 minSize 0
    have hsmall : s.recons.smallest = some idx := by
      change first.reccnt = some minSize at hfirst
      simp [ReconstructionVector.smallest, htasks, hfirst, hloop]
    obtain ⟨n, hat, hleast⟩ : ∃ n, s.added[idx]? = some n ∧ ∀ m ∈ s.added, n ≤ m := by
      rw [hadded]
      rcases hidx with ⟨rfl, hall⟩ | ⟨j, n, rfl, hj, hlt, hall⟩
      · exact ⟨minSize, rfl, List.forall_mem_cons.mpr ⟨le_rfl, hall⟩⟩
      · exact ⟨n, by rw [Nat.add_comm, List.getElem?_cons_succ, hj],
          List.forall_mem_cons.mpr ⟨hlt.le, hall⟩⟩
    have hcount := congrArg (·[idx]?) h.counts
    simp only [List.getElem?_map, hat, Option.map_some] at hcount
    obtain ⟨t, ht, hn⟩ := Option.map_eq_some_iff.mp hcount
    refine ⟨⟨⟨s.recons.tasks.eraseIdx idx, (s.recons.totalReccnt + 2 ^ 64 - n) % 2 ^ 64⟩, some t,
      s.added.eraseIdx idx, n⟩, n, ?_, rfl, hadded ▸ List.mem_of_getElem? hat, hadded ▸ hleast⟩
    simp [step, hsmall, remove, ReconstructionVector.removeReconstruction, ht, hn, hat]

end Smallest

theorem step_accounted_iff {s s' : Planning} {op : PlanOp} (h : s.Inv)
    (hstep : s.step op = some s') :
    (s'.Accounted ↔ StepOk s op) ∧ s'.recons.totalReccnt < 2 ^ 64 ∧ NoWrap s op := by
  have hquiet : s.removed op = none → NoWrap s op := by
    intro hnone idx hidx
    rw [hnone] at hidx
    cases hidx
  cases op with
  | declare => exact ⟨(declare_iff h hstep).1, (declare_iff h hstep).2, hquiet rfl⟩
  | addSource => exact ⟨(addSource_iff h hstep).1, (addSource_iff h hstep).2, hquiet rfl⟩
  | addTask => exact ⟨(addTask_iff h hstep).1, (addTask_iff h hstep).2, hquiet rfl⟩
  | addReconstruction =>
    exact ⟨(addReconstruction_iff h hstep).1, (addReconstruction_iff h hstep).2, hquiet rfl⟩
  | removeReconstruction idx =>
    have hinv := remove_inv h (step_removed rfl hstep)
    refine ⟨⟨fun _ => trivial, fun _ => hinv.1.accounted⟩, hinv.1.fits, fun idx' hidx => ?_⟩
    obtain rfl := Option.some.inj hidx
    exact hinv.2
  | removeSmallest =>
    refine ⟨⟨fun _ => trivial, fun _ => ?_⟩, ?_, fun idx hidx => ?_⟩
    · obtain ⟨idx, -, hremove⟩ := Option.bind_eq_some_iff.mp hstep
      exact (remove_inv h hremove).1.accounted
    · obtain ⟨idx, -, hremove⟩ := Option.bind_eq_some_iff.mp hstep
      exact (remove_inv h hremove).1.fits
    · exact (remove_inv h (step_removed hidx hstep)).2

theorem new_inv : new.Inv :=
  ⟨⟨rfl, rfl, fun _ ht => by cases ht⟩, by decide⟩

/-- Planned work is accounted for in every state of a run, and its total never wraps, if and
only if every step meets its condition. -/
theorem accounted_iff (ops : List PlanOp) (hrun : (run step new ops).isSome) :
    ((∀ pre, pre <+: ops → ∀ s, run step new pre = some s → s.Accounted) ∧
      Always step NoWrap new ops) ↔ Always step StepOk new ops := by
  constructor
  · rintro ⟨hgood, -⟩
    exact always_of_good (fun s op s' h hstep hs' =>
      ⟨((step_accounted_iff h hstep).1).mp hs', hs', (step_accounted_iff h hstep).2.1⟩)
      new_inv hrun hgood
  · intro hok
    have hkeep : ∀ s op s', Inv s → StepOk s op → step s op = some s' → NoWrap s op ∧ Inv s' := by
      intro s op s' h hop hstep
      obtain ⟨hiff, hfits, hwrap⟩ := step_accounted_iff h hstep
      exact ⟨hwrap, hiff.mpr hop, hfits⟩
    refine ⟨fun pre hpre s hs => ?_, ?_⟩
    · obtain ⟨post, rfl⟩ := hpre
      exact (inv_of_run (fun s op s' h hop hstep => (hkeep s op s' h hop hstep).2) new_inv
        hok.take hs).accounted
    · obtain ⟨s, hs⟩ := Option.isSome_iff_exists.mp hrun
      exact always_of_run hkeep new_inv hok hs

instance (s : Planning) : DecidablePred s.StepOk
  | .declare _ found => inferInstanceAs (Decidable (found = 0))
  | .addSource _ cnt =>
    inferInstanceAs (Decidable (∀ t ∈ s.task, ∀ n ∈ t.reccnt, n + cnt.toNat < 2 ^ 64))
  | .addTask => inferInstanceAs (Decidable (∀ t ∈ s.task, t.reccnt = some 0))
  | .addReconstruction _ _ reccnt =>
    inferInstanceAs (Decidable (s.recons.totalReccnt + reccnt.toNat < 2 ^ 64))
  | .removeReconstruction _ => inferInstanceAs (Decidable True)
  | .removeSmallest => inferInstanceAs (Decidable True)

def sampleOps : List PlanOp :=
  [.declare 1 0, .addSource 0 0, .addTask, .addReconstruction 0 1 7, .addReconstruction 1 2 5,
    .removeReconstruction 1, .removeSmallest]

theorem accounted_iff_sample :
    (∀ pre, pre <+: sampleOps → ∀ s, run step new pre = some s → s.Accounted) ∧
      Always step NoWrap new sampleOps :=
  (accounted_iff sampleOps (by decide +kernel)).mpr (by decide +kernel)

/-- The planner's task for BSM: its records are missing in the total, and removing it takes the
total below zero. -/
theorem not_accounted : ∃ s s', run step new [.declare 1 0, .addSource 0 5, .addTask] = some s ∧
    s.recons = ⟨[⟨[0], 1, some 5⟩], 0⟩ ∧ ¬ s.Accounted ∧ ¬ NoWrap s (.removeReconstruction 0) ∧
    step s (.removeReconstruction 0) = some s' ∧ s'.recons = ⟨[], 2 ^ 64 - 5⟩ := by
  refine ⟨⟨⟨[⟨[0], 1, some 5⟩], 0⟩, some ⟨[0], 1, some 5⟩, [5], 5⟩,
    ⟨⟨[], 2 ^ 64 - 5⟩, some ⟨[0], 1, some 5⟩, [], 5⟩, rfl, rfl, fun h => ?_, fun h => ?_, rfl, rfl⟩
  · exact absurd h.total (by decide)
  · exact absurd (h 0 rfl _ rfl 5 rfl) (by decide)

end Planning
end De
