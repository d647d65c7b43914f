import Mathlib.Data.List.Basic
import Mathlib.Data.Option.Basic
set_option autoImplicit false

namespace StepRun

/-! Runs of a step function that can fail. -/

variable {σ α : Type} (step : σ → α → Option σ)

def run (s : σ) (ops : List α) : Option σ := ops.foldlM step s

@[simp] theorem run_nil (s : σ) : run step s [] = some s := rfl

theorem run_cons (s : σ) (op : α) (ops : List α) :
    run step s (op :: ops) = (step s op).bind fun s' => run step s' ops := rfl

theorem run_append (s : σ) (pre post : List α) :
    run step s (pre ++ post) = (run step s pre).bind fun s' => run step s' post := by
  rw [run, List.foldlM_append]
  rfl

/-- Every step of the run is taken in a state in which `P` holds of it. -/
def Always (P : σ → α → Prop) : σ → List α → Prop
  | _, [] => True
  | s, op :: ops => P s op ∧ ∀ s' ∈ step s op, Always P s' ops

instance decidableAlways (P : σ → α → Prop) [∀ s op, Decidable (P s op)] :
    ∀ (s : σ) (ops : List α), Decidable (Always step P s ops)
  | _, [] => isTrue trivial
  | s, op :: ops =>
    have := fun s' => decidableAlways P s' ops
    inferInstanceAs (Decidable (P s op ∧ ∀ s' ∈ step s op, Always step P s' ops))

variable {step}

theorem always_true (s : σ) (ops : List α) : Always step (fun _ _ => True) s ops := by
  induction ops generalizing s with
  | nil => trivial
  | cons op ops ih => exact ⟨trivial, fun s' _ => ih s'⟩

theorem Always.take {P : σ → α → Prop} {s : σ} {pre post : List α}
    (h : Always step P s (pre ++ post)) : Always step P s pre := by
  induction pre generalizing s with
  | nil => trivial
  | cons op pre ih => exact ⟨h.1, fun s' hs' => ih (h.2 s' hs')⟩

theorem Always.and {P Q : σ → α → Prop} {s : σ} {ops : List α} (hp : Always step P s ops)
    (hq : Always step Q s ops) : Always step (fun s op => P s op ∧ Q s op) s ops := by
  induction ops generalizing s with
  | nil => trivial
  | cons op ops ih => exact ⟨⟨hp.1, hq.1⟩, fun s' hs' => ih (hp.2 s' hs') (hq.2 s' hs')⟩

theorem run_invariant {P : σ → α → Prop} {Inv : σ → Prop}
    (hstep : ∀ s op, Inv s → P s op → ∃ s', step s op = some s' ∧ Inv s') {s : σ} {ops : List α}
    (hs : Inv s) (hops : Always step P s ops) : ∃ s', run step s ops = some s' ∧ Inv s' := by
  induction ops generalizing s with
  | nil => exact ⟨s, rfl, hs⟩
  | cons op ops ih =>
    obtain ⟨s₁, hop, h₁⟩ := hstep s op hs hops.1
    obtain ⟨s', hrun, h'⟩ := ih h₁ (hops.2 s₁ hop)
    exact ⟨s', by rw [run_cons, hop, Option.bind_some, hrun], h'⟩

theorem inv_of_run {P : σ → α → Prop} {Inv : σ → Prop}
    (hstep : ∀ s op s', Inv s → P s op → step s op = some s' → Inv s') {s s' : σ} {ops : List α}
    (hs : Inv s) (hops : Always step P s ops) (hrun : run step s ops = some s') : Inv s' := by
  induction ops generalizing s with
  | nil => exact Option.some.inj hrun ▸ hs
  | cons op ops ih =>
    rw [run_cons] at hrun
    obtain ⟨s₁, hop, hrun⟩ := Option.bind_eq_some_iff.mp hrun
    exact ih (hstep s op s₁ hs hops.1 hop) (hops.2 s₁ hop) hrun

/-- A run all of whose states are good has met every condition without which a step leads
to a state that is not. -/
theorem always_of_good {P : σ → α → Prop} {Inv Good : σ → Prop}
    (hstep : ∀ s op s', Inv s → step s op = some s' → Good s' → P s op ∧ Inv s') {s : σ}
    {ops : List α} (hs : Inv s) (hrun : (run step s ops).isSome)
    (hgood : ∀ pre, pre <+: ops → ∀ s', run step s pre = some s' → Good s') :
    Always step P s ops := by
  induction ops generalizing s with
  | nil => trivial
  | cons op ops ih =>
    obtain ⟨s', hs'⟩ := Option.isSome_iff_exists.mp hrun
    rw [run_cons] at hs'
    obtain ⟨s₁, hop, hs'⟩ := Option.bind_eq_some_iff.mp hs'
    have hcons : ∀ pre, run step s (op :: pre) = run step s₁ pre := by
      intro pre
      rw [run_cons, hop, Option.bind_some]
    obtain ⟨hp, h₁⟩ := hstep s op s₁ hs hop (hgood [op] ⟨ops, rfl⟩ s₁ (hcons []))
    refine ⟨hp, fun s₂ hs₂ => ?_⟩
    obtain rfl : s₁ = s₂ := Option.some.inj (hop.symm.trans hs₂)
    refine ih h₁ (Option.isSome_of_eq_some hs') fun pre hpre s₃ hs₃ => ?_
    exact hgood (op :: pre) (List.cons_prefix_cons.mpr ⟨rfl, hpre⟩) s₃ ((hcons pre).trans hs₃)

theorem always_of_run {P Q : σ → α → Prop} {Inv : σ → Prop}
    (hstep : ∀ s op s', Inv s → P s op → step s op = some s' → Q s op ∧ Inv s') {s s' : σ}
    {ops : List α} (hs : Inv s) (hops : Always step P s ops) (hrun : run step s ops = some s') :
    Always step Q s ops := by
  induction ops generalizing s with
  | nil => trivial
  | cons op ops ih =>
    rw [run_cons] at hrun
    obtain ⟨s₁, hop, hrun⟩ := Option.bind_eq_some_iff.mp hrun
    obtain ⟨hq, h₁⟩ := hstep s op s₁ hs hops.1 hop
    refine ⟨hq, fun s₂ hs₂ => ?_⟩
    obtain rfl : s₁ = s₂ := Option.some.inj (hop.symm.trans hs₂)
    exact ih h₁ (hops.2 s₁ hop) hrun

end StepRun
