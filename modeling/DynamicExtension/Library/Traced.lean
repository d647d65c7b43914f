import Mathlib.Data.List.Basic
import Mathlib.Data.Option.Basic
set_option autoImplicit false

/-- A computation that may fail, with the steps it has made when it ends or fails -/
structure Traced (σ α : Type) where
  steps : List σ
  result : Option α

namespace Traced

/-! A program whose effects are listed next to its result. -/

variable {σ α β : Type}

instance : Monad (Traced σ) where
  pure a := ⟨[], some a⟩
  bind x f :=
    match x.result with
    | none => ⟨x.steps, none⟩
    | some a => ⟨x.steps ++ (f a).steps, (f a).result⟩

def step (s : σ) : Traced σ Unit := ⟨[s], some ()⟩

/-- A part of the program that makes no step -/
def ofOption (a : Option α) : Traced σ α := ⟨[], a⟩

/-- The program on an object that may be absent -/
def onSome (f : α → Traced σ α) : Option α → Traced σ (Option α)
  | none => pure none
  | some a => do return some (← f a)

@[simp] theorem steps_pure (a : α) : (pure a : Traced σ α).steps = [] := rfl

@[simp] theorem result_pure (a : α) : (pure a : Traced σ α).result = some a := rfl

@[simp] theorem steps_step (s : σ) : (step s).steps = [s] := rfl

@[simp] theorem result_step (s : σ) : (step s).result = some () := rfl

@[simp] theorem steps_ofOption (a : Option α) : (ofOption a : Traced σ α).steps = [] := rfl

@[simp] theorem result_ofOption (a : Option α) : (ofOption a : Traced σ α).result = a := rfl

@[simp] theorem result_bind (x : Traced σ α) (f : α → Traced σ β) :
    (x >>= f).result = x.result.bind fun a => (f a).result := by
  obtain ⟨steps, result⟩ := x
  cases result <;> rfl

theorem steps_bind_some {x : Traced σ α} {a : α} (h : x.result = some a) (f : α → Traced σ β) :
    (x >>= f).steps = x.steps ++ (f a).steps := by
  obtain ⟨steps, result⟩ := x
  obtain rfl : result = some a := h
  rfl

theorem steps_bind_none {x : Traced σ α} (h : x.result = none) (f : α → Traced σ β) :
    (x >>= f).steps = x.steps := by
  obtain ⟨steps, result⟩ := x
  obtain rfl : result = none := h
  rfl

@[simp] theorem pure_bind (a : α) (f : α → Traced σ β) : (pure a : Traced σ α) >>= f = f a := rfl

theorem ofOption_bind {x : Option α} {a : α} (h : x = some a) (f : α → Traced σ β) :
    (ofOption x : Traced σ α) >>= f = f a := by
  subst h
  rfl

theorem result_foldlM (f : β → α → Traced σ β) (b : β) (as : List α) :
    (as.foldlM f b).result = as.foldlM (fun b a => (f b a).result) b := by
  induction as generalizing b with
  | nil => rfl
  | cons a as ih =>
    rw [List.foldlM_cons, List.foldlM_cons, result_bind]
    exact congrArg _ (funext fun b => ih b)

theorem foldlM_append (f : β → α → Traced σ β) {b b' : β} (as bs : List α)
    (h : (as.foldlM f b).result = some b') :
    ((as ++ bs).foldlM f b).steps = (as.foldlM f b).steps ++ (bs.foldlM f b').steps := by
  induction as generalizing b with
  | nil =>
    obtain rfl : b = b' := Option.some.inj h
    rfl
  | cons a as ih =>
    rw [List.foldlM_cons, result_bind] at h
    obtain ⟨b₁, hb₁, h⟩ := Option.bind_eq_some_iff.mp h
    rw [List.cons_append, List.foldlM_cons, List.foldlM_cons, steps_bind_some hb₁,
      steps_bind_some hb₁, ih h, List.append_assoc]

theorem result_onSome {f : α → Traced σ α} {g : α → α} (h : ∀ a, (f a).result = some (g a))
    (a : Option α) : (onSome f a).result = some (a.map g) := by
  cases a with
  | none => rfl
  | some a =>
    rw [onSome, result_bind, h]
    rfl

theorem steps_onSome (f : α → Traced σ α) (a : α) : (onSome f (some a)).steps = (f a).steps := by
  rw [onSome]
  cases h : (f a).result with
  | none => rw [steps_bind_none h]
  | some a' => rw [steps_bind_some h, steps_pure, List.append_nil]

end Traced
