import DynamicExtension.InternalLevel
set_option autoImplicit false

namespace De
variable {R : Type} [DecidableEq R] {T : ShardType R}

/-- What merges leave of a collection of shards; shards without records may also
be dropped. -/
inductive Regroup (T : ShardType R) : Multiset T.Shard → Multiset T.Shard → Prop
  | refl (xs : Multiset T.Shard) : Regroup T xs xs
  | merge {zs : List T.Shard} {x : T.Shard} {rest ys : Multiset T.Shard} (hne : zs ≠ [])
      (hx : T.ofShards zs = some x) (h : Regroup T ({x} + rest) ys) : Regroup T (↑zs + rest) ys
  | drop {x : T.Shard} {rest ys : Multiset T.Shard} (hx : T.recordCount x = 0)
      (h : Regroup T rest ys) : Regroup T ({x} + rest) ys

namespace Regroup
variable {xs ys zs : Multiset T.Shard}

theorem trans (h₁ : Regroup T xs ys) (h₂ : Regroup T ys zs) : Regroup T xs zs := by
  induction h₁ with
  | refl => exact h₂
  | merge hne hx _ ih => exact merge hne hx (ih h₂)
  | drop hx _ ih => exact drop hx (ih h₂)

theorem add_right (h : Regroup T xs ys) (ms : Multiset T.Shard) :
    Regroup T (xs + ms) (ys + ms) := by
  induction h with
  | refl xs => exact refl _
  | merge hne hx _ ih =>
    rw [add_assoc] at ih ⊢
    exact merge hne hx ih
  | drop hx _ ih =>
    rw [add_assoc]
    exact drop hx ih

theorem add_left (h : Regroup T xs ys) (ms : Multiset T.Shard) :
    Regroup T (ms + xs) (ms + ys) := by
  simpa only [add_comm ms] using h.add_right ms

theorem single {zs : List T.Shard} {x : T.Shard} (hne : zs ≠ []) (hx : T.ofShards zs = some x) :
    Regroup T ↑zs {x} := by
  simpa using merge hne hx (refl ({x} + 0))

theorem drops (hx : ∀ x ∈ xs, T.recordCount x = 0) : Regroup T xs 0 := by
  induction xs using Multiset.induction with
  | empty => exact refl 0
  | cons x xs ih =>
    rw [← Multiset.singleton_add]
    exact drop (hx x (Multiset.mem_cons_self x xs))
      (ih fun y hy => hx y (Multiset.mem_cons_of_mem hy))

theorem weigh {M : Type} [AddCommMonoid M] {P : T.Shard → Prop} {f : T.Shard → M}
    (hmerge : ∀ zs x, zs ≠ [] → (∀ z ∈ zs, P z) → T.ofShards zs = some x →
      P x ∧ f x = (zs.map f).sum)
    (hdrop : ∀ x, P x → T.recordCount x = 0 → f x = 0) (h : Regroup T xs ys)
    (hxs : ∀ x ∈ xs, P x) : (∀ y ∈ ys, P y) ∧ (ys.map f).sum = (xs.map f).sum := by
  induction h with
  | refl => exact ⟨hxs, rfl⟩
  | @merge zs x rest ys hne hx _ ih =>
    have hzs : ∀ z ∈ zs, P z := fun z hz => hxs z (by simp [hz])
    obtain ⟨hpx, hfx⟩ := hmerge zs x hne hzs hx
    have hrest : ∀ y ∈ {x} + rest, P y := by
      intro y hy
      rcases Multiset.mem_add.mp hy with hy | hy
      · rwa [Multiset.mem_singleton.mp hy]
      · exact hxs y (by simp [hy])
    obtain ⟨hys, hsum⟩ := ih hrest
    exact ⟨hys, by simp [hsum, hfx]⟩
  | @drop x rest ys hx _ ih =>
    obtain ⟨hys, hsum⟩ := ih fun y hy => hxs y (by simp [hy])
    have hfx := hdrop x (hxs x (by simp)) hx
    exact ⟨hys, by simp [hsum, hfx]⟩

theorem all {P : T.Shard → Prop}
    (hmerge : ∀ zs x, zs ≠ [] → (∀ z ∈ zs, P z) → T.ofShards zs = some x → P x)
    (h : Regroup T xs ys) (hxs : ∀ x ∈ xs, P x) : ∀ y ∈ ys, P y :=
  (weigh (f := fun _ => (0 : ℕ)) (fun zs x hne hz hx => ⟨hmerge zs x hne hz hx, by simp⟩)
    (fun _ _ _ => rfl) h hxs).1

theorem count_le (h : Regroup T xs ys) :
    (ys.map T.recordCount).sum ≤ (xs.map T.recordCount).sum := by
  induction h with
  | refl => exact le_rfl
  | @merge zs x rest ys _ hx _ ih =>
    have hcount := T.ofShards_count zs x hx
    simp only [Multiset.map_add, Multiset.sum_add, Multiset.map_singleton, Multiset.sum_singleton,
      Multiset.map_coe, Multiset.sum_coe] at ih ⊢
    omega
  | drop _ _ ih =>
    simp only [Multiset.map_add, Multiset.sum_add]
    omega

theorem net (h : Regroup T xs ys) :
    (ys.map fun x => De.net (T.records x)).sum = (xs.map fun x => De.net (T.records x)).sum := by
  refine (weigh (P := fun _ => True) (fun zs x _ _ hx => ⟨trivial, T.ofShards_net zs x hx⟩) ?_ h
    fun _ _ => trivial).2
  intro x _ hx
  rw [T.recordCount_eq] at hx
  exact net_eq_zero_of_length hx

end Regroup

end De
