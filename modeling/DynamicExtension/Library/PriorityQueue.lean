import Mathlib
set_option autoImplicit false

namespace PQ

/-- A priority queue that yields a least element by `key`. Which one it yields
among elements of one key is left open, as the standard library leaves it. -/
structure PriorityQueue (α R : Type) [LinearOrder R] (key : α → R) where
  Queue : Type
  empty : Queue
  push : α → Queue → Queue
  top : Queue → Option α
  pop : Queue → Queue
  elems : Queue → Multiset α
  elems_empty : elems empty = 0
  elems_push : ∀ a q, elems (push a q) = a ::ₘ elems q
  elems_top_none : ∀ q, top q = none → elems q = 0
  elems_pop : ∀ a q, top q = some a → elems q = a ::ₘ elems (pop q)
  top_le : ∀ a q, top q = some a → ∀ b ∈ elems q, key a ≤ key b

namespace PriorityQueue
variable {α R : Type} [LinearOrder R] {key : α → R}

attribute [simp] elems_empty elems_push

theorem top_mem (pq : PriorityQueue α R key) {a : α} {q : pq.Queue}
    (h : pq.top q = some a) : a ∈ pq.elems q := by
  rw [pq.elems_pop a q h]
  exact Multiset.mem_cons_self a _

theorem mem_of_mem_pop (pq : PriorityQueue α R key) {a b : α} {q : pq.Queue}
    (h : pq.top q = some a) (hb : b ∈ pq.elems (pq.pop q)) : b ∈ pq.elems q := by
  rw [pq.elems_pop a q h]
  exact Multiset.mem_cons_of_mem hb

theorem top_eq_none_iff (pq : PriorityQueue α R key) (q : pq.Queue) :
    pq.top q = none ↔ pq.elems q = 0 := by
  refine ⟨pq.elems_top_none q, fun h => ?_⟩
  cases ht : pq.top q with
  | none => rfl
  | some a =>
    have hm := pq.top_mem ht
    rw [h] at hm
    exact absurd hm (Multiset.notMem_zero a)

theorem exists_top (pq : PriorityQueue α R key) {q : pq.Queue} (h : 0 < (pq.elems q).card) :
    ∃ a, pq.top q = some a := by
  cases htop : pq.top q with
  | some a => exact ⟨a, rfl⟩
  | none =>
    rw [pq.elems_top_none q htop] at h
    exact absurd h (lt_irrefl _)

def size (pq : PriorityQueue α R key) (q : pq.Queue) : Nat := (pq.elems q).card

/-- The queue seen through a coarser key -/
def coarsen {S : Type} [LinearOrder S] (pq : PriorityQueue α R key) (key' : α → S)
    (hmono : ∀ a b, key a ≤ key b → key' a ≤ key' b) : PriorityQueue α S key' where
  Queue := pq.Queue
  empty := pq.empty
  push := pq.push
  top := pq.top
  pop := pq.pop
  elems := pq.elems
  elems_empty := pq.elems_empty
  elems_push := pq.elems_push
  elems_top_none := pq.elems_top_none
  elems_pop := pq.elems_pop
  top_le a q h b hb := hmono a b (pq.top_le a q h b hb)

/-- The queue kept as a list in key order. -/
def sorted (key : α → R) : PriorityQueue α R key where
  Queue := {l : List α // l.Pairwise (fun a b => key a ≤ key b)}
  empty := ⟨[], List.Pairwise.nil⟩
  push a q := ⟨q.1.orderedInsert (fun a b => key a ≤ key b) a, by
    have : Std.Total (fun a b : α => key a ≤ key b) := ⟨fun a b => le_total _ _⟩
    have : IsTrans α (fun a b => key a ≤ key b) := ⟨fun _ _ _ h₁ h₂ => le_trans h₁ h₂⟩
    exact q.2.orderedInsert a q.1⟩
  top q := q.1.head?
  pop q := ⟨q.1.tail, q.2.tail⟩
  elems q := (q.1 : Multiset α)
  elems_empty := rfl
  elems_push a q := Multiset.coe_eq_coe.mpr (List.perm_orderedInsert _ a q.1)
  elems_top_none := by
    rintro ⟨l, hl⟩ h
    cases l with
    | nil => rfl
    | cons a t => simp at h
  elems_pop := by
    rintro a ⟨l, hl⟩ h
    cases l with
    | nil => simp at h
    | cons b t =>
      simp only [List.head?_cons, Option.some.injEq] at h
      subst h
      rfl
  top_le := by
    rintro a ⟨l, hl⟩ h b hb
    cases l with
    | nil => simp at h
    | cons c t =>
      simp only [List.head?_cons, Option.some.injEq] at h
      subst h
      rcases List.mem_cons.mp (Multiset.mem_coe.mp hb) with rfl | hb
      · exact le_refl _
      · exact (List.pairwise_cons.mp hl).1 b hb

/-- What leaves the queue in `n` pops -/
def drainLoop (pq : PriorityQueue α R key) : Nat → pq.Queue → List α
  | 0, _ => []
  | n + 1, q => match pq.top q with
    | none => []
    | some a => a :: drainLoop pq n (pq.pop q)

/-- Everything in the queue, as it leaves the queue -/
def drain (pq : PriorityQueue α R key) (q : pq.Queue) : List α := pq.drainLoop (pq.size q) q

theorem coe_drainLoop (pq : PriorityQueue α R key) (n : Nat) (q : pq.Queue)
    (h : (pq.elems q).card = n) : (pq.drainLoop n q : Multiset α) = pq.elems q := by
  induction n generalizing q with
  | zero => rw [Multiset.card_eq_zero.mp h]; rfl
  | succ n ih =>
    cases htop : pq.top q with
    | none => simp [pq.elems_top_none q htop] at h
    | some a =>
      have helems := pq.elems_pop a q htop
      have hcard : (pq.elems (pq.pop q)).card = n := by
        rw [helems, Multiset.card_cons] at h
        exact Nat.succ_injective h
      rw [drainLoop, htop, helems, ← ih (pq.pop q) hcard]
      rfl

theorem coe_drain (pq : PriorityQueue α R key) (q : pq.Queue) :
    (pq.drain q : Multiset α) = pq.elems q := pq.coe_drainLoop _ q rfl

end PriorityQueue

end PQ
