import DynamicExtension.Library.PriorityQueue
set_option autoImplicit false

namespace KWay
open PQ

/-- What the queue of a k-way merge holds: an element and the source it is from. -/
structure Node (α : Type) where
  item : α
  source : Nat
  deriving DecidableEq, Repr

section Machine
variable {α R : Type} [LinearOrder R] {key : α → R}
variable (pq : PriorityQueue (Node α) R (fun n => key n.item))

/-- The part of each source not yet in the queue, and the queue. -/
structure State where
  rest : List (List α)
  heap : pq.Queue

variable {pq}

def State.refill (i : Nat) (st : State pq) : State pq :=
  match st.rest[i]? with
  | some (a :: t) => ⟨st.rest.set i t, pq.push ⟨a, i⟩ st.heap⟩
  | _ => st

/-- One pop, with the next element of the popped source pushed. -/
def State.next (st : State pq) : Option (α × State pq) :=
  match pq.top st.heap with
  | none => none
  | some n => some (n.item, State.refill n.source ⟨st.rest, pq.pop st.heap⟩)

def State.content (st : State pq) : Multiset α :=
  (pq.elems st.heap).map Node.item + (st.rest.flatten : Multiset α)

/-- Source `i` is sorted, and an element of it that is no greater than the
unread ones is in the queue. -/
def State.ReadyAt (st : State pq) (i : Nat) : Prop :=
  ∀ l, st.rest[i]? = some l →
    l.Pairwise (fun a b => key a ≤ key b) ∧
    ∀ a ∈ l, ∃ n ∈ pq.elems st.heap, n.source = i ∧ key n.item ≤ key a

def State.Ready (st : State pq) : Prop := ∀ i, st.ReadyAt i

def State.drain : Nat → State pq → List α
  | 0, _ => []
  | n+1, st => match st.next with
    | none => []
    | some (a, st') => a :: State.drain n st'

/-- The order in which the whole content leaves the queue. -/
def State.order (st : State pq) : List α := State.drain st.content.card st

def start (pq : PriorityQueue (Node α) R (fun n => key n.item)) (srcs : List (List α)) :
    State pq :=
  (List.range srcs.length).foldl (fun st i => st.refill i) ⟨srcs, pq.empty⟩

theorem flatten_set_tail (srcs : List (List α)) (i : Nat) (a : α) (t : List α)
    (h : srcs[i]? = some (a :: t)) :
    (srcs.flatten : Multiset α) = a ::ₘ ((srcs.set i t).flatten : Multiset α) := by
  induction srcs generalizing i with
  | nil => simp at h
  | cons s srcs ih =>
    cases i with
    | zero =>
      simp only [List.getElem?_cons_zero, Option.some.injEq] at h
      subst h
      simp
    | succ i =>
      have h' : srcs[i]? = some (a :: t) := by simpa using h
      have hi := ih i h'
      rw [List.set_cons_succ, List.flatten_cons, List.flatten_cons, ← Multiset.coe_add, hi,
        ← Multiset.coe_add, Multiset.add_cons]

theorem State.content_refill (st : State pq) (i : Nat) : (st.refill i).content = st.content := by
  unfold State.refill
  split
  · rename_i a t h
    simp only [State.content, pq.elems_push, Multiset.map_cons]
    rw [flatten_set_tail st.rest i a t h, Multiset.cons_add, Multiset.add_cons]
  · rfl

theorem State.content_pop (st : State pq) {n : Node α} (h : pq.top st.heap = some n) :
    st.content = n.item ::ₘ State.content (⟨st.rest, pq.pop st.heap⟩ : State pq) := by
  rw [State.content, State.content, pq.elems_pop n st.heap h, Multiset.map_cons, Multiset.cons_add]

theorem State.content_next {st st' : State pq} {a : α} (h : st.next = some (a, st')) :
    st.content = a ::ₘ st'.content := by
  unfold State.next at h
  cases ht : pq.top st.heap with
  | none => simp [ht] at h
  | some n =>
    simp only [ht, Option.some.injEq, Prod.mk.injEq] at h
    obtain ⟨rfl, rfl⟩ := h
    rw [State.content_refill, State.content_pop st ht]

theorem State.readyAt_refill (st : State pq) (i : Nat)
    (h : ∀ l, st.rest[i]? = some l → l.Pairwise (fun a b => key a ≤ key b))
    (hw : st.rest[i]? = some [] ∨ st.rest[i]? = none ∨ ∃ a t, st.rest[i]? = some (a :: t)) :
    (st.refill i).ReadyAt i := by
  intro l hl
  unfold State.refill at hl ⊢
  rcases hw with hw | hw | ⟨a, t, hw⟩
  · simp only [hw, Option.some.injEq] at hl ⊢
    subst hl
    simp
  · simp [hw] at hl
  · have hlt : i < st.rest.length := (List.getElem?_eq_some_iff.mp hw).1
    simp only [hw] at hl ⊢
    rw [List.getElem?_set_self hlt, Option.some.injEq] at hl
    subst hl
    have hp := List.pairwise_cons.mp (h _ hw)
    refine ⟨hp.2, fun b hb => ⟨⟨a, i⟩, by simp, rfl, hp.1 b hb⟩⟩

theorem State.readyAt_refill_of_ne {st : State pq} {i j : Nat} (hij : i ≠ j)
    (h : st.ReadyAt j) : (st.refill i).ReadyAt j := by
  intro l hl
  unfold State.refill at hl ⊢
  split at hl
  · rename_i a t _
    rw [List.getElem?_set_ne hij] at hl
    obtain ⟨hs, hn⟩ := h l hl
    refine ⟨hs, fun b hb => ?_⟩
    obtain ⟨n, hn, hsrc, hle⟩ := hn b hb
    exact ⟨n, by simp [hn], hsrc, hle⟩
  · exact h l hl

theorem getElem?_cases (l : List (List α)) (i : Nat) :
    l[i]? = some [] ∨ l[i]? = none ∨ ∃ a t, l[i]? = some (a :: t) := by
  cases h : l[i]? with
  | none => simp
  | some s => cases s <;> simp

theorem State.readyAt_pop {st : State pq} {n : Node α} (hn : pq.top st.heap = some n) {j : Nat}
    (hj : n.source ≠ j) (h : st.ReadyAt j) :
    State.ReadyAt (⟨st.rest, pq.pop st.heap⟩ : State pq) j := by
  intro l hl
  obtain ⟨hs, hq⟩ := h l hl
  refine ⟨hs, fun b hb => ?_⟩
  obtain ⟨m, hm, hsrc, hle⟩ := hq b hb
  -- the popped node is from another source, so the witness is still queued
  rw [pq.elems_pop n st.heap hn, Multiset.mem_cons] at hm
  rcases hm with rfl | hm
  · exact absurd hsrc hj
  · exact ⟨m, hm, hsrc, hle⟩

theorem State.ready_next {st st' : State pq} {a : α} (hr : st.Ready)
    (h : st.next = some (a, st')) : st'.Ready := by
  unfold State.next at h
  cases ht : pq.top st.heap with
  | none => simp [ht] at h
  | some n =>
    simp only [ht, Option.some.injEq, Prod.mk.injEq] at h
    obtain ⟨-, rfl⟩ := h
    intro i
    by_cases hi : n.source = i
    · subst hi
      exact State.readyAt_refill _ _ (fun l hl => (hr _ l hl).1) (getElem?_cases _ _)
    · exact State.readyAt_refill_of_ne hi (State.readyAt_pop ht hi (hr i))

theorem State.top_le_content {st : State pq} (hr : st.Ready) {n : Node α}
    (ht : pq.top st.heap = some n) : ∀ b ∈ st.content, key n.item ≤ key b := by
  intro b hb
  rw [State.content, Multiset.mem_add, Multiset.mem_map, Multiset.mem_coe,
    List.mem_flatten] at hb
  rcases hb with ⟨m, hm, rfl⟩ | ⟨l, hl, hb⟩
  · exact pq.top_le n st.heap ht m hm
  · obtain ⟨i, hi⟩ := List.mem_iff_getElem?.mp hl
    obtain ⟨m, hm, -, hle⟩ := (hr i l hi).2 b hb
    exact le_trans (pq.top_le n st.heap ht m hm) hle

theorem State.next_le {st st' : State pq} {a : α} (hr : st.Ready)
    (h : st.next = some (a, st')) : ∀ b ∈ st.content, key a ≤ key b := by
  unfold State.next at h
  cases ht : pq.top st.heap with
  | none => simp [ht] at h
  | some n =>
    simp only [ht, Option.some.injEq, Prod.mk.injEq] at h
    obtain ⟨rfl, -⟩ := h
    exact State.top_le_content hr ht

theorem State.content_eq_zero {st : State pq} (hr : st.Ready) (h : st.next = none) :
    st.content = 0 := by
  unfold State.next at h
  cases ht : pq.top st.heap with
  | some n => simp [ht] at h
  | none =>
    have hz := pq.elems_top_none st.heap ht
    rw [State.content, hz, Multiset.map_zero, zero_add, Multiset.coe_eq_zero,
      List.flatten_eq_nil_iff]
    intro l hl
    obtain ⟨i, hi⟩ := List.mem_iff_getElem?.mp hl
    refine List.eq_nil_iff_forall_not_mem.mpr fun b hb => ?_
    obtain ⟨m, hm, -⟩ := (hr i l hi).2 b hb
    rw [hz] at hm
    exact Multiset.notMem_zero m hm

theorem State.order_of_next_none {st : State pq} (h : st.next = none) : st.order = [] := by
  unfold State.order
  cases st.content.card with
  | zero => rfl
  | succ n => simp [State.drain, h]

theorem State.order_of_next {st st' : State pq} {a : α} (h : st.next = some (a, st')) :
    st.order = a :: st'.order := by
  unfold State.order
  rw [State.content_next h, Multiset.card_cons]
  simp [State.drain, h]

/-- The content leaves the queue whole and in key order. -/
theorem State.order_spec {st : State pq} (hr : st.Ready) :
    (st.order : Multiset α) = st.content ∧ st.order.Pairwise (fun a b => key a ≤ key b) := by
  induction hc : st.content.card generalizing st with
  | zero =>
    have hz := Multiset.card_eq_zero.mp hc
    simp [State.order, State.drain, hz]
  | succ n ih =>
    cases hn : st.next with
    | none =>
      have hz := State.content_eq_zero hr hn
      simp [hz] at hc
    | some r =>
      obtain ⟨a, st'⟩ := r
      have hcont := State.content_next hn
      obtain ⟨hperm, hsort⟩ := ih (State.ready_next hr hn) (by
        rw [hcont, Multiset.card_cons] at hc
        omega)
      rw [State.order_of_next hn]
      refine ⟨by rw [← Multiset.cons_coe, hperm, hcont], List.pairwise_cons.mpr ⟨?_, hsort⟩⟩
      intro b hb
      apply State.next_le hr hn
      rw [hcont, ← hperm]
      exact Multiset.mem_cons_of_mem (Multiset.mem_coe.mpr hb)

section Start
variable (pq) (srcs : List (List α))

theorem foldl_refill_content (is : List Nat) (st : State pq) :
    (is.foldl (fun st i => st.refill i) st).content = st.content := by
  induction is generalizing st with
  | nil => rfl
  | cons i is ih => rw [List.foldl_cons, ih, State.content_refill]

theorem start_content : (start pq srcs).content = (srcs.flatten : Multiset α) := by
  rw [start, foldl_refill_content, State.content]
  simp

end Start

/-- The first `k` refills do not touch a source from `k` on. -/
theorem foldl_refill_rest (pq : PriorityQueue (Node α) R (fun n => key n.item))
    (srcs : List (List α)) (k i : Nat) (hi : k ≤ i) :
    ((List.range k).foldl (fun st i => st.refill i)
      (⟨srcs, pq.empty⟩ : State pq)).rest[i]? = srcs[i]? := by
  induction k with
  | zero => rfl
  | succ k ih =>
    rw [List.range_succ, List.foldl_append, List.foldl_cons, List.foldl_nil, ← ih (by omega)]
    unfold State.refill
    split
    · exact List.getElem?_set_ne (by omega)
    · rfl

theorem foldl_refill_ready (srcs : List (List α))
    (hs : ∀ l ∈ srcs, l.Pairwise (fun a b => key a ≤ key b)) (k i : Nat) (hi : i < k) :
    ((List.range k).foldl (fun st i => st.refill i)
      (⟨srcs, pq.empty⟩ : State pq)).ReadyAt i := by
  induction k with
  | zero => omega
  | succ k ih =>
    have hrest := foldl_refill_rest pq srcs k k (Nat.le_refl k)
    rw [List.range_succ, List.foldl_append, List.foldl_cons, List.foldl_nil]
    by_cases hik : k = i
    · subst hik
      refine State.readyAt_refill _ k (fun l hl => ?_) (getElem?_cases _ _)
      exact hs l (List.mem_of_getElem? (hrest.symm.trans hl))
    · exact State.readyAt_refill_of_ne hik (ih (by omega))

theorem start_ready (srcs : List (List α))
    (hs : ∀ l ∈ srcs, l.Pairwise (fun a b => key a ≤ key b)) : (start pq srcs).Ready := by
  intro i
  by_cases hi : i < srcs.length
  · exact foldl_refill_ready srcs hs _ i hi
  · intro l hl
    have hend : (start pq srcs).rest[i]? = none :=
      (foldl_refill_rest pq srcs srcs.length i (by omega)).trans (List.getElem?_eq_none (by omega))
    rw [hend] at hl
    exact absurd hl.symm (Option.some_ne_none l)

/-- Every node of the queue names one of the sources. -/
def State.Sourced (st : State pq) : Prop := ∀ n ∈ pq.elems st.heap, n.source < st.rest.length

theorem State.Sourced.refill {st : State pq} (h : st.Sourced) (i : Nat) :
    (st.refill i).Sourced := by
  intro n hn
  unfold State.refill at hn ⊢
  split at hn
  · rename_i a t hi
    rw [pq.elems_push, Multiset.mem_cons] at hn
    rw [List.length_set]
    rcases hn with rfl | hn
    · exact (List.getElem?_eq_some_iff.mp hi).1
    · exact h n hn
  · exact h n hn

theorem State.Sourced.pop {st : State pq} (h : st.Sourced) {n : Node α}
    (ht : pq.top st.heap = some n) : State.Sourced (⟨st.rest, pq.pop st.heap⟩ : State pq) :=
  fun m hm => h m (pq.mem_of_mem_pop ht hm)

theorem foldl_refill_length (pq : PriorityQueue (Node α) R (fun n => key n.item))
    (is : List Nat) (st : State pq) :
    (is.foldl (fun st i => st.refill i) st).rest.length = st.rest.length := by
  induction is generalizing st with
  | nil => rfl
  | cons i is ih =>
    rw [List.foldl_cons, ih]
    unfold State.refill
    split
    · exact List.length_set
    · rfl

theorem State.Sourced.foldl {st : State pq} (h : st.Sourced) (is : List Nat) :
    (is.foldl (fun st i => st.refill i) st).Sourced := by
  induction is generalizing st with
  | nil => exact h
  | cons i is ih => exact ih (h.refill i)

theorem start_sourced (pq : PriorityQueue (Node α) R (fun n => key n.item))
    (srcs : List (List α)) : (start pq srcs).Sourced :=
  State.Sourced.foldl (by simp [State.Sourced]) _

section Coarsen
variable {S : Type} [LinearOrder S] {key' : α → S}
  {hmono : ∀ m n : Node α, key m.item ≤ key n.item → key' m.item ≤ key' n.item}

/-- The state seen through a coarser key -/
def State.coarsen (st : State pq) (key' : α → S)
    (hmono : ∀ m n : Node α, key m.item ≤ key n.item → key' m.item ≤ key' n.item) :
    State (pq.coarsen (fun n => key' n.item) hmono) := ⟨st.rest, st.heap⟩

theorem State.coarsen_refill (st : State pq) (i : Nat) :
    (st.refill i).coarsen key' hmono = (st.coarsen key' hmono).refill i := by
  simp only [State.refill, State.coarsen]
  split <;> rfl

end Coarsen

theorem next_of_top_none {st : State pq} (h : pq.top st.heap = none) : st.next = none := by
  rw [State.next, h]

end Machine

end KWay
