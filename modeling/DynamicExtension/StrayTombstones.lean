import DynamicExtension.Settling
set_option autoImplicit false

namespace De
open KWay PQ

namespace RangeQuery
variable {R : Type} [LinearOrder R]

namespace Combine
variable {pq : WrappedQueue R} {st : Combine pq} {m : State pq} {now : Node (Wrapped R)}

/-- What is left of the local results -/
def unread (st : Combine pq) : List (List (Wrapped R)) :=
  st.cursors.map fun c => c.recs.drop c.curRecIdx

theorem unread_new (pq : WrappedQueue R) (ls : List (List (Wrapped R))) :
    (new pq ls).unread = ls := by
  simp [unread, new, Function.comp_def]

theorem Reads.mem_queue_iff (h : Reads st m ∅) {n : Node (Wrapped R)} :
    n ∈ pq.elems st.queue ↔ Front st.unread n := by
  rw [← h.heap]
  constructor
  · intro hn
    obtain ⟨c, hc, hptr⟩ := h.current n hn
    obtain ⟨hlt, hget⟩ := List.getElem?_eq_some_iff.mp hptr
    refine ⟨c.recs.drop (c.curRecIdx + 1), ?_⟩
    rw [unread, List.getElem?_map, hc, Option.map_some, List.drop_eq_getElem_cons hlt, hget]
  · rintro ⟨l, hl⟩
    rw [unread, List.getElem?_map, Option.map_eq_some_iff] at hl
    obtain ⟨c, hc, hdrop⟩ := hl
    have hptr : c.ptr = some n.item := by
      rw [Cursor.ptr, ← List.head?_drop, hdrop, List.head?_cons]
    obtain ⟨n', hn', hsrc⟩ := h.loaded n.source c n.item (Set.notMem_empty _) hc hptr
    obtain ⟨c', hc', hptr'⟩ := h.current n' hn'
    rw [hsrc, hc, Option.some.injEq] at hc'
    subst hc'
    obtain rfl : n' = n := by
      cases n
      cases n'
      simp only at hsrc hptr hptr'
      rw [hsrc, Option.some.inj (hptr'.symm.trans hptr)]
    exact hn'

theorem Reads.least_of_top (h : Reads st m ∅) (hnow : pq.top st.queue = some now) :
    Least st.unread now :=
  ⟨h.mem_queue_iff.mp (pq.top_mem hnow),
    fun n hn => pq.top_le now _ hnow n (h.mem_queue_iff.mpr hn)⟩

/-- The fronts of the other local results are what a pop leaves in the queue. -/
theorem Reads.mem_pop_iff (h : Reads st m ∅) (hnow : pq.top st.queue = some now)
    {n : Node (Wrapped R)} :
    n ∈ pq.elems (pq.pop st.queue) ↔ Front st.unread n ∧ n.source ≠ now.source := by
  have hnodup := h.nodup
  rw [h.heap, pq.elems_pop now _ hnow, Multiset.map_cons, Multiset.nodup_cons] at hnodup
  rw [← h.mem_queue_iff, pq.elems_pop now _ hnow, Multiset.mem_cons]
  constructor
  · exact fun hn => ⟨.inr hn, fun heq => hnodup.1 (heq ▸ Multiset.mem_map_of_mem _ hn)⟩
  · rintro ⟨rfl | hn, hne⟩
    · exact absurd rfl hne
    · exact hn

theorem Reads.next_of_top (h : Reads st m ∅) (hnow : pq.top st.queue = some now)
    {next : Node (Wrapped R)} (hnext : pq.top (pq.pop st.queue) = some next) :
    Next st.unread now next := by
  obtain ⟨hfront, hother⟩ := (h.mem_pop_iff hnow).mp (pq.top_mem hnext)
  exact ⟨hfront, hother, fun n hn hne =>
    pq.top_le next _ hnext n ((h.mem_pop_iff hnow).mpr ⟨hn, hne⟩)⟩

/-- A copy of the next front decides what a turn does. -/
theorem Reads.exists_top_pop (h : Reads st m ∅) (hnow : pq.top st.queue = some now)
    {next : Node (Wrapped R)} (hnext : Next st.unread now next) :
    ∃ next', pq.top (pq.pop st.queue) = some next' ∧ Next st.unread now next' ∧
      next'.item = next.item := by
  have hmem := (h.mem_pop_iff hnow).mpr ⟨hnext.front, hnext.other⟩
  obtain ⟨next', htop⟩ := pq.exists_top
    (Multiset.card_pos.mpr fun hzero => absurd (hzero ▸ hmem) (Multiset.notMem_zero _))
  have hnext' := h.next_of_top hnow htop
  exact ⟨next', htop, hnext', hnext'.item_eq hnext⟩

/-- An advance drops a front, and does no pop. -/
theorem advance_unread {st' : Combine pq} {n : Node (Wrapped R)}
    (h : st.advance n.source = some st') : st'.unread = dropFront st.unread n ∧
      ∀ f : pq.Queue → Nat, (∀ a q, f (pq.push a q) = f q) → f st'.queue = f st.queue := by
  unfold advance at h
  obtain ⟨c, hc, h⟩ := Option.bind_eq_some_iff.mp h
  have hunread : (st.cursors.set n.source { c with curRecIdx := c.curRecIdx + 1 }).map
      (fun c => c.recs.drop c.curRecIdx) = dropFront st.unread n := by
    rw [dropFront, unread, List.map_set, ← List.tail_drop]
    refine List.ext_getElem? fun j => ?_
    by_cases hj : n.source = j
    · subst hj
      obtain ⟨hlt, -⟩ := List.getElem?_eq_some_iff.mp hc
      rw [List.getElem?_set_self (by simpa using hlt), List.getElem?_modify_eq, List.getElem?_map,
        hc]
      rfl
    · rw [List.getElem?_set_ne hj, List.getElem?_modify_ne _ _ hj]
  by_cases hmore : c.curRecIdx + 1 < c.recs.length
  · simp only [Cursor.advance, hmore, decide_true, if_true] at h
    obtain ⟨w, -, h⟩ := Option.bind_eq_some_iff.mp h
    obtain rfl := Option.some.inj h
    exact ⟨hunread, fun f hf => hf _ _⟩
  · simp only [Cursor.advance, hmore, decide_false, Bool.false_eq_true, if_false] at h
    obtain rfl := Option.some.inj h
    exact ⟨hunread, fun f hf => rfl⟩

/-- A turn reads a pair or a single record. -/
theorem Reads.turn_unread (h : Reads st m ∅) (hnow : pq.top st.queue = some now) :
    ∃ st' m', st.turn now = some st' ∧ Reads st' m' ∅ ∧
      ((∃ next, pq.top (pq.pop st.queue) = some next ∧ Erases next.item now.item ∧
        st'.unread = dropFront (dropFront st.unread now) next ∧
        ∀ f : pq.Queue → Nat, (∀ a q, f (pq.push a q) = f q) →
          f st'.queue = f (pq.pop (pq.pop st.queue))) ∨
      (∀ next, Next st.unread now next → ¬ Erases next.item now.item) ∧
        st'.unread = dropFront st.unread now ∧
        ∀ f : pq.Queue → Nat, (∀ a q, f (pq.push a q) = f q) →
          f st'.queue = f (pq.pop st.queue)) := by
  obtain ⟨st', m', hturn, h', -⟩ := h.turn (by rwa [h.heap])
  refine ⟨st', m', hturn, h', ?_⟩
  unfold Combine.turn at hturn
  cases hnext : (pq.top (pq.pop st.queue)).filter fun next => !now.item.isTombstone ∧
      now.item.record = next.item.record ∧ next.item.isTombstone with
  | some next =>
    obtain ⟨htop, hcond⟩ := Option.filter_eq_some_iff.mp hnext
    simp only [Bool.not_eq_true', decide_eq_true_eq] at hcond
    simp only [hnext] at hturn
    obtain ⟨st₁, hst₁, hst'⟩ := Option.bind_eq_some_iff.mp hturn
    obtain ⟨hread₁, hpops₁⟩ := advance_unread hst₁
    obtain ⟨hread, hpops⟩ := advance_unread hst'
    exact .inl ⟨next, htop, hcond, by rw [hread, hread₁]; rfl,
      fun f hf => (hpops f hf).trans (hpops₁ f hf)⟩
  | none =>
    simp only [hnext] at hturn
    obtain ⟨c, -, hturn⟩ := Option.bind_eq_some_iff.mp hturn
    obtain ⟨out, hst'⟩ : ∃ out, Combine.advance
        { st with output := out, queue := pq.pop st.queue } now.source = some st' := by
      split at hturn
      · exact ⟨st.output, hturn⟩
      · obtain ⟨out, -, hst'⟩ := Option.bind_eq_some_iff.mp hturn
        exact ⟨out, hst'⟩
    obtain ⟨hread, hpops⟩ := advance_unread hst'
    refine .inr ⟨fun next hn herases => ?_, hread, hpops⟩
    obtain ⟨next', htop, -, hitem⟩ := h.exists_top_pop hnow hn
    rw [htop, Option.filter_eq_none_iff] at hnext
    have := hnext next' rfl
    rw [hitem] at this
    simp [herases.1, herases.2.1, herases.2.2] at this

/-- If the local results settle, no queue finds a tombstone first. -/
theorem noStray_of_settles {ls : List (List (Wrapped R))} (hs : Settles ls) (h : Reads st m ∅)
    (hls : st.unread = ls) : st.NoStray := by
  induction hs generalizing st m with
  | @intro ls live pair single ihPair ihSingle =>
    subst hls
    cases hnow : pq.top st.queue with
    | none => exact noStray_of_empty hnow
    | some now =>
      have hleast := h.least_of_top hnow
      obtain ⟨st', m', hturn, h', hread⟩ := h.turn_unread hnow
      refine (noStray_turn hnow hturn).mpr ⟨live now hleast, ?_⟩
      rcases hread with ⟨next, hnext, herases, hread, -⟩ | ⟨hnone, hread, -⟩
      · exact ihPair now next hleast (h.next_of_top hnow hnext) herases h' hread
      · exact ihSingle now hleast hnone h' hread

/-- A queue that breaks its next ties by these wishes has the loop find a tombstone first. -/
def Misleads (ls : List (List (Wrapped R))) (ws : List (Node (Wrapped R))) : Prop :=
  ∀ (wish : Nat → Option (Node (Wrapped R)))
    (st : Combine (PriorityQueue.told (fun n => n.item.order) wish : WrappedQueue R))
    (m : State (PriorityQueue.told (fun n => n.item.order) wish : WrappedQueue R)),
    Reads st m ∅ → st.unread = ls →
    (∀ k a, ws[k]? = some a → wish (PriorityQueue.pops st.queue + k) = some a) → ¬ st.NoStray

section Wishes
variable {ls : List (List (Wrapped R))} {next : Node (Wrapped R)} {ws : List (Node (Wrapped R))}
  {wish : Nat → Option (Node (Wrapped R))}
  {st : Combine (PriorityQueue.told (fun n => n.item.order) wish : WrappedQueue R)}
  {m : State (PriorityQueue.told (fun n => n.item.order) wish : WrappedQueue R)}

theorem Reads.top_of_wish (h : Reads st m ∅) (hnow : Least st.unread now)
    (hwish : ∀ k a, (now :: ws)[k]? = some a → wish (PriorityQueue.pops st.queue + k) = some a) :
    PriorityQueue.top _ st.queue = some now :=
  PriorityQueue.top_told (hwish 0 now rfl)
    ⟨h.mem_queue_iff.mpr hnow.front, fun n hn => hnow.le n (h.mem_queue_iff.mp hn)⟩

theorem Reads.top_pop_of_wish (h : Reads st m ∅)
    (htop : PriorityQueue.top _ st.queue = some now) (hnext : Next st.unread now next)
    (hwish : ∀ k a, (now :: next :: ws)[k]? = some a →
      wish (PriorityQueue.pops st.queue + k) = some a) :
    PriorityQueue.top _ (PriorityQueue.pop _ st.queue) = some next := by
  refine PriorityQueue.top_told ?_ ⟨(h.mem_pop_iff htop).mpr ⟨hnext.front, hnext.other⟩,
    fun n hn => ?_⟩
  · rw [PriorityQueue.pops_pop htop]
    exact hwish 1 next rfl
  · obtain ⟨hfront, hother⟩ := (h.mem_pop_iff htop).mp hn
    exact hnext.le n hfront hother

theorem misleads_tombstone (hnow : Least ls now) (htomb : now.item.isTombstone ≠ false) :
    Misleads ls [now] := by
  rintro wish st m h rfl hwish hno
  have htop := h.top_of_wish hnow hwish
  obtain ⟨st', m', hturn, -⟩ := h.turn_unread htop
  exact htomb ((noStray_turn htop hturn).mp hno).1

theorem Misleads.single (hnow : Least ls now)
    (hnone : ∀ next, Next ls now next → ¬ Erases next.item now.item)
    (hws : Misleads (dropFront ls now) ws) : Misleads ls (now :: ws) := by
  rintro wish st m h rfl hwish hno
  have htop := h.top_of_wish hnow hwish
  obtain ⟨st', m', hturn, h', hread⟩ := h.turn_unread htop
  rcases hread with ⟨next, hnext, herases, -⟩ | ⟨-, hread, hpops⟩
  · exact hnone next (h.next_of_top htop hnext) herases
  · refine hws wish st' m' h' hread (fun k a ha => ?_) ((noStray_turn htop hturn).mp hno).2
    rw [hpops PriorityQueue.pops PriorityQueue.pops_push, PriorityQueue.pops_pop htop,
      Nat.add_right_comm]
    exact hwish (k + 1) a ha

theorem Misleads.pair (hnow : Least ls now) (hnext : Next ls now next)
    (herases : Erases next.item now.item)
    (hws : Misleads (dropFront (dropFront ls now) next) ws) :
    Misleads ls (now :: next :: ws) := by
  rintro wish st m h rfl hwish hno
  have htop := h.top_of_wish hnow hwish
  have htop' := h.top_pop_of_wish htop hnext hwish
  obtain ⟨st', m', hturn, h', hread⟩ := h.turn_unread htop
  rcases hread with ⟨next', hnext', -, hread, hpops⟩ | ⟨hnone, -⟩
  · obtain rfl : next = next' := Option.some.inj (htop'.symm.trans hnext')
    refine hws wish st' m' h' hread (fun k a ha => ?_) ((noStray_turn htop hturn).mp hno).2
    have hk : PriorityQueue.pops st.queue + 1 + 1 + k =
        PriorityQueue.pops st.queue + (k + 2) := by omega
    rw [hpops PriorityQueue.pops PriorityQueue.pops_push, PriorityQueue.pops_pop htop',
      PriorityQueue.pops_pop htop, hk]
    exact hwish (k + 2) a ha
  · exact hnone next hnext herases

end Wishes

/-- Where the local results do not settle, some way to break ties finds a tombstone first. -/
theorem exists_misleads (ls : List (List (Wrapped R))) (hs : ¬ Settles ls) :
    ∃ ws, Misleads ls ws := by
  induction hn : (ls.map List.length).sum using Nat.strong_induction_on generalizing ls with
  | _ n ih =>
  subst hn
  by_cases hlive : ∀ now, Least ls now → now.item.isTombstone = false
  · by_cases hpair : ∀ now next, Least ls now → Next ls now next → Erases next.item now.item →
        Settles (dropFront (dropFront ls now) next)
    · -- a record that is read by itself leaves lists that do not settle
      obtain ⟨now, hnow, hnone, hdrop⟩ : ∃ now, Least ls now ∧
          (∀ next, Next ls now next → ¬ Erases next.item now.item) ∧
          ¬ Settles (dropFront ls now) := by
        by_contra hall
        push Not at hall
        exact hs (.intro hlive hpair hall)
      obtain ⟨ws, hws⟩ := ih _ hnow.front.sum_lt _ hdrop rfl
      exact ⟨_, hws.single hnow hnone⟩
    · -- a pair that is read leaves lists that do not settle
      push Not at hpair
      obtain ⟨now, next, hnow, hnext, herases, hdrop⟩ := hpair
      have hlt := (hnext.front.dropFront_of_ne hnext.other).sum_lt.trans hnow.front.sum_lt
      obtain ⟨ws, hws⟩ := ih _ hlt _ hdrop rfl
      exact ⟨_, hws.pair hnow hnext herases⟩
  · push Not at hlive
    obtain ⟨now, hnow, htomb⟩ := hlive
    exact ⟨_, misleads_tombstone hnow htomb⟩

/-- Nothing is popped before the loop. -/
theorem queue_new (pq : WrappedQueue R) (ls : List (List (Wrapped R))) (f : pq.Queue → Nat)
    (hf : ∀ a q, f (pq.push a q) = f q) : f (new pq ls).queue = f pq.empty := by
  have hfold : ∀ g : pq.Queue → Nat → pq.Queue, (∀ q i, f (g q i) = f q) →
      ∀ (is : List Nat) (q : pq.Queue), f (is.foldl g q) = f q := by
    intro g hg is
    induction is with
    | nil => exact fun q => rfl
    | cons i is ih =>
      intro q
      rw [List.foldl_cons, ih, hg]
  refine hfold _ (fun q i => ?_) _ _
  split
  · exact hf _ q
  · rfl

/-- The local results settle if and only if no queue at all finds a tombstone first. -/
theorem forall_noStray_iff (ls : List (List (Wrapped R))) :
    (∀ pq : WrappedQueue R, (new pq ls).NoStray) ↔ Settles ls := by
  constructor
  · intro h
    by_contra hs
    obtain ⟨ws, hws⟩ := exists_misleads ls hs
    refine hws (fun k => ws[k]?) (new _ ls) _ (reads_new _ ls).1 (unread_new _ ls)
      (fun k a ha => ?_) (h _)
    rw [queue_new _ ls PriorityQueue.pops PriorityQueue.pops_push, PriorityQueue.pops_empty,
      Nat.zero_add]
    exact ha
  · exact fun hs pq => noStray_of_settles hs (reads_new pq ls).1 (unread_new pq ls)

end Combine

end RangeQuery

end De
