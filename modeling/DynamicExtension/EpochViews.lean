import DynamicExtension.Extension
set_option autoImplicit false

namespace De
variable {R : Type} [DecidableEq R] {T : ShardType R} {L : LayoutPolicy}

/-- Where the one reconstruction stands: not begun, working on the next epoch, or
past the first, second or third part of `advance_epoch`. -/
inductive Phase where
  | idle
  | building
  | retired
  | moved
  | advanced
  deriving DecidableEq, Repr

/-- The framework with the pins that jobs hold and the heads of the open views -/
structure EpochSystem (T : ShardType R) (L : LayoutPolicy) where
  ext : DynamicExtension T L
  phase : Phase
  pins : Multiset (Epoch T L)
  views : Multiset Nat

namespace DynamicExtension
variable {d d' : DynamicExtension T L} {e : Epoch T L}

theorem getActiveEpoch_cases (h : d.getActiveEpoch = some (e, d')) :
    (d.currentEpoch.epoch = some e ∧
      d' = { d with currentEpoch := ⟨some e, d.currentEpoch.refcnt + 1⟩ }) ∨
    (d.currentEpoch.epoch = none ∧ d.previousEpoch.epoch = some e ∧
      d' = { d with previousEpoch := ⟨some e, d.previousEpoch.refcnt + 1⟩ }) := by
  unfold getActiveEpoch at h
  cases hc : d.currentEpoch.epoch with
  | none =>
    rw [hc] at h
    obtain ⟨p, hp, heq⟩ := Option.map_eq_some_iff.mp h
    obtain ⟨rfl, rfl⟩ := Prod.mk.inj heq
    exact .inr ⟨rfl, hp, rfl⟩
  | some c =>
    rw [hc] at h
    obtain ⟨rfl, rfl⟩ := Prod.mk.inj (Option.some.inj h)
    exact .inl ⟨rfl, rfl⟩

theorem endJob_cases (h : d.endJob e = some d') :
    (d.previousEpoch.epoch.map Epoch.number = some e.number ∧
      d' = { d with
        previousEpoch := { d.previousEpoch with refcnt := d.previousEpoch.refcnt - 1 } }) ∨
    (d.previousEpoch.epoch.map Epoch.number ≠ some e.number ∧
      d' = { d with
        currentEpoch := { d.currentEpoch with refcnt := d.currentEpoch.refcnt - 1 } }) := by
  unfold endJob at h
  split at h
  · rename_i hp
    obtain ⟨-, -, h⟩ := Option.bind_eq_some_iff.mp h
    exact .inl ⟨hp, (Option.some.inj h).symm⟩
  · rename_i hp
    obtain ⟨-, -, h⟩ := Option.bind_eq_some_iff.mp h
    obtain ⟨-, -, h⟩ := Option.bind_eq_some_iff.mp h
    exact .inr ⟨hp, (Option.some.inj h).symm⟩

theorem retireEpoch_cases (h : d.retireEpoch = some d') :
    (d.previousEpoch.epoch = none ∧ d' = d) ∨
    (d.previousEpoch.refcnt = 0 ∧ d' = { d with previousEpoch := ⟨none, 0⟩ }) := by
  unfold retireEpoch at h
  split at h
  · rename_i hnone
    exact .inl ⟨Option.isNone_iff_eq_none.mp hnone, (Option.some.inj h).symm⟩
  · obtain ⟨_, hguard, h⟩ := Option.bind_eq_some_iff.mp h
    rw [Option.guard_eq_some'] at hguard
    exact .inr ⟨hguard, (Option.some.inj h).symm⟩

theorem buffer_createNewEpoch (h : d.createNewEpoch = some d') : d'.buffer = d.buffer := by
  obtain ⟨-, -, h⟩ := Option.bind_eq_some_iff.mp h
  obtain ⟨⟨e, d₁⟩, hd₁, h⟩ := Option.bind_eq_some_iff.mp h
  have h₁ : d₁.buffer = d.buffer := by
    obtain ⟨-, rfl⟩ | ⟨-, -, rfl⟩ := getActiveEpoch_cases hd₁ <;> rfl
  obtain ⟨-, rfl⟩ | ⟨-, rfl⟩ := endJob_cases h <;> exact h₁

theorem buffer_advanceEpoch [Zero R] {newHead : Nat} (h : d.advanceEpoch newHead = some d') :
    d'.buffer.head = ⟨newHead, 0⟩ ∧
      d'.buffer.wal = d.buffer.wal.map fun w => w.flushBegin.flushComplete := by
  obtain ⟨d₁, hd₁, h⟩ := Option.bind_eq_some_iff.mp h
  have h₁ : d₁.buffer = d.buffer := by
    obtain ⟨-, rfl⟩ | ⟨-, rfl⟩ := retireEpoch_cases hd₁ <;> rfl
  obtain ⟨next, -, h⟩ := Option.bind_eq_some_iff.mp h
  obtain ⟨⟨advanced, b⟩, hb, h⟩ := Option.bind_eq_some_iff.mp h
  obtain ⟨_, hguard, h⟩ := Option.bind_eq_some_iff.mp h
  obtain rfl := Option.some.inj h
  obtain rfl : advanced = true := by
    cases advanced
    · simp [guard] at hguard
    · rfl
  obtain ⟨-, -, rfl⟩ := MutableBuffer.advanceHead_cases hb
  rw [← h₁]
  exact ⟨rfl, rfl⟩

end DynamicExtension

namespace EpochSystem

section Defs
variable [Zero R]

/-- The steps of jobs and of the one reconstruction, in any order -/
inductive Step : EpochSystem T L → EpochSystem T L → Prop
  | append {s : EpochSystem T L} (rec : R) (ts logging : Bool) :
      Step s { s with ext := { s.ext with buffer := (s.ext.buffer.append rec ts logging).2 } }
  | pin {s : EpochSystem T L} {e : Epoch T L} {d : DynamicExtension T L}
      (h : s.ext.getActiveEpoch = some (e, d)) : Step s { s with ext := d, pins := e ::ₘ s.pins }
  | unpin {s : EpochSystem T L} {e : Epoch T L} {d : DynamicExtension T L}
      {pins : Multiset (Epoch T L)} (hp : s.pins = e ::ₘ pins) (h : s.ext.endJob e = some d) :
      Step s { s with ext := d, pins := pins }
  | acquire {s : EpochSystem T L} {e : Epoch T L} {v : BufferView R} {b : MutableBuffer R}
      (he : e ∈ s.pins ∨ s.phase = .building ∧ s.ext.nextEpoch.epoch = some e)
      (h : s.ext.buffer.getBufferView e.bufferHead = some (v, b)) :
      Step s { s with ext := { s.ext with buffer := b }, views := v.head ::ₘ s.views }
  | release {s : EpochSystem T L} {head : Nat} {b : MutableBuffer R} {views : Multiset Nat}
      (hv : s.views = head ::ₘ views) (h : s.ext.buffer.releaseHeadReference head = some b) :
      Step s { s with ext := { s.ext with buffer := b }, views := views }
  | create {s : EpochSystem T L} {d : DynamicExtension T L} (hp : s.phase = .idle)
      (h : s.ext.createNewEpoch = some d) : Step s { s with ext := d, phase := .building }
  | rebuild {s : EpochSystem T L} {e : Epoch T L} (vers : ExtensionStructure T L)
      (hp : s.phase = .building) (he : s.ext.nextEpoch.epoch = some e) :
      Step s { s with
        ext := { s.ext with nextEpoch := ⟨some { e with vers := vers }, s.ext.nextEpoch.refcnt⟩ } }
  | retire {s : EpochSystem T L} {d : DynamicExtension T L} (hp : s.phase = .building)
      (h : s.ext.retireEpoch = some d) : Step s { s with ext := d, phase := .retired }
  | move {s : EpochSystem T L} (hp : s.phase = .retired) :
      Step s { s with
        ext := { s.ext with currentEpoch := ⟨none, 0⟩, previousEpoch := s.ext.currentEpoch }
        phase := .moved }
  | advanceHead {s : EpochSystem T L} {e : Epoch T L} {newHead : Nat} {done : Bool}
      {b : MutableBuffer R} (hp : s.phase = .moved) (he : s.ext.nextEpoch.epoch = some e)
      (h : s.ext.buffer.advanceHead newHead = some (done, b)) :
      Step s { s with
        ext := { s.ext with
          buffer := b
          nextEpoch := ⟨some { e with bufferHead := newHead }, s.ext.nextEpoch.refcnt⟩ }
        phase := if done then .advanced else .moved }
  | install {s : EpochSystem T L} (hp : s.phase = .advanced) :
      Step s { s with
        ext := { s.ext with currentEpoch := s.ext.nextEpoch, nextEpoch := ⟨none, 0⟩ }
        phase := .idle }

/-- All states of all runs from a start, with or without a checkpoint and a log -/
inductive Reachable : EpochSystem T L → Prop
  | new {lwm hwm scale : Nat} {checkpoint : Option (Checkpoint T)}
      {log : Option (List (WALEntry R))} {d : DynamicExtension T L}
      (h : DynamicExtension.new T L lwm hwm scale checkpoint log = some d) :
      Reachable ⟨d, .idle, 0, 0⟩
  | step {s s' : EpochSystem T L} (hs : Reachable s) (h : Step s s') : Reachable s'

end Defs

/-- Which heads the epochs in the three slots have: the epoch in use the buffer's
head, the one before it the old head. -/
inductive Placed (head oldHead : Nat) :
    Phase → Option (Epoch T L) → Option (Epoch T L) → Option (Epoch T L) → Prop
  | idle {previous : Option (Epoch T L)} {e : Epoch T L} (he : e.bufferHead = head)
      (hp : ∀ p ∈ previous, p.bufferHead = oldHead ∧ p.number < e.number) :
      Placed head oldHead .idle previous (some e) none
  | building {previous : Option (Epoch T L)} {e n : Epoch T L} (he : e.bufferHead = head)
      (hp : ∀ p ∈ previous, p.bufferHead = oldHead ∧ p.number < e.number)
      (hn : n.bufferHead = head) (hlt : e.number < n.number) :
      Placed head oldHead .building previous (some e) (some n)
  | retired {e n : Epoch T L} (he : e.bufferHead = head) (hlt : e.number < n.number) :
      Placed head oldHead .retired none (some e) (some n)
  | moved {p n : Epoch T L} (hp : p.bufferHead = head) (hlt : p.number < n.number) :
      Placed head oldHead .moved (some p) none (some n)
  | advanced {p n : Epoch T L} (hp : p.bufferHead = oldHead) (hn : n.bufferHead = head)
      (hlt : p.number < n.number) : Placed head oldHead .advanced (some p) none (some n)

/-- The count of a slot is the number of pins on its epoch. -/
def Counts (slot : EpochPtr T L) (pins : Multiset (Epoch T L)) : Prop :=
  ∀ e ∈ slot.epoch, slot.refcnt = (pins.map Epoch.number).count e.number

structure Inv (s : EpochSystem T L) : Prop where
  placed : Placed s.ext.buffer.head.headIdx s.ext.buffer.oldHead.headIdx s.phase
    s.ext.previousEpoch.epoch s.ext.currentEpoch.epoch s.ext.nextEpoch.epoch
  number_le : ∀ e, e ∈ s.ext.currentEpoch.epoch ∨ e ∈ s.ext.nextEpoch.epoch →
    e.number ≤ s.ext.epochCnt
  apart : s.ext.buffer.head.headIdx ≠ s.ext.buffer.oldHead.headIdx
  pinned : ∀ e ∈ s.pins, e ∈ s.ext.currentEpoch.epoch ∨ e ∈ s.ext.previousEpoch.epoch
  current : Counts s.ext.currentEpoch s.pins
  previous : Counts s.ext.previousEpoch s.pins
  next : s.ext.nextEpoch.refcnt = 0

theorem Placed.number_lt {head oldHead : Nat} {phase : Phase}
    {previous current next : Option (Epoch T L)}
    (h : Placed head oldHead phase previous current next) {p e : Epoch T L} (hp : p ∈ previous)
    (he : e ∈ current) : p.number < e.number := by
  cases h with
  | idle _ hprev => exact Option.mem_some_iff.mp he ▸ (hprev p hp).2
  | building _ hprev => exact Option.mem_some_iff.mp he ▸ (hprev p hp).2
  | retired => cases hp
  | moved => cases he
  | advanced => cases he

section Phases
variable {head oldHead : Nat} {previous current next : Option (Epoch T L)}

theorem Placed.of_idle (h : Placed head oldHead .idle previous current next) :
    ∃ e, current = some e ∧ next = none ∧ e.bufferHead = head ∧
      ∀ p ∈ previous, p.bufferHead = oldHead ∧ p.number < e.number := by
  cases h with
  | idle he hp => exact ⟨_, rfl, rfl, he, hp⟩

theorem Placed.of_building (h : Placed head oldHead .building previous current next) :
    ∃ e n, current = some e ∧ next = some n ∧ e.bufferHead = head ∧ n.bufferHead = head ∧
      e.number < n.number ∧ ∀ p ∈ previous, p.bufferHead = oldHead ∧ p.number < e.number := by
  cases h with
  | building he hp hn hlt => exact ⟨_, _, rfl, rfl, he, hn, hlt, hp⟩

theorem Placed.of_retired (h : Placed head oldHead .retired previous current next) :
    ∃ e n, previous = none ∧ current = some e ∧ next = some n ∧ e.bufferHead = head ∧
      e.number < n.number := by
  cases h with
  | retired he hlt => exact ⟨_, _, rfl, rfl, rfl, he, hlt⟩

theorem Placed.of_moved (h : Placed head oldHead .moved previous current next) :
    ∃ p n, previous = some p ∧ current = none ∧ next = some n ∧ p.bufferHead = head ∧
      p.number < n.number := by
  cases h with
  | moved hp hlt => exact ⟨_, _, rfl, rfl, rfl, hp, hlt⟩

theorem Placed.of_advanced (h : Placed head oldHead .advanced previous current next) :
    ∃ p n, previous = some p ∧ current = none ∧ next = some n ∧ p.bufferHead = oldHead ∧
      n.bufferHead = head ∧ p.number < n.number := by
  cases h with
  | advanced hp hn hlt => exact ⟨_, _, rfl, rfl, rfl, hp, hn, hlt⟩

end Phases

theorem Placed.head {head oldHead : Nat} {phase : Phase}
    {previous current next : Option (Epoch T L)}
    (h : Placed head oldHead phase previous current next) :
    (∀ e, e ∈ current ∨ e ∈ previous → e.bufferHead = oldHead ∨ e.bufferHead = head) ∧
      (phase = .building → ∀ e ∈ next, e.bufferHead = oldHead ∨ e.bufferHead = head) := by
  cases h with
  | idle he hp => exact ⟨fun e h => by grind, by simp⟩
  | building he hp hn => exact ⟨fun e h => by grind, fun _ e h => by grind⟩
  | retired he => exact ⟨fun e h => by grind, by simp⟩
  | moved hp => exact ⟨fun e h => by grind, by simp⟩
  | advanced hp => exact ⟨fun e h => by grind, by simp⟩

section Slots
variable {slot : EpochPtr T L} {pins : Multiset (Epoch T L)} {e : Epoch T L} {n : Nat}

theorem Counts.pin (h : Counts slot pins) (he : slot.epoch = some e) :
    Counts ⟨some e, slot.refcnt + 1⟩ (e ::ₘ pins) := by
  rintro x ⟨⟩
  simp [h e he]

theorem Counts.pin_other (h : Counts slot pins) (he : ∀ p ∈ slot.epoch, p.number ≠ e.number) :
    Counts slot (e ::ₘ pins) := by
  intro x hx
  rw [h x hx, Multiset.map_cons, Multiset.count_cons_of_ne (he x hx)]

theorem Counts.unpin (h : Counts slot (e ::ₘ pins)) (he : slot.epoch = some e) :
    Counts { slot with refcnt := slot.refcnt - 1 } pins := by
  intro x hx
  obtain rfl : e = x := Option.some.inj (he.symm.trans hx)
  simp [h e he]

theorem Counts.unpin_other (h : Counts slot (e ::ₘ pins))
    (he : ∀ p ∈ slot.epoch, p.number ≠ e.number) :
    Counts slot pins := by
  intro x hx
  rw [h x hx, Multiset.map_cons, Multiset.count_cons_of_ne (he x hx)]

end Slots

section Steps
variable {s : EpochSystem T L} {d : DynamicExtension T L} {e : Epoch T L}

theorem Inv.number_lt (hi : s.Inv) {p : Epoch T L} (hp : s.ext.previousEpoch.epoch = some p)
    (he : s.ext.currentEpoch.epoch = some e) : p.number < e.number := hi.placed.number_lt hp he

theorem Inv.pin (hi : s.Inv) (h : s.ext.getActiveEpoch = some (e, d)) :
    Inv { s with ext := d, pins := e ::ₘ s.pins } := by
  obtain ⟨he, rfl⟩ | ⟨hnone, he, rfl⟩ := DynamicExtension.getActiveEpoch_cases h
  · refine ⟨he ▸ hi.placed, he ▸ hi.number_le, hi.apart, fun x hx => ?_, hi.current.pin he,
      hi.previous.pin_other fun p hp => (hi.number_lt hp he).ne, hi.next⟩
    rcases Multiset.mem_cons.mp hx with rfl | hx
    · exact .inl rfl
    · exact he ▸ hi.pinned x hx
  · refine ⟨he ▸ hi.placed, hi.number_le, hi.apart, fun x hx => ?_, fun x hx => ?_,
      hi.previous.pin he, hi.next⟩
    · rcases Multiset.mem_cons.mp hx with rfl | hx
      · exact .inr rfl
      · exact he ▸ hi.pinned x hx
    · rw [Option.mem_def, hnone] at hx
      cases hx

theorem Inv.unpin (hi : s.Inv) {pins : Multiset (Epoch T L)} (hp : s.pins = e ::ₘ pins)
    (h : s.ext.endJob e = some d) : Inv { s with ext := d, pins := pins } := by
  have hpinned : ∀ x ∈ pins, x ∈ s.ext.currentEpoch.epoch ∨ x ∈ s.ext.previousEpoch.epoch :=
    fun x hx => hi.pinned x (hp ▸ Multiset.mem_cons_of_mem hx)
  have hcurrent := hp ▸ hi.current
  have hprevious := hp ▸ hi.previous
  have he := hi.pinned e (hp ▸ Multiset.mem_cons_self e pins)
  obtain ⟨hnum, rfl⟩ | ⟨hnum, rfl⟩ := DynamicExtension.endJob_cases h
  · -- the number found in the previous slot is that of the pinned epoch itself
    obtain ⟨p, hpe, hpn⟩ := Option.map_eq_some_iff.mp hnum
    have hnot : ∀ c ∈ s.ext.currentEpoch.epoch, c.number ≠ e.number := by
      intro c hc
      have := hi.number_lt hpe hc
      omega
    have he : s.ext.previousEpoch.epoch = some e := he.resolve_left fun hc => hnot e hc rfl
    exact ⟨hi.placed, hi.number_le, hi.apart, hpinned, hcurrent.unpin_other hnot,
      hprevious.unpin he, hi.next⟩
  · have he : s.ext.currentEpoch.epoch = some e := he.resolve_right fun hc => hnum (by rw [hc]; rfl)
    refine ⟨hi.placed, hi.number_le, hi.apart, hpinned, hcurrent.unpin he,
      hprevious.unpin_other fun p hpe hpn => hnum ?_, hi.next⟩
    rw [Option.mem_def.mp hpe, Option.map_some, hpn]

theorem Inv.buffer (hi : s.Inv) {b : MutableBuffer R} (views : Multiset Nat)
    (hb : s.ext.buffer.SameHeads b) :
    Inv { s with ext := { s.ext with buffer := b }, views := views } :=
  ⟨hb.1 ▸ hb.2 ▸ hi.placed, hi.number_le, hb.1 ▸ hb.2 ▸ hi.apart, hi.pinned,
    hi.current, hi.previous,
    hi.next⟩

theorem Counts.none (pins : Multiset (Epoch T L)) (n : Nat) : Counts ⟨none, n⟩ pins :=
  fun _ h => absurd h (Option.not_mem_none _)

theorem Inv.createNewEpoch_eq (hi : s.Inv) (hp : s.phase = .idle)
    (he : s.ext.currentEpoch.epoch = some e) :
    s.ext.createNewEpoch = some { s.ext with
      epochCnt := s.ext.epochCnt + 1
      nextEpoch := ⟨some (e.clone (s.ext.epochCnt + 1)), 0⟩ } := by
  obtain ⟨-, -, hnext, -, -⟩ := (hp ▸ hi.placed).of_idle
  have hslot : s.ext.currentEpoch = ⟨some e, s.ext.currentEpoch.refcnt⟩ := by rw [← he]
  refine DynamicExtension.createNewEpoch_eq hnext hslot fun hnum => ?_
  obtain ⟨p, hpe, hpn⟩ := Option.map_eq_some_iff.mp hnum
  exact (hi.number_lt hpe he).ne hpn

theorem Inv.create (hi : s.Inv) (hp : s.phase = .idle) (h : s.ext.createNewEpoch = some d) :
    Inv { s with ext := d, phase := .building } := by
  obtain ⟨c, hc, hnext, hhead, hprev⟩ := (hp ▸ hi.placed).of_idle
  rw [hi.createNewEpoch_eq hp hc, Option.some.injEq] at h
  subst h
  have hle := hi.number_le c (.inl hc)
  refine ⟨?_, fun x hx => ?_, hi.apart, hi.pinned, hi.current, hi.previous, rfl⟩
  · simp only [hc]
    exact .building hhead hprev hhead (Nat.lt_succ_of_le hle)
  · rcases hx with hx | hx
    · exact (hi.number_le x (.inl hx)).trans (Nat.le_succ _)
    · obtain rfl := Option.some.inj hx
      exact Nat.le_refl (s.ext.epochCnt + 1)

theorem Inv.rebuild (hi : s.Inv) (vers : ExtensionStructure T L) (hp : s.phase = .building)
    (he : s.ext.nextEpoch.epoch = some e) :
    Inv { s with
      ext := { s.ext with nextEpoch := ⟨some { e with vers := vers },
        s.ext.nextEpoch.refcnt⟩ } } := by
  obtain ⟨c, n, hc, hnext, hhead, hnhead, hlt, hprev⟩ := (hp ▸ hi.placed).of_building
  obtain rfl : n = e := Option.some.inj (hnext.symm.trans he)
  refine ⟨?_, fun x hx => ?_, hi.apart, hi.pinned, hi.current, hi.previous, hi.next⟩
  · simp only [hp, hc]
    exact .building hhead hprev hnhead hlt
  · rcases hx with hx | hx
    · exact hi.number_le x (.inl hx)
    · obtain rfl := Option.some.inj hx
      exact hi.number_le n (.inr he)

theorem Inv.retire (hi : s.Inv) (hp : s.phase = .building) (h : s.ext.retireEpoch = some d) :
    Inv { s with ext := d, phase := .retired } := by
  obtain ⟨c, n, hc, hnext, hhead, -, hlt, -⟩ := (hp ▸ hi.placed).of_building
  have hplaced : Placed s.ext.buffer.head.headIdx s.ext.buffer.oldHead.headIdx .retired none
      s.ext.currentEpoch.epoch s.ext.nextEpoch.epoch := by
    rw [hc, hnext]
    exact .retired hhead hlt
  obtain ⟨hnone, rfl⟩ | ⟨hzero, rfl⟩ := DynamicExtension.retireEpoch_cases h
  · exact ⟨hnone ▸ hplaced, hi.number_le, hi.apart, hi.pinned, hi.current, hi.previous, hi.next⟩
  · refine ⟨hplaced, hi.number_le, hi.apart, fun x hx => .inl ?_, hi.current, Counts.none _ _,
      hi.next⟩
    -- a pin on the retired epoch would be counted
    refine (hi.pinned x hx).resolve_right fun hprev => ?_
    have hcount := hi.previous x hprev
    rw [hzero, eq_comm, Multiset.count_eq_zero] at hcount
    exact hcount (Multiset.mem_map_of_mem _ hx)

theorem Inv.move (hi : s.Inv) (hp : s.phase = .retired) :
    Inv { s with
      ext := { s.ext with currentEpoch := ⟨none, 0⟩, previousEpoch := s.ext.currentEpoch }
      phase := .moved } := by
  obtain ⟨c, n, hprev, hc, hnext, hhead, hlt⟩ := (hp ▸ hi.placed).of_retired
  refine ⟨?_, fun x hx => ?_, hi.apart, fun x hx => .inr ?_, Counts.none _ _, hi.current, hi.next⟩
  · simp only [hc, hnext]
    exact .moved hhead hlt
  · exact hi.number_le x (.inr (hx.resolve_left (Option.not_mem_none x)))
  · exact (hi.pinned x hx).resolve_right (by simp [hprev])

theorem Inv.advanceHead (hi : s.Inv) {newHead : Nat} {done : Bool} {b : MutableBuffer R} [Zero R]
    (hp : s.phase = .moved) (he : s.ext.nextEpoch.epoch = some e)
    (h : s.ext.buffer.advanceHead newHead = some (done, b)) :
    Inv { s with
      ext := { s.ext with
        buffer := b
        nextEpoch := ⟨some { e with bufferHead := newHead }, s.ext.nextEpoch.refcnt⟩ }
      phase := if done then .advanced else .moved } := by
  obtain ⟨c, n, hprev, hc, hnext, hhead, hlt⟩ := (hp ▸ hi.placed).of_moved
  obtain rfl : n = e := Option.some.inj (hnext.symm.trans he)
  have hnumber : ∀ x, x ∈ s.ext.currentEpoch.epoch ∨ x ∈ some { n with bufferHead := newHead } →
      x.number ≤ s.ext.epochCnt := by
    rintro x (hx | hx)
    · exact hi.number_le x (.inl hx)
    · obtain rfl := Option.some.inj hx
      exact hi.number_le n (.inr he)
  obtain ⟨_, hgt, h⟩ := Option.bind_eq_some_iff.mp h
  obtain ⟨-, -, h⟩ := Option.bind_eq_some_iff.mp h
  split at h
  · -- the old head is still referenced: only the next epoch's head is set
    obtain ⟨rfl, rfl⟩ := Prod.mk.inj (Option.some.inj h)
    refine ⟨?_, hnumber, hi.apart, hi.pinned, hi.current, hi.previous, hi.next⟩
    simp only [hprev, hc]
    exact .moved hhead hlt
  · obtain ⟨rfl, rfl⟩ := Prod.mk.inj (Option.some.inj h)
    have hlt' : s.ext.buffer.head.headIdx < newHead := by
      by_contra hle
      simp [guard, hle] at hgt
    refine ⟨?_, hnumber, hlt'.ne', hi.pinned, hi.current, hi.previous, hi.next⟩
    simp only [hprev, hc]
    exact .advanced hhead rfl hlt

theorem Inv.install (hi : s.Inv) (hp : s.phase = .advanced) :
    Inv { s with
      ext := { s.ext with currentEpoch := s.ext.nextEpoch, nextEpoch := ⟨none, 0⟩ }
      phase := .idle } := by
  obtain ⟨c, n, hprev, hc, hnext, hold, hhead, hlt⟩ := (hp ▸ hi.placed).of_advanced
  have hpinned : ∀ x ∈ s.pins, x = c := by
    intro x hx
    have := (hi.pinned x hx).resolve_left (by simp [hc])
    rw [hprev] at this
    exact (Option.some.inj this).symm
  refine ⟨?_, fun x hx => ?_, hi.apart, fun x hx => .inr ?_, fun x hx => ?_, hi.previous, rfl⟩
  · simp only [hprev, hnext]
    refine .idle hhead fun p hpe => ?_
    obtain rfl := Option.some.inj hpe
    exact ⟨hold, hlt⟩
  · exact hi.number_le x (.inr (hx.resolve_right (Option.not_mem_none x)))
  · rw [hpinned x hx]
    exact hprev
  · -- nobody could pin the next epoch before it was installed
    obtain rfl : n = x := Option.some.inj (hnext.symm.trans hx)
    rw [hi.next, eq_comm, Multiset.count_eq_zero]
    intro hmem
    obtain ⟨y, hy, hyn⟩ := Multiset.mem_map.mp hmem
    rw [hpinned y hy] at hyn
    omega

theorem inv_new [Zero R] {lwm hwm scale : Nat} {checkpoint : Option (Checkpoint T)}
    {log : Option (List (WALEntry R))}
    (h : DynamicExtension.new T L lwm hwm scale checkpoint log = some d) :
    Inv ⟨d, .idle, 0, 0⟩ := by
  obtain ⟨b, hb, h⟩ := Option.bind_eq_some_iff.mp h
  obtain ⟨-, -, h⟩ := Option.bind_eq_some_iff.mp h
  obtain ⟨vers, -, h⟩ := Option.bind_eq_some_iff.mp h
  obtain rfl := Option.some.inj h
  obtain ⟨hhead, hold, hpos⟩ := MutableBuffer.heads_new hb
  refine ⟨.idle hhead.symm (by simp), ?_, ?_, by simp, ?_, Counts.none _ _, rfl⟩
  · rintro x (hx | hx)
    · obtain rfl := Option.some.inj hx
      exact le_rfl
    · cases hx
  · show b.head.headIdx ≠ b.oldHead.headIdx
    omega
  · intro x hx
    simp

theorem step_inv [Zero R] {s' : EpochSystem T L} (hi : s.Inv) (h : Step s s') : s'.Inv := by
  cases h with
  | append rec ts logging => exact hi.buffer _ (MutableBuffer.sameHeads_append _ rec ts logging)
  | pin h => exact hi.pin h
  | unpin hp h => exact hi.unpin hp h
  | acquire _ h => exact hi.buffer _ (MutableBuffer.getBufferView_cases h).2.heads
  | release _ h => exact hi.buffer _ (MutableBuffer.sameRing_releaseHeadReference h).heads
  | create hp h => exact hi.create hp h
  | rebuild vers hp he => exact hi.rebuild vers hp he
  | retire hp h => exact hi.retire hp h
  | move hp => exact hi.move hp
  | advanceHead hp he h => exact hi.advanceHead hp he h
  | install hp => exact hi.install hp

theorem Reachable.inv [Zero R] (h : Reachable s) : s.Inv := by
  induction h with
  | new h => exact inv_new h
  | step _ h ih => exact step_inv ih h

end Steps

/-- An epoch's head is one of the buffer's two, so that its view can be taken. -/
structure HasView (s : EpochSystem T L) (e : Epoch T L) : Prop where
  head : e.bufferHead = s.ext.buffer.oldHead.headIdx ∨ e.bufferHead = s.ext.buffer.head.headIdx
  view : (s.ext.buffer.getBufferView e.bufferHead).isSome

/-- Every pinned epoch, and the next one while it is being built, can always get its
view, and the two heads differ. -/
theorem pinned_hasView [Zero R] {s : EpochSystem T L} (h : Reachable s) :
    (∀ e ∈ s.pins, s.HasView e) ∧
      (s.phase = .building → ∀ e ∈ s.ext.nextEpoch.epoch, s.HasView e) ∧
      s.ext.buffer.head.headIdx ≠ s.ext.buffer.oldHead.headIdx := by
  have hi := h.inv
  obtain ⟨hused, hnext⟩ := hi.placed.head
  refine ⟨fun e he => ?_, fun hp e he => ?_, hi.apart⟩
  · have hhead := hused e (hi.pinned e he)
    exact ⟨hhead, MutableBuffer.getBufferView_isSome hhead⟩
  · have hhead := hnext hp e he
    exact ⟨hhead, MutableBuffer.getBufferView_isSome hhead⟩

/-- An epoch transition, and a second one whose head advance is refused, as a view of epoch
0 is still open at the old head; the job that begins there pins epoch 1. -/
theorem pinned_hasView_sample :
    ∃ (s : EpochSystem (ShardType.lists Nat) .leveling) (e : Epoch _ _), Reachable s ∧
      s.phase = .moved ∧ s.ext.buffer.oldHead = ⟨0, 1⟩ ∧ s.ext.buffer.head = ⟨1, 0⟩ ∧
      e ∈ s.pins ∧ e.number = 1 ∧ s.HasView e := by
  set e₀ : Epoch (ShardType.lists Nat) .leveling := ⟨0, .new _ _ 2 2, 0⟩
  set e₁ : Epoch (ShardType.lists Nat) .leveling := ⟨1, .new _ _ 2 2, 1⟩
  have hnew : DynamicExtension.new (ShardType.lists Nat) .leveling 1 2 2 none none =
      some ⟨.empty 1 2 none, false, 0, ⟨none, 0⟩, ⟨some e₀, 0⟩, ⟨none, 0⟩⟩ := rfl
  have hself : ∀ e : Epoch (ShardType.lists Nat) .leveling, e ∈ e ::ₘ 0 := fun e =>
    Multiset.mem_cons_self e 0
  have h₁ := (Reachable.new hnew).step (.append 5 false false)
  have h₂ := h₁.step (.pin (e := e₀) rfl)
  have h₃ := h₂.step (.acquire (e := e₀) (.inl (hself e₀)) rfl)
  have h₄ := h₃.step (.unpin (show _ = e₀ ::ₘ 0 from rfl) rfl)
  have h₅ := h₄.step (.create rfl rfl)
  have h₆ := h₅.step (.retire rfl rfl)
  have h₇ := h₆.step (.move rfl)
  have h₈ := h₇.step (.advanceHead rfl rfl
    (show MutableBuffer.advanceHead _ 1 = some (true, _) from rfl))
  have h₉ := h₈.step (.install rfl)
  have h₁₀ := h₉.step (.append 6 false false)
  have h₁₁ := h₁₀.step (.create rfl rfl)
  have h₁₂ := h₁₁.step (.retire rfl rfl)
  have h₁₃ := h₁₂.step (.move rfl)
  have h₁₄ := h₁₃.step (.advanceHead rfl rfl
    (show MutableBuffer.advanceHead _ 2 = some (false, _) from rfl))
  have h := h₁₄.step (.pin (e := e₁) rfl)
  exact ⟨_, e₁, h, rfl, rfl, rfl, hself e₁, rfl, (pinned_hasView h).1 e₁ (hself e₁)⟩

end EpochSystem

end De
