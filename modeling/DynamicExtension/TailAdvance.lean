import DynamicExtension.MutableBuffer
import DynamicExtension.Library.StepRun
set_option autoImplicit false

namespace De

/-- An append in front of its next atomic access in `try_advance_tail`; `old` is `old_value`. -/
inductive AppendPc where
  | idle
  | load
  | check (old : Nat)
  | exchange (old : Nat)
  | recheck (old : Nat)
  | returned (ret : Nat)
  deriving DecidableEq, Repr

/-- `old_value - head` in 64 bits -/
def distance (old head : Nat) : Nat :=
  if head ≤ old then old - head else 2 ^ 64 - (head - old)

/-- What `append` returns on a reserved tail, which it keeps in an `int32_t` -/
def appendReturns (tail : Nat) : Nat := if MutableBuffer.toInt32 tail = -1#32 then 0 else 1

namespace AppendPc

/-- The next access, on the tail and the head. The result has the tail after it. -/
def step (hwm tail head : Nat) : AppendPc → Option (Nat × AppendPc)
  | .load => some (tail, .check tail)
  | .check old => some (tail, if distance old head ≥ hwm then .returned 0 else .exchange old)
  | .exchange old =>
    if tail = old then some (tail + 1, .returned (appendReturns old))
    else some (tail, .recheck tail)
  | .recheck old => some (tail, if tail ≥ hwm then .returned 0 else .exchange old)
  | .idle | .returned _ => none

def done : AppendPc → Bool
  | .idle | .returned _ => true
  | _ => false

/-- In a buffer that is not full: the head has not passed the loaded tail, the tail is below the
high watermark when it is checked again, and the tail that is obtained is not -1 in 32 bits. -/
def Passes (hwm tail head : Nat) : AppendPc → Prop
  | .check old => head ≤ old ∨ distance old head < hwm
  | .exchange old => tail = old → MutableBuffer.toInt32 old ≠ -1#32
  | .recheck _ => tail < hwm
  | _ => True

instance (hwm tail head : Nat) : ∀ pc : AppendPc, Decidable (pc.Passes hwm tail head)
  | .check _ => inferInstanceAs (Decidable (_ ∨ _))
  | .exchange _ => inferInstanceAs (Decidable (_ → _))
  | .recheck _ => inferInstanceAs (Decidable (_ < _))
  | .idle | .load | .returned _ => inferInstanceAs (Decidable True)

/-- What a thread knows of the tail that it loaded -/
def Knows (hwm tail head : Nat) : AppendPc → Prop
  | .check old | .recheck old => old ≤ tail
  | .exchange old => old < head + hwm
  | _ => True

theorem distance_lt {old head hwm : Nat} (h : distance old head < hwm) : old < head + hwm := by
  unfold distance at h
  split at h <;> omega

section Step
variable {hwm tail head tail' : Nat} {pc pc' : AppendPc}

theorem step_knows (h : pc.step hwm tail head = some (tail', pc')) (hpc : pc.Knows hwm tail head) :
    pc'.Knows hwm tail' head ∧ (tail' = tail ∨ tail' = tail + 1 ∧ tail < head + hwm) := by
  cases pc with
  | idle => cases h
  | returned ret => cases h
  | load =>
    obtain ⟨rfl, rfl⟩ := Prod.mk.inj (Option.some.inj h)
    exact ⟨le_rfl, .inl rfl⟩
  | check old =>
    obtain ⟨rfl, rfl⟩ := Prod.mk.inj (Option.some.inj h)
    refine ⟨?_, .inl rfl⟩
    split
    · trivial
    · rename_i hlt
      exact distance_lt (not_le.mp hlt)
  | exchange old =>
    rw [step] at h
    split at h
    · rename_i heq
      obtain ⟨rfl, rfl⟩ := Prod.mk.inj (Option.some.inj h)
      exact ⟨trivial, .inr ⟨rfl, heq ▸ hpc⟩⟩
    · obtain ⟨rfl, rfl⟩ := Prod.mk.inj (Option.some.inj h)
      exact ⟨le_rfl, .inl rfl⟩
  | recheck old =>
    obtain ⟨rfl, rfl⟩ := Prod.mk.inj (Option.some.inj h)
    refine ⟨?_, .inl rfl⟩
    split
    · trivial
    · rename_i hlt
      have hold : old ≤ tail := hpc
      show old < head + hwm
      omega

theorem step_returned (h : pc.step hwm tail head = some (tail', pc'))
    (hpc : pc.Knows hwm tail head) (hroom : tail - head < hwm) :
    pc' = .returned 0 ↔ ¬ pc.Passes hwm tail head := by
  cases pc with
  | idle => cases h
  | returned ret => cases h
  | load =>
    obtain ⟨rfl, rfl⟩ := Prod.mk.inj (Option.some.inj h)
    simp [Passes]
  | check old =>
    obtain ⟨rfl, rfl⟩ := Prod.mk.inj (Option.some.inj h)
    have hold : old ≤ tail := hpc
    have hin : head ≤ old → distance old head < hwm := by
      intro hle
      rw [distance, if_pos hle]
      omega
    by_cases hlt : distance old head < hwm
    · simp [Passes, hlt]
    · have hnot : ¬ head ≤ old := fun hle => hlt (hin hle)
      simp [Passes, hlt, hnot, not_lt.mp hlt]
  | exchange old =>
    rw [step] at h
    split at h
    · rename_i heq
      obtain ⟨rfl, rfl⟩ := Prod.mk.inj (Option.some.inj h)
      by_cases hneg : MutableBuffer.toInt32 old = -1#32 <;>
        simp [Passes, appendReturns, hneg, heq]
    · rename_i hne
      obtain ⟨rfl, rfl⟩ := Prod.mk.inj (Option.some.inj h)
      simp [Passes, hne]
  | recheck old =>
    obtain ⟨rfl, rfl⟩ := Prod.mk.inj (Option.some.inj h)
    by_cases hlt : tail < hwm
    · simp [Passes, hlt]
    · simp [Passes, hlt, not_lt.mp hlt]

theorem Knows.mono {head' : Nat} (h : pc.Knows hwm tail head) (htail : tail ≤ tail')
    (hhead : head ≤ head') : pc.Knows hwm tail' head' := by
  cases pc with
  | check old => exact le_trans h htail
  | recheck old => exact le_trans h htail
  | exchange old =>
    have hlt : old < head + hwm := h
    show old < head' + hwm
    omega
  | _ => trivial

end Step

end AppendPc

/-- A thread's append; `sawFull` records that the buffer was full at one of its steps. -/
structure Appender where
  pc : AppendPc
  sawFull : Bool

/-- The tail and the head with the appending threads; `obtained` has the tails that the
exchanges won. -/
structure TailRun where
  tail : Nat
  head : Nat
  threads : Nat → Appender
  obtained : List Nat

inductive TailOp where
  | call (t : Nat)
  | run (t : Nat)
  | advanceHead (newHead : Nat)

namespace TailRun
variable {hwm : Nat}

def start : TailRun := ⟨0, 0, fun _ => ⟨.idle, false⟩, []⟩

def full (hwm : Nat) (s : TailRun) : Bool := s.tail - s.head ≥ hwm

def step (hwm : Nat) (s : TailRun) : TailOp → Option TailRun
  | .call t => do
    guard (s.threads t).pc.done
    return { s with threads := Function.update s.threads t ⟨.load, false⟩ }
  | .run t => do
    let (tail, pc) ← (s.threads t).pc.step hwm s.tail s.head
    return { s with
      tail := tail
      threads := Function.update s.threads t ⟨pc, (s.threads t).sawFull || s.full hwm⟩
      obtained := if tail = s.tail then s.obtained else s.tail :: s.obtained }
  | .advanceHead newHead => do
    guard (s.head < newHead ∧ newHead ≤ s.tail)
    return { s with head := newHead }

/-- A step of an append passes unless the append has seen the buffer full. -/
def Ok (hwm : Nat) (s : TailRun) : TailOp → Prop
  | .run t => (s.threads t).sawFull = false → s.full hwm = false →
    (s.threads t).pc.Passes hwm s.tail s.head
  | _ => True

instance (hwm : Nat) (s : TailRun) : ∀ op : TailOp, Decidable (s.Ok hwm op)
  | .run _ => inferInstanceAs (Decidable (_ → _ → _))
  | .call _ | .advanceHead _ => inferInstanceAs (Decidable True)

/-- What holds in every run -/
structure Bounded (hwm : Nat) (s : TailRun) : Prop where
  head_le : s.head ≤ s.tail
  bound : s.tail ≤ s.head + hwm
  nodup : s.obtained.Nodup
  below : ∀ n ∈ s.obtained, n < s.tail
  knows : ∀ t, (s.threads t).pc.Knows hwm s.tail s.head

theorem bounded_start (hwm : Nat) : start.Bounded hwm where
  head_le := le_rfl
  bound := Nat.zero_le _
  nodup := List.nodup_nil
  below := by simp [start]
  knows := fun _ => trivial

/-- An append that returned 0 saw a full buffer at one of its steps. -/
def FailsFull (s : TailRun) : Prop :=
  ∀ t, (s.threads t).pc = .returned 0 → (s.threads t).sawFull = true

theorem Bounded.append {s : TailRun} (h : s.Bounded hwm) {t tail' : Nat} {pc' : AppendPc}
    (hpc : (s.threads t).pc.step hwm s.tail s.head = some (tail', pc')) (sawFull : Bool) :
    Bounded hwm { s with
      tail := tail'
      threads := Function.update s.threads t ⟨pc', sawFull⟩
      obtained := if tail' = s.tail then s.obtained else s.tail :: s.obtained } := by
  obtain ⟨hknows, htail⟩ := AppendPc.step_knows hpc (h.knows t)
  have hle : s.tail ≤ tail' := by omega
  have hhead := h.head_le
  have hbound := h.bound
  refine ⟨le_trans hhead hle, by simp only; omega, ?_, ?_, fun t' => ?_⟩
  · by_cases heq : tail' = s.tail
    · simpa [heq] using h.nodup
    · simp only [heq, if_false]
      exact List.nodup_cons.mpr ⟨fun hmem => lt_irrefl _ (h.below _ hmem), h.nodup⟩
  · intro n hn
    by_cases heq : tail' = s.tail
    · simp only [heq, if_true] at hn ⊢
      exact h.below n hn
    · simp only [heq, if_false] at hn ⊢
      rcases List.mem_cons.mp hn with rfl | hmem
      · omega
      · exact lt_of_lt_of_le (h.below n hmem) hle
  · by_cases ht : t' = t
    · simpa only [ht, Function.update_self] using hknows
    · simp only [Function.update_of_ne ht]
      exact (h.knows t').mono hle le_rfl

theorem FailsFull.update {s s' : TailRun} (h : s.FailsFull) {t : Nat} {a : Appender}
    (hs : s'.threads = Function.update s.threads t a) :
    s'.FailsFull ↔ (a.pc = .returned 0 → a.sawFull = true) := by
  rw [FailsFull, hs]
  constructor
  · intro hall
    simpa only [Function.update_self] using hall t
  · intro hthis t'
    by_cases ht : t' = t
    · simpa only [ht, Function.update_self] using hthis
    · simpa only [Function.update_of_ne ht] using h t'

theorem Bounded.step {s s' : TailRun} {op : TailOp} (h : s.Bounded hwm)
    (hs : s.step hwm op = some s') :
    s'.Bounded hwm ∧ (s.FailsFull → (s'.FailsFull ↔ s.Ok hwm op)) := by
  cases op with
  | call t =>
    obtain ⟨_, -, hs⟩ := Option.bind_eq_some_iff.mp hs
    obtain rfl := Option.some.inj hs
    refine ⟨⟨h.head_le, h.bound, h.nodup, h.below, fun t' => ?_⟩, fun hfails =>
      iff_of_true ((hfails.update rfl).mpr fun hret => by cases hret) trivial⟩
    by_cases ht : t' = t
    · simp only [ht, Function.update_self]
      trivial
    · simp only [Function.update_of_ne ht]
      exact h.knows t'
  | advanceHead newHead =>
    obtain ⟨_, hguard, hs⟩ := Option.bind_eq_some_iff.mp hs
    rw [Option.guard_eq_some'] at hguard
    obtain ⟨hlt, hle⟩ := hguard
    obtain rfl := Option.some.inj hs
    have hbound := h.bound
    exact ⟨⟨hle, by simp only; omega, h.nodup, h.below, fun t =>
      (h.knows t).mono le_rfl hlt.le⟩, fun hfails => iff_of_true hfails trivial⟩
  | run t =>
    obtain ⟨⟨tail', pc'⟩, hpc, hs⟩ := Option.bind_eq_some_iff.mp hs
    obtain rfl := Option.some.inj hs
    refine ⟨h.append hpc _, fun hfails => ?_⟩
    rw [hfails.update rfl, Ok]
    cases hsaw : (s.threads t).sawFull with
    | true => simp
    | false =>
      cases hfull : s.full hwm with
      | true => simp
      | false =>
        have hroom : s.tail - s.head < hwm := by simpa [full] using hfull
        simp [AppendPc.step_returned hpc (h.knows t) hroom]

theorem bounded_of_run {ops : List TailOp} {s : TailRun}
    (hrun : StepRun.run (step hwm) start ops = some s) : s.Bounded hwm :=
  StepRun.inv_of_run (fun _ _ _ h _ hs => (Bounded.step h hs).1) (bounded_start hwm)
    (StepRun.always_true _ ops) hrun

structure BoundedFull (hwm : Nat) (s : TailRun) : Prop extends s.Bounded hwm where
  failsFull : s.FailsFull

/-- Every run keeps the window bounded and gives no tail out twice; and its failed appends all
saw a full buffer if and only if all its steps pass. -/
theorem failsFull_iff {ops : List TailOp}
    (hrun : (StepRun.run (step hwm) start ops).isSome) :
    (∀ pre, pre <+: ops → ∀ s, StepRun.run (step hwm) start pre = some s →
      s.head ≤ s.tail ∧ s.tail - s.head ≤ hwm ∧ s.obtained.Nodup) ∧
    ((∀ pre, pre <+: ops → ∀ s, StepRun.run (step hwm) start pre = some s → s.FailsFull) ↔
      StepRun.Always (step hwm) (Ok hwm) start ops) := by
  have hstart : start.BoundedFull hwm := ⟨bounded_start hwm, fun t ht => by simp [start] at ht⟩
  refine ⟨fun pre _ s hs => ?_, fun hall => ?_, ?_⟩
  · have h := bounded_of_run hs
    have hbound := h.bound
    exact ⟨h.head_le, by omega, h.nodup⟩
  · refine StepRun.always_of_good (fun s op s' h hs (hgood : s'.FailsFull) => ?_) hstart hrun hall
    obtain ⟨hbounded, hiff⟩ := h.toBounded.step hs
    exact ⟨(hiff h.failsFull).mp hgood, hbounded, hgood⟩
  · rintro hok pre ⟨post, rfl⟩ s hs
    refine (StepRun.inv_of_run (fun s op s' h hop hs => ?_) hstart hok.take hs).failsFull
    obtain ⟨hbounded, hiff⟩ := h.toBounded.step hs
    exact ⟨hbounded, (hiff h.failsFull).mpr hop⟩

/-- Two appends race for the last slots; a third one finds the buffer full. -/
theorem failsFull_iff_sample :
    let ops : List TailOp := [.call 0, .run 0, .call 1, .run 1, .run 1, .run 1, .run 0, .run 0,
      .run 0, .run 0, .call 0, .run 0, .run 0]
    ∀ pre, pre <+: ops → ∀ s, StepRun.run (step 2) start pre = some s → s.FailsFull := by
  intro ops
  have hrun : (StepRun.run (step 2) start ops).isSome := by decide +kernel
  exact (failsFull_iff hrun).2.mpr (by decide +kernel)

theorem exists_failed {ops : List TailOp} {t tail head : Nat}
    (h : (StepRun.run (step hwm) start ops).map (fun s =>
        (s.tail, s.head, (s.threads t).pc, (s.threads t).sawFull)) =
      some (tail, head, .returned 0, false)) :
    ∃ s, StepRun.run (step hwm) start ops = some s ∧ s.tail = tail ∧ s.head = head ∧
      (s.threads t).pc = .returned 0 ∧ ¬ s.FailsFull := by
  obtain ⟨s, hs, hstate⟩ := Option.map_eq_some_iff.mp h
  simp only [Prod.mk.injEq] at hstate
  obtain ⟨htail, hhead, hpc, hsaw⟩ := hstate
  refine ⟨s, hs, htail, hhead, hpc, fun hfails => ?_⟩
  rw [hfails t hpc] at hsaw
  cases hsaw

/-- After two appends and an advance of the head, one of two racing appends fails in a buffer of
one record, as the tail is past the high watermark; and an append fails in an empty buffer, when
the head moves past the tail that it loaded. -/
theorem not_failsFull :
    (∃ s, StepRun.run (step 2) start [.call 0, .run 0, .run 0, .run 0, .call 0, .run 0, .run 0,
        .run 0, .advanceHead 2, .call 0, .run 0, .run 0, .call 1, .run 1, .run 1, .run 0, .run 1,
        .run 1] = some s ∧ s.tail = 3 ∧ s.head = 2 ∧ (s.threads 1).pc = .returned 0 ∧
      ¬ s.FailsFull) ∧
    ∃ s, StepRun.run (step 2) start [.call 0, .run 0, .call 1, .run 1, .run 1, .run 1,
        .advanceHead 1, .run 0] = some s ∧ s.tail = 1 ∧ s.head = 1 ∧
      (s.threads 0).pc = .returned 0 ∧ ¬ s.FailsFull :=
  ⟨exists_failed (by decide +kernel), exists_failed (by decide +kernel)⟩

end TailRun

end De
