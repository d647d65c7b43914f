import DynamicExtension.EpochViews
import DynamicExtension.Library.Holders
import DynamicExtension.Library.StepRun
set_option autoImplicit false

namespace De

/-- `epoch_ptr` as the atomic slots hold it: an epoch, by its number, and its count -/
structure EpochRef where
  epoch : Option Nat
  refcnt : Nat
  deriving DecidableEq, Repr

namespace EpochRef

def null : EpochRef := ⟨none, 0⟩

/-- `{old.epoch, old.refcnt + 1}` -/
def inc (r : EpochRef) : EpochRef := ⟨r.epoch, r.refcnt + 1⟩

def dec (r : EpochRef) : EpochRef := ⟨r.epoch, r.refcnt - 1⟩

@[simp] theorem epoch_null : null.epoch = none := rfl

@[simp] theorem epoch_inc (r : EpochRef) : r.inc.epoch = r.epoch := rfl

@[simp] theorem epoch_dec (r : EpochRef) : r.dec.epoch = r.epoch := rfl

/-- The count is the number of holders of the epoch. -/
def Counts (r : EpochRef) (holders : Nat → Nat) : Prop :=
  ∀ e, r.epoch = some e → r.refcnt = holders e

section Counts
variable {r : EpochRef} {holders holders' : Nat → Nat} {e : Nat}

theorem counts_null (holders : Nat → Nat) : null.Counts holders := by
  rintro e ⟨⟩

theorem Counts.inc (h : r.Counts holders) (he : r.epoch = some e)
    (hinc : holders' e = holders e + 1) : r.inc.Counts holders' := by
  intro x hx
  obtain rfl : e = x := Option.some.inj (he.symm.trans hx)
  rw [hinc, ← h e he]
  rfl

theorem Counts.dec (h : r.Counts holders) (he : r.epoch = some e)
    (hdec : holders' e + 1 = holders e) : r.dec.Counts holders' := by
  intro x hx
  obtain rfl : e = x := Option.some.inj (he.symm.trans hx)
  have := h e he
  simp only [EpochRef.dec]
  omega

theorem Counts.other (h : r.Counts holders) (he : r.epoch ≠ some e)
    (hsame : ∀ x, x ≠ e → holders' x = holders x) : r.Counts holders' := by
  intro x hx
  rw [hsame x (by rintro rfl; exact he hx)]
  exact h x hx

end Counts

end EpochRef

/-- A thread in front of its next atomic access, with the locals it still needs:
the epoch that it holds, and the `old` that a `compare_exchange` expects. -/
inductive Job where
  | idle
  | getTest
  | getLoadPrevious
  | getSwapPrevious (epoch : Nat) (old : EpochRef)
  | getLoadCurrent
  | getSwapCurrent (epoch : Nat) (old : EpochRef)
  | holding (epoch : Nat)
  | endTest (epoch : Nat)
  | endLoadPrevious (epoch : Nat)
  | endSwapPrevious (epoch : Nat) (old : EpochRef)
  | endLoadCurrent (epoch : Nat)
  | endSwapCurrent (epoch : Nat) (old : EpochRef)
  deriving DecidableEq, Repr

namespace Job

/-- The epoch that a thread holds, from the exchange in `get_active_epoch` to the one
in `end_job` -/
def holds : Job → Option Nat
  | .holding e | .endTest e | .endLoadPrevious e | .endSwapPrevious e _ | .endLoadCurrent e
  | .endSwapCurrent e _ => some e
  | _ => none

/-- The next access of `get_active_epoch` or `end_job`, on the current and the
previous slot; `none` is a failed assertion, or a thread that runs neither. -/
def step (current previous : EpochRef) : Job → Option (EpochRef × EpochRef × Job)
  | .getTest =>
    some (current, previous, if current.epoch.isNone then .getLoadPrevious else .getLoadCurrent)
  | .getLoadPrevious =>
    some (current, previous, match previous.epoch with
      | none => .getTest
      | some e => .getSwapPrevious e previous)
  | .getSwapPrevious e old =>
    if previous = old then some (current, old.inc, .holding e)
    else some (current, previous, .getTest)
  | .getLoadCurrent =>
    some (current, previous, match current.epoch with
      | none => .getTest
      | some e => .getSwapCurrent e current)
  | .getSwapCurrent e old =>
    if current = old then some (old.inc, previous, .holding e)
    else some (current, previous, .getTest)
  | .endTest e =>
    some (current, previous,
      if previous.epoch = some e then .endLoadPrevious e else .endLoadCurrent e)
  | .endLoadPrevious e =>
    if previous.epoch.isNone then some (current, previous, .endTest e)
    else if previous.refcnt > 0 then some (current, previous, .endSwapPrevious e previous)
    else none
  | .endSwapPrevious e old =>
    if previous = old then some (current, old.dec, .idle)
    else some (current, previous, .endTest e)
  | .endLoadCurrent e =>
    if current.epoch.isNone then some (current, previous, .endTest e)
    else if current.refcnt > 0 then some (current, previous, .endSwapCurrent e current)
    else none
  | .endSwapCurrent e old =>
    if current = old then some (old.dec, previous, .idle)
    else some (current, previous, .endTest e)
  | .idle | .holding _ => none

/-- What a thread's locals say about the previous slot, and about each other -/
def Ok (previous : Option Nat) : Job → Prop
  | .getSwapPrevious e old | .getSwapCurrent e old => old.epoch = some e
  | .endLoadPrevious e => previous = some e
  | .endSwapPrevious e old | .endSwapCurrent e old => old.epoch = some e ∧ 0 < old.refcnt
  | _ => True

theorem Ok.congr {previous previous' : Option Nat} {j : Job} (h : j.Ok previous)
    (hp : ∀ e, j.holds = some e → previous = some e → previous' = some e) : j.Ok previous' := by
  cases j with
  | endLoadPrevious e => exact hp e rfl h
  | _ => exact h

/-- What one access does: nothing, or it pins or unpins an epoch in a slot, which
the thread then holds or held. -/
inductive Effect (current previous : EpochRef) :
    Option Nat → EpochRef → EpochRef → Option Nat → Prop
  | none {h : Option Nat} : Effect current previous h current previous h
  | pinCurrent {e : Nat} (he : current.epoch = some e) :
      Effect current previous none current.inc previous (some e)
  | pinPrevious {e : Nat} (he : previous.epoch = some e) :
      Effect current previous none current previous.inc (some e)
  | unpinCurrent {e : Nat} (he : current.epoch = some e) :
      Effect current previous (some e) current.dec previous none
  | unpinPrevious {e : Nat} (he : previous.epoch = some e) :
      Effect current previous (some e) current previous.dec none

theorem step_effect {current previous current' previous' : EpochRef} {j j' : Job}
    (h : j.step current previous = some (current', previous', j')) (hj : j.Ok previous.epoch)
    (hown : ∀ e, j = .endLoadCurrent e → current.epoch = Option.none ∨ current.epoch = some e) :
    j'.Ok previous'.epoch ∧ Effect current previous j.holds current' previous' j'.holds := by
  cases j with
  | idle => cases h
  | holding e => cases h
  | getTest =>
    simp only [step, Option.some.injEq, Prod.mk.injEq] at h
    obtain ⟨rfl, rfl, rfl⟩ := h
    split <;> exact ⟨trivial, .none⟩
  | getLoadPrevious =>
    simp only [step, Option.some.injEq, Prod.mk.injEq] at h
    obtain ⟨rfl, rfl, rfl⟩ := h
    split
    · exact ⟨trivial, .none⟩
    · rename_i e he
      exact ⟨he, .none⟩
  | getLoadCurrent =>
    simp only [step, Option.some.injEq, Prod.mk.injEq] at h
    obtain ⟨rfl, rfl, rfl⟩ := h
    split
    · exact ⟨trivial, .none⟩
    · rename_i e he
      exact ⟨he, .none⟩
  | getSwapPrevious e old =>
    simp only [step] at h
    split at h
    · rename_i heq
      subst heq
      obtain ⟨rfl, rfl, rfl⟩ : _ ∧ _ ∧ _ := by simpa using h
      exact ⟨trivial, .pinPrevious hj⟩
    · obtain ⟨rfl, rfl, rfl⟩ : _ ∧ _ ∧ _ := by simpa using h
      exact ⟨trivial, .none⟩
  | getSwapCurrent e old =>
    simp only [step] at h
    split at h
    · rename_i heq
      subst heq
      obtain ⟨rfl, rfl, rfl⟩ : _ ∧ _ ∧ _ := by simpa using h
      exact ⟨trivial, .pinCurrent hj⟩
    · obtain ⟨rfl, rfl, rfl⟩ : _ ∧ _ ∧ _ := by simpa using h
      exact ⟨trivial, .none⟩
  | endTest e =>
    simp only [step, Option.some.injEq, Prod.mk.injEq] at h
    obtain ⟨rfl, rfl, rfl⟩ := h
    split
    · rename_i he
      exact ⟨he, .none⟩
    · exact ⟨trivial, .none⟩
  | endLoadPrevious e =>
    have he : previous.epoch = some e := hj
    simp only [step, he, Option.isNone_some, Bool.false_eq_true, if_false] at h
    split at h
    · rename_i hpos
      obtain ⟨rfl, rfl, rfl⟩ : _ ∧ _ ∧ _ := by simpa using h
      exact ⟨⟨he, hpos⟩, .none⟩
    · cases h
  | endSwapPrevious e old =>
    simp only [step] at h
    split at h
    · rename_i heq
      subst heq
      obtain ⟨rfl, rfl, rfl⟩ : _ ∧ _ ∧ _ := by simpa using h
      exact ⟨trivial, .unpinPrevious hj.1⟩
    · obtain ⟨rfl, rfl, rfl⟩ : _ ∧ _ ∧ _ := by simpa using h
      exact ⟨trivial, .none⟩
  | endLoadCurrent e =>
    simp only [step] at h
    split at h
    · obtain ⟨rfl, rfl, rfl⟩ : _ ∧ _ ∧ _ := by simpa using h
      exact ⟨trivial, .none⟩
    · rename_i hsome
      split at h
      · rename_i hpos
        obtain ⟨rfl, rfl, rfl⟩ : _ ∧ _ ∧ _ := by simpa using h
        -- this is where the epoch that is found must be the caller's
        have he := (hown e rfl).resolve_left (by simpa using hsome)
        exact ⟨⟨he, hpos⟩, .none⟩
      · cases h
  | endSwapCurrent e old =>
    simp only [step] at h
    split at h
    · rename_i heq
      subst heq
      obtain ⟨rfl, rfl, rfl⟩ : _ ∧ _ ∧ _ := by simpa using h
      exact ⟨trivial, .unpinCurrent hj.1⟩
    · obtain ⟨rfl, rfl, rfl⟩ : _ ∧ _ ∧ _ := by simpa using h
      exact ⟨trivial, .none⟩

end Job

/-- The reconstruction thread in front of its next access in `create_new_epoch` and
`advance_epoch`. In `get` and `endJob` it runs `get_active_epoch` and `end_job`. -/
inductive Advance where
  | idle
  | get
  | store
  | endJob
  | created
  | retireLoad (epoch : Nat)
  | retireSwap (epoch : Nat)
  | moveLoad
  | moveSwap (cur : EpochRef)
  | moveStore (cur : EpochRef)
  | advanceHead
  | installLoad
  | installStore (next : EpochRef)
  | clear
  deriving DecidableEq, Repr

/-- The three slots and all threads; `none` is the reconstruction thread. -/
structure EpochSlots (ι : Type) where
  current : EpochRef
  previous : EpochRef
  next : EpochRef
  epochCnt : Nat
  jobs : Option ι → Job
  advance : Advance

/-- Who takes the next step: a thread starts `get_active_epoch` or `end_job` or goes
on in it, or the reconstruction thread goes on. -/
inductive EpochAction (ι : Type) where
  | start (t : ι)
  | finish (t : ι)
  | job (t : Option ι)
  | advance
  deriving DecidableEq, Repr

namespace EpochSlots
variable {ι : Type} [DecidableEq ι]

def new (ι : Type) : EpochSlots ι := ⟨⟨some 0, 0⟩, .null, .null, 0, fun _ => .idle, .idle⟩

def setJob (s : EpochSlots ι) (t : Option ι) (j : Job) : EpochSlots ι :=
  { s with jobs := Function.update s.jobs t j }

/-- The wait of `advance_epoch` for the buffer touches no slot. -/
def advanceStep (s : EpochSlots ι) : Option (EpochSlots ι) :=
  match s.advance with
  | .idle => do
    guard s.next.epoch.isNone
    return { s.setJob none .getTest with advance := .get }
  | .get =>
    match s.jobs none with
    | .holding _ => some { s with epochCnt := s.epochCnt + 1, advance := .store }
    | _ => none
  | .store =>
    match s.jobs none with
    | .holding e =>
      some { s.setJob none (.endTest e) with next := ⟨some s.epochCnt, 0⟩, advance := .endJob }
    | _ => none
  | .endJob => if s.jobs none = .idle then some { s with advance := .created } else none
  | .created =>
    some { s with advance := match s.previous.epoch with
      | none => .moveLoad
      | some p => .retireLoad p }
  | .retireLoad p =>
    some { s with advance := if s.previous = ⟨some p, 0⟩ then .retireSwap p else .retireLoad p }
  | .retireSwap p =>
    if s.previous = ⟨some p, 0⟩ then some { s with previous := .null, advance := .moveLoad }
    else some { s with advance := .retireLoad p }
  | .moveLoad => some { s with advance := .moveSwap s.current }
  | .moveSwap cur =>
    if s.current = cur then some { s with current := .null, advance := .moveStore cur }
    else some { s with advance := .moveLoad }
  | .moveStore cur => some { s with previous := cur, advance := .advanceHead }
  | .advanceHead => some { s with advance := .installLoad }
  | .installLoad => some { s with advance := .installStore s.next }
  | .installStore next => some { s with current := next, advance := .clear }
  | .clear => some { s with next := .null, advance := .idle }

def step (s : EpochSlots ι) : EpochAction ι → Option (EpochSlots ι)
  | .start t => if s.jobs (some t) = .idle then some (s.setJob (some t) .getTest) else none
  | .finish t =>
    match s.jobs (some t) with
    | .holding e => some (s.setJob (some t) (.endTest e))
    | _ => none
  | .job t =>
    ((s.jobs t).step s.current s.previous).map fun (current, previous, j) =>
      { s.setJob t j with current := current, previous := previous }
  | .advance => s.advanceStep

variable [Fintype ι]

/-- How many threads hold an epoch, by what they run -/
def holdersOf (jobs : Option ι → Job) (e : Nat) : Nat :=
  (Finset.univ.filter fun t => (jobs t).holds = some e).card

/-- How many threads hold an epoch -/
def holders (s : EpochSlots ι) : Nat → Nat := holdersOf s.jobs

/-- The counts of the slots are those of the threads that hold their epochs, every
held epoch has a slot (or is on its way from one to the other, with its count),
`end_job` exchanges its own epoch, whose count is not 0, and only epochs that
nobody holds are retired. -/
structure Exact (s : EpochSlots ι) : Prop where
  current : s.current.Counts s.holders
  previous : s.previous.Counts s.holders
  next : s.advance ≠ .clear → s.next.Counts s.holders
  stored : ∀ t e, (s.jobs t).holds = some e → s.current.epoch = some e ∨
    s.previous.epoch = some e ∨ s.advance = .moveStore ⟨some e, s.holders e⟩
  own : ∀ t e old, s.jobs t = .endSwapPrevious e old ∨ s.jobs t = .endSwapCurrent e old →
    old.epoch = some e ∧ 0 < old.refcnt
  retired : ∀ p, s.advance = .retireSwap p → s.previous = ⟨some p, 0⟩ → s.holders p = 0

/-- All interleavings -/
inductive Reachable : EpochSlots ι → Prop
  | new : Reachable (new ι)
  | step {s s' : EpochSlots ι} {a : EpochAction ι} (hs : Reachable s) (h : s.step a = some s') :
      Reachable s'

/-- Where `end_job` has found that its epoch is not the previous one and now loads the
current slot, it finds its own epoch there, or none. -/
def OwnCurrent (s : EpochSlots ι) : EpochAction ι → Prop
  | .job t => ∀ e, s.jobs t = .endLoadCurrent e →
      s.current.epoch = none ∨ s.current.epoch = some e
  | _ => True

/-- The interleavings all of whose loads in `end_job` find the caller's epoch or none -/
inductive TimelyRun : EpochSlots ι → Prop
  | new : TimelyRun (new ι)
  | step {s s' : EpochSlots ι} {a : EpochAction ι} (hs : TimelyRun s) (hown : s.OwnCurrent a)
      (h : s.step a = some s') : TimelyRun s'

end EpochSlots

/-- Which epochs the slots have while the reconstruction thread is where it is -/
def Advance.Ok (cnt : Nat) (current previous : Option Nat) (next : EpochRef) : Advance → Prop
  | .idle | .get => next = .null ∧ ∃ e, current = some e ∧ e ≤ cnt ∧ ∀ p, previous = some p → p < e
  | .store => next = .null ∧ ∃ e, current = some e ∧ e < cnt ∧ ∀ p, previous = some p → p < e
  | .endJob | .created | .retireLoad _ | .retireSwap _ =>
    next = ⟨some cnt, 0⟩ ∧ ∃ e, current = some e ∧ e < cnt ∧ ∀ p, previous = some p → p < e
  | .moveLoad | .moveSwap _ =>
    next = ⟨some cnt, 0⟩ ∧ previous = none ∧ ∃ e, current = some e ∧ e < cnt
  | .moveStore cur =>
    next = ⟨some cnt, 0⟩ ∧ previous = none ∧ current = none ∧ ∃ e, cur.epoch = some e ∧ e < cnt
  | .advanceHead | .installLoad =>
    next = ⟨some cnt, 0⟩ ∧ current = none ∧ ∃ p, previous = some p ∧ p < cnt
  | .installStore n =>
    n = next ∧ next = ⟨some cnt, 0⟩ ∧ current = none ∧ ∃ p, previous = some p ∧ p < cnt
  | .clear => next.epoch = some cnt ∧ current = some cnt ∧ ∃ p, previous = some p ∧ p < cnt

/-- The reconstruction thread runs neither `get_active_epoch` nor `end_job`. -/
def Advance.Quiet : Advance → Prop
  | .get | .store | .endJob => False
  | _ => True

namespace EpochSlots
variable {ι : Type}

/-- The count on the way from the current to the previous slot -/
def moving (s : EpochSlots ι) : EpochRef :=
  match s.advance with
  | .moveStore cur => cur
  | _ => .null

section Inv
variable [Fintype ι]

structure Inv (s : EpochSlots ι) : Prop where
  main : s.advance.Quiet → s.jobs none = .idle
  slots : s.advance.Ok s.epochCnt s.current.epoch s.previous.epoch s.next
  jobs : ∀ t, (s.jobs t).Ok s.previous.epoch
  current : s.current.Counts s.holders
  previous : s.previous.Counts s.holders
  moving : s.moving.Counts s.holders
  stored : ∀ t e, (s.jobs t).holds = some e →
    s.current.epoch = some e ∨ s.previous.epoch = some e ∨ s.moving.epoch = some e

theorem Inv.apart {s : EpochSlots ι} (hi : s.Inv) {e : Nat} (he : s.current.epoch = some e) :
    s.previous.epoch ≠ some e := by
  intro hp
  have hslots := hi.slots
  rw [he, hp] at hslots
  cases hadv : s.advance <;> rw [hadv] at hslots <;> simp only [Advance.Ok] at hslots <;> grind

theorem Inv.moving_none {s : EpochSlots ι} (hi : s.Inv) :
    s.moving.epoch = none ∨ s.current.epoch = none ∧ s.previous.epoch = none := by
  have hslots := hi.slots
  unfold EpochSlots.moving
  cases hadv : s.advance with
  | moveStore cur =>
    rw [hadv] at hslots
    obtain ⟨-, hp, hc, -⟩ := hslots
    exact .inr ⟨hc, hp⟩
  | _ => exact .inl rfl

variable [DecidableEq ι]

/-- A thread's step keeps the invariant when it keeps the epochs of the slots and the
counts are right after it. -/
theorem Inv.setJob {s : EpochSlots ι} (hi : s.Inv) {t : Option ι} {j : Job}
    {current previous : EpochRef} (hc : current.epoch = s.current.epoch)
    (hp : previous.epoch = s.previous.epoch)
    (hmain : s.advance.Quiet → t = none → j = .idle) (hok : j.Ok s.previous.epoch)
    (hcurrent : current.Counts (holdersOf (Function.update s.jobs t j)))
    (hprevious : previous.Counts (holdersOf (Function.update s.jobs t j)))
    (hmoving : s.moving.Counts (holdersOf (Function.update s.jobs t j)))
    (hstored : ∀ e, j.holds = some e →
      s.current.epoch = some e ∨ s.previous.epoch = some e ∨ s.moving.epoch = some e) :
    Inv { s.setJob t j with current := current, previous := previous } := by
  refine ⟨fun hq => ?_, ?_, fun u => ?_, hcurrent, hprevious, hmoving, fun u e he => ?_⟩
  · simp only [EpochSlots.setJob]
    by_cases ht : none = t
    · rw [← ht, Function.update_self]
      exact hmain hq ht.symm
    · rw [Function.update_of_ne ht]
      exact hi.main hq
  · simp only [hc, hp]
    exact hi.slots
  · simp only [EpochSlots.setJob, hp]
    by_cases hu : u = t
    · rw [hu, Function.update_self]
      exact hok
    · rw [Function.update_of_ne hu]
      exact hi.jobs u
  · simp only [EpochSlots.setJob, hc, hp] at he ⊢
    by_cases hu : u = t
    · rw [hu, Function.update_self] at he
      exact hstored e he
    · rw [Function.update_of_ne hu] at he
      exact hi.stored u e he

theorem Inv.setPlace {s : EpochSlots ι} (hi : s.Inv) {t : Option ι} {j : Job}
    (hmain : s.advance.Quiet → t = none → j = .idle) (hholds : j.holds = (s.jobs t).holds)
    (hok : j.Ok s.previous.epoch) : Inv (s.setJob t j) := by
  have hsame : holdersOf (Function.update s.jobs t j) = holdersOf s.jobs :=
    Holders.count_same hholds
  have hstored : ∀ e, j.holds = some e →
      s.current.epoch = some e ∨ s.previous.epoch = some e ∨ s.moving.epoch = some e :=
    fun e he => hi.stored t e (hholds.symm.trans he)
  refine hi.setJob (rfl : s.current.epoch = _) (rfl : s.previous.epoch = _) hmain hok ?_ ?_ ?_
    hstored
  · rw [hsame]
    exact hi.current
  · rw [hsame]
    exact hi.previous
  · rw [hsame]
    exact hi.moving

/-- A step in `get_active_epoch` or `end_job` -/
theorem Inv.job {s : EpochSlots ι} (hi : s.Inv) {t : Option ι} {current previous : EpochRef}
    {j : Job} (h : (s.jobs t).step s.current s.previous = some (current, previous, j))
    (hown : s.OwnCurrent (.job t)) :
    Inv { s.setJob t j with current := current, previous := previous } := by
  obtain ⟨hok, heffect⟩ := Job.step_effect h (hi.jobs t) hown
  have hmoving : ∀ e, s.current.epoch = some e ∨ s.previous.epoch = some e →
      s.moving.epoch ≠ some e := by
    intro e he
    rcases hi.moving_none with hm | ⟨hc, hp⟩
    · simp [hm]
    · simp [hc, hp] at he
  have hmain : s.advance.Quiet → t = none → j = .idle := by
    rintro hq rfl
    rw [hi.main hq] at h
    cases h
  generalize hbefore : (s.jobs t).holds = before, hafter : j.holds = after at heffect
  cases heffect with
  | none => exact hi.setPlace hmain (hafter.trans hbefore.symm) hok
  | @pinCurrent e he =>
    obtain ⟨hinc, hother⟩ := Holders.count_pin hbefore hafter
    refine hi.setJob rfl rfl hmain hok (hi.current.inc he hinc)
      (hi.previous.other (hi.apart he) hother)
      (hi.moving.other (hmoving e (.inl he)) hother) fun x hx => ?_
    rw [hafter] at hx
    exact .inl (he.trans hx)
  | @pinPrevious e he =>
    obtain ⟨hinc, hother⟩ := Holders.count_pin hbefore hafter
    refine hi.setJob rfl rfl hmain hok (hi.current.other (fun hc => hi.apart hc he) hother)
      (hi.previous.inc he hinc) (hi.moving.other (hmoving e (.inr he)) hother) fun x hx => ?_
    rw [hafter] at hx
    exact .inr (.inl (he.trans hx))
  | @unpinCurrent e he =>
    obtain ⟨hdec, hother⟩ := Holders.count_unpin hbefore hafter
    refine hi.setJob rfl rfl hmain hok (hi.current.dec he hdec)
      (hi.previous.other (hi.apart he) hother)
      (hi.moving.other (hmoving e (.inl he)) hother) fun x hx => ?_
    rw [hafter] at hx
    cases hx
  | @unpinPrevious e he =>
    obtain ⟨hdec, hother⟩ := Holders.count_unpin hbefore hafter
    refine hi.setJob rfl rfl hmain hok (hi.current.other (fun hc => hi.apart hc he) hother)
      (hi.previous.dec he hdec) (hi.moving.other (hmoving e (.inr he)) hother) fun x hx => ?_
    rw [hafter] at hx
    cases hx

end Inv

section Advance
variable [Fintype ι] {s s' : EpochSlots ι}

theorem Inv.setAdvance (hi : s.Inv) {next : EpochRef} {cnt : Nat} {a : Advance}
    (hm : s.moving = .null) (hm' : ({ s with advance := a } : EpochSlots ι).moving = .null)
    (hslots : a.Ok cnt s.current.epoch s.previous.epoch next)
    (hmain : a.Quiet → s.jobs none = .idle) :
    Inv { s with next := next, epochCnt := cnt, advance := a } := by
  have hm'' : ({ s with next := next, epochCnt := cnt, advance := a } :
    EpochSlots ι).moving = .null := hm'
  refine ⟨hmain, hslots, hi.jobs, hi.current, hi.previous, ?_, fun t e he => ?_⟩
  · rw [hm'']
    exact EpochRef.counts_null _
  · rw [hm'', ← hm]
    exact hi.stored t e he

theorem Inv.not_held (hi : s.Inv) {p : Nat} (hp : s.previous = ⟨some p, 0⟩) (t : Option ι) :
    (s.jobs t).holds ≠ some p := by
  intro hholds
  have hpos : 0 < s.holders p := Holders.count_pos hholds
  have hcount := hi.previous p (by rw [hp])
  rw [hp] at hcount
  exact hpos.ne hcount

theorem Inv.retire (hi : s.Inv) {p : Nat} (hadv : s.advance = .retireSwap p)
    (hp : s.previous = ⟨some p, 0⟩) : Inv { s with previous := .null, advance := .moveLoad } := by
  have hslots := hi.slots
  have hmain := hi.main
  rw [hadv] at hslots hmain
  obtain ⟨hn, e, hc, hlt, -⟩ := hslots
  refine ⟨fun _ => hmain trivial, ⟨hn, rfl, e, hc, hlt⟩, fun t => ?_, hi.current,
    EpochRef.counts_null _, EpochRef.counts_null _, fun t x hx => ?_⟩
  · refine (hi.jobs t).congr fun x hx hpx => ?_
    rw [hp, Option.some.injEq] at hpx
    exact absurd (hpx ▸ hx) (hi.not_held hp t)
  · rcases hi.stored t x hx with hc | hpx | hm
    · exact .inl hc
    · rw [hp, Option.some.injEq] at hpx
      exact absurd (hpx ▸ hx) (hi.not_held hp t)
    · simp [EpochSlots.moving, hadv] at hm

theorem Inv.moveOut (hi : s.Inv) {cur : EpochRef} (hadv : s.advance = .moveSwap cur)
    (hc : s.current = cur) : Inv { s with current := .null, advance := .moveStore cur } := by
  subst hc
  have hslots := hi.slots
  have hmain := hi.main
  rw [hadv] at hslots hmain
  obtain ⟨hn, hp, e, hc, hlt⟩ := hslots
  refine ⟨fun _ => hmain trivial, ⟨hn, hp, rfl, e, hc, hlt⟩, hi.jobs, EpochRef.counts_null _,
    hi.previous, hi.current, fun t x hx => ?_⟩
  rcases hi.stored t x hx with hc | hpx | hm
  · exact .inr (.inr hc)
  · exact .inr (.inl hpx)
  · simp [EpochSlots.moving, hadv] at hm

theorem Inv.moveIn (hi : s.Inv) {cur : EpochRef} (hadv : s.advance = .moveStore cur) :
    Inv { s with previous := cur, advance := .advanceHead } := by
  have hslots := hi.slots
  have hmain := hi.main
  rw [hadv] at hslots hmain
  obtain ⟨hn, hp, hc, e, hcur, hlt⟩ := hslots
  have hmoving : s.moving = cur := by simp [EpochSlots.moving, hadv]
  refine ⟨fun _ => hmain trivial, ⟨hn, hc, e, hcur, hlt⟩, fun t => ?_, hi.current,
    hmoving ▸ hi.moving, EpochRef.counts_null _, fun t x hx => ?_⟩
  · refine (hi.jobs t).congr fun x _ hpx => ?_
    rw [hp] at hpx
    cases hpx
  · rcases hi.stored t x hx with hcx | hpx | hm
    · exact .inl hcx
    · rw [hp] at hpx
      cases hpx
    · exact .inr (.inl (hmoving ▸ hm))

theorem Inv.install (hi : s.Inv) {next : EpochRef} (hadv : s.advance = .installStore next) :
    Inv { s with current := next, advance := .clear } := by
  have hslots := hi.slots
  have hmain := hi.main
  rw [hadv] at hslots hmain
  obtain ⟨rfl, hn, hc, p, hp, hlt⟩ := hslots
  have hstored : ∀ t x, (s.jobs t).holds = some x → s.previous.epoch = some x := by
    intro t x hx
    rcases hi.stored t x hx with hcx | hpx | hm
    · rw [hc] at hcx
      cases hcx
    · exact hpx
    · simp [EpochSlots.moving, hadv] at hm
  refine ⟨fun _ => hmain trivial, ⟨by rw [hn], by simp [hn], p, hp, hlt⟩, hi.jobs, fun x hx => ?_,
    hi.previous, EpochRef.counts_null _, fun t x hx => .inr (.inl (hstored t x hx))⟩
  -- nobody can hold the epoch before it is installed
  rw [hn, Option.some.injEq] at hx
  subst hx
  rw [hn, eq_comm, EpochSlots.holders, holdersOf, Finset.card_eq_zero,
    Finset.filter_eq_empty_iff]
  intro t _ ht
  have := hstored t _ ht
  rw [hp, Option.some.injEq] at this
  exact hlt.ne this

variable [DecidableEq ι]

theorem Inv.advance (hi : s.Inv) (h : s.advanceStep = some s') : s'.Inv := by
  have hslots := hi.slots
  have hmain := hi.main
  unfold advanceStep at h
  cases hadv : s.advance with
  | idle =>
    rw [hadv] at h hslots hmain
    obtain ⟨-, -, h⟩ := Option.bind_eq_some_iff.mp h
    obtain rfl := Option.some.inj h
    have hget : Inv { s with advance := .get } :=
      hi.setAdvance (by simp [EpochSlots.moving, hadv]) rfl hslots fun h => h.elim
    exact hget.setPlace (fun h => h.elim) (by rw [hmain trivial]; rfl) trivial
  | get =>
    rw [hadv] at h hslots
    simp only at h
    split at h
    · obtain rfl := Option.some.inj h
      obtain ⟨hn, e, hc, hle, hp⟩ := hslots
      exact hi.setAdvance (by simp [EpochSlots.moving, hadv]) rfl
        ⟨hn, e, hc, Nat.lt_succ_of_le hle, hp⟩
        fun h => h.elim
    · cases h
  | store =>
    rw [hadv] at h hslots
    simp only at h
    split at h
    · rename_i e hjob
      obtain rfl := Option.some.inj h
      have hend : Inv { s with next := ⟨some s.epochCnt, 0⟩, advance := .endJob } :=
        hi.setAdvance (by simp [EpochSlots.moving, hadv]) rfl ⟨rfl, hslots.2⟩ fun h => h.elim
      exact hend.setPlace (fun h => h.elim) (by rw [hjob]; rfl) trivial
    · cases h
  | endJob =>
    rw [hadv] at h hslots
    simp only at h
    split at h
    · rename_i hidle
      obtain rfl := Option.some.inj h
      exact hi.setAdvance (by simp [EpochSlots.moving, hadv]) rfl hslots fun _ => hidle
    · cases h
  | created =>
    rw [hadv] at h hslots hmain
    obtain rfl := Option.some.inj h
    obtain ⟨hn, e, hc, hlt, hp⟩ := hslots
    refine hi.setAdvance (by simp [EpochSlots.moving, hadv]) ?_ ?_ fun _ => hmain trivial
    · cases s.previous.epoch <;> rfl
    · cases hprev : s.previous.epoch with
      | none => exact ⟨hn, rfl, e, hc, hlt⟩
      | some p => exact ⟨hn, e, hc, hlt, hprev ▸ hp⟩
  | retireLoad p =>
    rw [hadv] at h hslots hmain
    obtain rfl := Option.some.inj h
    refine hi.setAdvance (by simp [EpochSlots.moving, hadv]) ?_ ?_ fun _ => hmain trivial
    · split <;> rfl
    · split <;> exact hslots
  | retireSwap p =>
    rw [hadv] at h hslots hmain
    simp only at h
    split at h
    · rename_i hp
      obtain rfl := Option.some.inj h
      exact hi.retire hadv hp
    · obtain rfl := Option.some.inj h
      exact hi.setAdvance (by simp [EpochSlots.moving, hadv]) rfl hslots fun _ => hmain trivial
  | moveLoad =>
    rw [hadv] at h hslots hmain
    obtain rfl := Option.some.inj h
    exact hi.setAdvance (by simp [EpochSlots.moving, hadv]) rfl hslots fun _ => hmain trivial
  | moveSwap cur =>
    rw [hadv] at h hslots hmain
    simp only at h
    split at h
    · rename_i hc
      obtain rfl := Option.some.inj h
      exact hi.moveOut hadv hc
    · obtain rfl := Option.some.inj h
      exact hi.setAdvance (by simp [EpochSlots.moving, hadv]) rfl hslots fun _ => hmain trivial
  | moveStore cur =>
    rw [hadv] at h
    obtain rfl := Option.some.inj h
    exact hi.moveIn hadv
  | advanceHead =>
    rw [hadv] at h hslots hmain
    obtain rfl := Option.some.inj h
    exact hi.setAdvance (by simp [EpochSlots.moving, hadv]) rfl hslots fun _ => hmain trivial
  | installLoad =>
    rw [hadv] at h hslots hmain
    obtain rfl := Option.some.inj h
    exact hi.setAdvance (by simp [EpochSlots.moving, hadv]) rfl ⟨rfl, hslots⟩ fun _ => hmain trivial
  | installStore next =>
    rw [hadv] at h
    obtain rfl := Option.some.inj h
    exact hi.install hadv
  | clear =>
    rw [hadv] at h hslots hmain
    obtain rfl := Option.some.inj h
    obtain ⟨-, hc, p, hp, hlt⟩ := hslots
    refine hi.setAdvance (by simp [EpochSlots.moving, hadv]) rfl
      ⟨rfl, _, hc, le_rfl, fun q hq => ?_⟩
      fun _ => hmain trivial
    rw [hp, Option.some.injEq] at hq
    exact hq ▸ hlt

theorem step_inv {a : EpochAction ι} (hi : s.Inv) (hown : s.OwnCurrent a)
    (h : s.step a = some s') : s'.Inv := by
  cases a with
  | start t =>
    simp only [step] at h
    split at h
    · rename_i hidle
      obtain rfl := Option.some.inj h
      exact hi.setPlace (by simp) (by rw [hidle]; rfl) trivial
    · cases h
  | finish t =>
    simp only [step] at h
    split at h
    · rename_i e hjob
      obtain rfl := Option.some.inj h
      exact hi.setPlace (by simp) (by rw [hjob]; rfl) trivial
    · cases h
  | job t =>
    obtain ⟨⟨current, previous, j⟩, hj, rfl⟩ := Option.map_eq_some_iff.mp h
    exact hi.job hj hown
  | advance => exact hi.advance h

end Advance

section Run
variable [DecidableEq ι] [Fintype ι] {s : EpochSlots ι}

omit [DecidableEq ι] in
theorem inv_new : (new ι).Inv := by
  refine ⟨fun _ => rfl, ⟨rfl, 0, rfl, le_rfl, by simp [new]⟩, fun _ => trivial, ?_,
    EpochRef.counts_null _, EpochRef.counts_null _, fun t e he => by cases he⟩
  intro e _
  have hnobody : ∀ t, ¬ ((new ι).jobs t).holds = some e := by
    rintro t ⟨⟩
  simp [holders, holdersOf, hnobody]
  rfl

theorem TimelyRun.inv (h : TimelyRun s) : s.Inv := by
  induction h with
  | new => exact inv_new
  | step _ hown h ih => exact step_inv ih hown h

omit [DecidableEq ι] in
theorem Inv.counts_next (hi : s.Inv) (hclear : s.advance ≠ .clear) : s.next.Counts s.holders := by
  have hslots := hi.slots
  have hfresh : (∀ e, s.current.epoch = some e ∨ s.previous.epoch = some e ∨
    s.moving.epoch = some e →
      e < s.epochCnt) → EpochRef.Counts ⟨some s.epochCnt, 0⟩ s.holders := by
    rintro hlt e ⟨⟩
    rw [eq_comm, holders, holdersOf, Finset.card_eq_zero, Finset.filter_eq_empty_iff]
    intro t _ ht
    exact (hlt _ (hi.stored t _ ht)).false
  unfold EpochSlots.moving at hfresh
  cases hadv : s.advance <;> rw [hadv] at hslots hfresh <;> simp only [Advance.Ok] at hslots
  case clear => exact absurd hadv hclear
  all_goals first
    | (rw [hslots.1]; exact EpochRef.counts_null _)
    | (rw [hslots.1]; exact hfresh (by grind [EpochRef.epoch_null]))
    | (rw [hslots.2.1]; exact hfresh (by grind [EpochRef.epoch_null]))

/-- In a run in which every load of the current slot by `end_job` finds the caller's
epoch or none, all counts are exact. -/
theorem references_exact (h : TimelyRun s) : s.Exact := by
  have hi := h.inv
  refine ⟨hi.current, hi.previous, hi.counts_next, fun t e he => ?_, fun t e old hjob => ?_,
    fun p _ hp => ?_⟩
  · rcases hi.stored t e he with hc | hp | hm
    · exact .inl hc
    · exact .inr (.inl hp)
    · refine .inr (.inr ?_)
      have hcount := hi.moving e hm
      cases hadv : s.advance with
      | moveStore cur =>
        simp only [EpochSlots.moving, hadv] at hm hcount
        rw [← hm, ← hcount]
      | _ => simp [EpochSlots.moving, hadv] at hm
  · have hok := hi.jobs t
    rcases hjob with hjob | hjob
    · rw [hjob] at hok
      exact hok
    · rw [hjob] at hok
      exact hok
  · rw [holders, holdersOf, Finset.card_eq_zero, Finset.filter_eq_empty_iff]
    exact fun t _ => hi.not_held hp t

instance (s : EpochSlots ι) : ∀ a, Decidable (s.OwnCurrent a)
  | .job t => decidable_of_iff
    (∀ e ∈ (s.jobs t).holds, s.jobs t = .endLoadCurrent e →
      s.current.epoch = none ∨ s.current.epoch = some e)
    ⟨fun h e he => h e (by rw [he]; rfl) he, fun h e _ he => h e he⟩
  | .start _ | .finish _ | .advance => isTrue trivial

omit [Fintype ι] in
theorem timelyRun_of_run {s' : EpochSlots ι} (hs : TimelyRun s) {as : List (EpochAction ι)}
    (hown : StepRun.Always step OwnCurrent s as) (hrun : StepRun.run step s as = some s') :
    TimelyRun s' :=
  StepRun.inv_of_run (fun _ _ _ h hown hstep => h.step hown hstep) hs hown hrun

/-- Thread 0 pins epoch 0 and keeps it while epoch 1 takes its place; thread 1 pins epoch 1,
returns it and pins it again. -/
theorem references_exact_sample :
    ∃ s : EpochSlots (Fin 2), TimelyRun s ∧ s.current = ⟨some 1, 1⟩ ∧
      s.previous = ⟨some 0, 1⟩ ∧ s.jobs (some 0) = .holding 0 ∧ s.jobs (some 1) = .holding 1 ∧
      s.Exact := by
  obtain ⟨as, hown, hrun⟩ : ∃ as : List (EpochAction (Fin 2)),
      StepRun.Always step OwnCurrent (new (Fin 2)) as ∧ (StepRun.run step (new (Fin 2)) as).map
        (fun s => (s.current, s.previous, s.jobs (some 0), s.jobs (some 1))) =
          some (⟨some 1, 1⟩, ⟨some 0, 1⟩, .holding 0, .holding 1) :=
    ⟨List.flatten [.start 0 :: List.replicate 3 (.job (some 0)),
      .advance :: List.replicate 3 (.job none), [.advance, .advance], List.replicate 3 (.job none),
      List.replicate 9 .advance, .start 1 :: List.replicate 3 (.job (some 1)),
      .finish 1 :: List.replicate 3 (.job (some 1)),
      .start 1 :: List.replicate 3 (.job (some 1))], by decide +kernel, by decide +kernel⟩
  obtain ⟨s, hs, hfinal⟩ := Option.map_eq_some_iff.mp hrun
  simp only [Prod.mk.injEq] at hfinal
  obtain ⟨hc, hp, h0, h1⟩ := hfinal
  have htimely := timelyRun_of_run .new hown hs
  exact ⟨s, htimely, hc, hp, h0, h1, references_exact htimely⟩

/-- The state after some steps -/
def runSteps (s : EpochSlots ι) (as : List (EpochAction ι)) : Option (EpochSlots ι) :=
  as.foldlM step s

omit [Fintype ι] in
theorem Reachable.runSteps {s' : EpochSlots ι} (hs : Reachable s) {as : List (EpochAction ι)}
    (h : s.runSteps as = some s') : Reachable s' := by
  induction as generalizing s with
  | nil => exact Option.some.inj h ▸ hs
  | cons a as ih =>
    obtain ⟨s₁, hs₁, h⟩ := Option.bind_eq_some_iff.mp h
    exact ih (hs.step hs₁) h

/-- A thread about to return epoch 0 finds that it is not the previous one. Before it
loads the current slot, epoch 1 is installed there, and pinned by another thread. -/
theorem not_references_exact :
    ∃ s : EpochSlots (Fin 2), Reachable s ∧ s.advance = .idle ∧
      (∀ t, s.jobs t = .idle ∨ ∃ e, s.jobs t = .holding e) ∧ ¬ s.current.Counts s.holders := by
  obtain ⟨as, hrun⟩ : ∃ as : List (EpochAction (Fin 2)), ((new (Fin 2)).runSteps as).map
      (fun s => (s.current, s.advance, s.jobs none, s.jobs (some 0), s.jobs (some 1))) =
      some (⟨some 1, 0⟩, .idle, .idle, .idle, .holding 1) :=
    ⟨List.flatten [.start 0 :: List.replicate 3 (.job (some 0)),
      [.finish 0, .job (some 0), .advance],
      List.replicate 3 (.job none), [.advance, .advance], List.replicate 3 (.job none),
      List.replicate 9 .advance, .start 1 :: List.replicate 3 (.job (some 1)),
      List.replicate 2 (.job (some 0))], by decide⟩
  obtain ⟨s, hs, hfinal⟩ := Option.map_eq_some_iff.mp hrun
  simp only [Prod.mk.injEq] at hfinal
  obtain ⟨hc, hadv, hnone, h0, h1⟩ := hfinal
  refine ⟨s, Reachable.new.runSteps hs, hadv, fun t => ?_, fun hcount => ?_⟩
  · match t with
    | none => exact .inl hnone
    | some 0 => exact .inl h0
    | some 1 => exact .inr ⟨1, h1⟩
  · have hpos : 0 < holdersOf s.jobs 1 := Holders.count_pos (t := some 1) (by rw [h1]; rfl)
    have := hcount 1 (by rw [hc])
    rw [hc] at this
    exact hpos.ne this

end Run

end EpochSlots

end De
