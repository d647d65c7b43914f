import DynamicExtension.MutableBuffer
import DynamicExtension.Library.Holders
import DynamicExtension.Library.StepRun
set_option autoImplicit false

namespace De

/-- A thread in front of its next atomic access of `m_head` or `m_old_head`, with the locals it
still needs: the head that it asked for or holds, and what a `compare_exchange` expects. -/
inductive HeadJob where
  | idle
  | ask
  | getTestOld (target : Nat)
  | getLoadOld (target : Nat)
  | getSwapOld (target refcnt : Nat)
  | getTestHead (target : Nat)
  | getLoadHead (target : Nat)
  | getSwapHead (target refcnt : Nat)
  | holding (head : Nat)
  | releaseTest (head : Nat)
  | releaseLoadOld (head : Nat)
  | releaseSwapOld (head : Nat) (cur : BufferHead)
  | releaseLoadHead (head : Nat)
  | releaseSwapHead (head : Nat) (cur : BufferHead)
  deriving DecidableEq, Repr

namespace HeadJob

/-- The head that a thread has a view on, from the exchange in `get_head` to the one in
`release_head_reference` -/
def holds : HeadJob → Option Nat
  | .holding h | .releaseTest h | .releaseLoadOld h | .releaseSwapOld h _ | .releaseLoadHead h
  | .releaseSwapHead h _ => some h
  | _ => none

/-- The next access of `get_head` or `release_head_reference`. The exchanges of `get_head` expect
the index that was asked for, with the count that was loaded. -/
def step (head old : BufferHead) : HeadJob → Option (BufferHead × BufferHead × HeadJob)
  | .ask => some (head, old, .getTestOld head.headIdx)
  | .getTestOld target =>
    some (head, old, if old.headIdx = target then .getLoadOld target else .getTestHead target)
  | .getLoadOld target => some (head, old, .getSwapOld target old.refcnt)
  | .getSwapOld target refcnt =>
    if old = ⟨target, refcnt⟩ then some (head, ⟨target, refcnt + 1⟩, .holding target)
    else some (head, old, .getTestOld target)
  | .getTestHead target =>
    some (head, old, if head.headIdx = target then .getLoadHead target else .getTestOld target)
  | .getLoadHead target => some (head, old, .getSwapHead target head.refcnt)
  | .getSwapHead target refcnt =>
    if head = ⟨target, refcnt⟩ then some (⟨target, refcnt + 1⟩, old, .holding target)
    else some (head, old, .getTestOld target)
  | .releaseTest h =>
    some (head, old, if old.headIdx = h then .releaseLoadOld h else .releaseLoadHead h)
  | .releaseLoadOld h =>
    some (head, old, if old.refcnt = 0 then .releaseTest h else .releaseSwapOld h old)
  | .releaseSwapOld h cur =>
    if old = cur then some (head, ⟨cur.headIdx, cur.refcnt - 1⟩, .idle)
    else some (head, old, .releaseTest h)
  | .releaseLoadHead h =>
    some (head, old, if head.refcnt = 0 then .releaseTest h else .releaseSwapHead h head)
  | .releaseSwapHead h cur =>
    if head = cur then some (⟨cur.headIdx, cur.refcnt - 1⟩, old, .idle)
    else some (head, old, .releaseTest h)
  | .idle | .holding _ => none

/-- What a thread's locals say about the heads. `fresh` says that no head was published as the
old one yet. -/
def Knows (head old : Nat) (fresh : Prop) : HeadJob → Prop
  | .getTestOld target | .getLoadOld target | .getSwapOld target _ => target ≤ head
  | .getTestHead target | .getLoadHead target | .getSwapHead target _ =>
    target ≤ head ∧ (fresh → target ≠ old)
  | .releaseLoadOld h => old = h
  | .releaseSwapOld h cur | .releaseSwapHead h cur => cur.headIdx = h ∧ 0 < cur.refcnt
  | _ => True

theorem Knows.mono {head head' old : Nat} {fresh : Prop} {j : HeadJob}
    (h : j.Knows head old fresh) (hle : head ≤ head') : j.Knows head' old fresh := by
  cases j with
  | getTestOld target | getLoadOld target | getSwapOld target refcnt => exact le_trans h hle
  | getTestHead target | getLoadHead target | getSwapHead target refcnt =>
    exact ⟨le_trans h.1 hle, h.2⟩
  | _ => exact h

theorem Knows.publish {head old old' : Nat} {fresh : Prop} {j : HeadJob}
    (h : j.Knows head old fresh) (hlt : old' < head) (hnot : j.holds ≠ some old) :
    j.Knows head old' (¬ old' < head) := by
  cases j with
  | getTestHead target | getLoadHead target | getSwapHead target refcnt =>
    exact ⟨h.1, fun hfresh => absurd hlt hfresh⟩
  | releaseLoadOld h' => exact absurd (congrArg some h.symm) hnot
  | _ => exact h

/-- `tested` says that an `advance_head` is between its test of the old head and its store. The
acquire takes no old head then, and a release loads the current head only as long as it is its
own, or has no references. -/
def Timely (head old : BufferHead) (tested : Prop) : HeadJob → Prop
  | .getSwapOld target refcnt => old = ⟨target, refcnt⟩ → ¬ tested
  | .releaseLoadHead h => head.headIdx = h ∨ head.refcnt = 0
  | _ => True

instance (head old : BufferHead) (tested : Prop) [Decidable tested] :
    ∀ j : HeadJob, Decidable (j.Timely head old tested)
  | .getSwapOld _ _ => inferInstanceAs (Decidable (_ → _))
  | .releaseLoadHead _ => inferInstanceAs (Decidable (_ ∨ _))
  | .idle | .ask | .getTestOld _ | .getLoadOld _ | .getTestHead _ | .getLoadHead _
  | .getSwapHead _ _ | .holding _ | .releaseTest _ | .releaseLoadOld _ | .releaseSwapOld _ _
  | .releaseSwapHead _ _ => inferInstanceAs (Decidable True)

/-- What one access does: nothing, or it adds or drops a reference to the head in a slot, which
the thread then holds or held. -/
inductive Effect (head old : BufferHead) (fresh tested : Prop) :
    Option Nat → BufferHead → BufferHead → Option Nat → Prop
  | none {h : Option Nat} : Effect head old fresh tested h head old h
  | pinHead (hne : fresh → head.headIdx ≠ old.headIdx) :
      Effect head old fresh tested none ⟨head.headIdx, head.refcnt + 1⟩ old (some head.headIdx)
  | pinOld (hle : old.headIdx ≤ head.headIdx) (htest : ¬ tested) :
      Effect head old fresh tested none head ⟨old.headIdx, old.refcnt + 1⟩ (some old.headIdx)
  | unpinHead : Effect head old fresh tested (some head.headIdx)
      ⟨head.headIdx, head.refcnt - 1⟩ old none
  | unpinOld : Effect head old fresh tested (some old.headIdx)
      head ⟨old.headIdx, old.refcnt - 1⟩ none

theorem step_effect {head old head' old' : BufferHead} {fresh tested : Prop} {j j' : HeadJob}
    (h : j.step head old = some (head', old', j')) (hj : j.Knows head.headIdx old.headIdx fresh)
    (htimely : j.Timely head old tested) :
    j'.Knows head.headIdx old.headIdx fresh ∧
      Effect head old fresh tested j.holds head' old' j'.holds := by
  cases j with
  | idle => cases h
  | holding h => cases h
  | ask =>
    obtain ⟨rfl, rfl, rfl⟩ : _ ∧ _ ∧ _ := by simpa [step] using h
    exact ⟨le_rfl, .none⟩
  | getTestOld target =>
    obtain ⟨rfl, rfl, rfl⟩ : _ ∧ _ ∧ _ := by simpa [step] using h
    split
    · exact ⟨hj, .none⟩
    · rename_i hne
      exact ⟨⟨hj, fun _ => Ne.symm hne⟩, .none⟩
  | getLoadOld target =>
    obtain ⟨rfl, rfl, rfl⟩ : _ ∧ _ ∧ _ := by simpa [step] using h
    exact ⟨hj, .none⟩
  | getSwapOld target refcnt =>
    rw [step] at h
    split at h
    · rename_i heq
      subst heq
      obtain ⟨rfl, rfl, rfl⟩ : _ ∧ _ ∧ _ := by simpa using h
      exact ⟨trivial, .pinOld hj (htimely rfl)⟩
    · obtain ⟨rfl, rfl, rfl⟩ : _ ∧ _ ∧ _ := by simpa using h
      exact ⟨hj, .none⟩
  | getTestHead target =>
    obtain ⟨rfl, rfl, rfl⟩ : _ ∧ _ ∧ _ := by simpa [step] using h
    split
    · exact ⟨hj, .none⟩
    · exact ⟨hj.1, .none⟩
  | getLoadHead target =>
    obtain ⟨rfl, rfl, rfl⟩ : _ ∧ _ ∧ _ := by simpa [step] using h
    exact ⟨hj, .none⟩
  | getSwapHead target refcnt =>
    rw [step] at h
    split at h
    · rename_i heq
      subst heq
      obtain ⟨rfl, rfl, rfl⟩ : _ ∧ _ ∧ _ := by simpa using h
      exact ⟨trivial, .pinHead hj.2⟩
    · obtain ⟨rfl, rfl, rfl⟩ : _ ∧ _ ∧ _ := by simpa using h
      exact ⟨hj.1, .none⟩
  | releaseTest h' =>
    obtain ⟨rfl, rfl, rfl⟩ : _ ∧ _ ∧ _ := by simpa [step] using h
    split
    · rename_i heq
      exact ⟨heq, .none⟩
    · exact ⟨trivial, .none⟩
  | releaseLoadOld h' =>
    obtain ⟨rfl, rfl, rfl⟩ : _ ∧ _ ∧ _ := by simpa [step] using h
    split
    · exact ⟨trivial, .none⟩
    · rename_i hne
      exact ⟨⟨hj, Nat.pos_of_ne_zero hne⟩, .none⟩
  | releaseSwapOld h' cur =>
    rw [step] at h
    obtain ⟨rfl, -⟩ := hj
    split at h
    · rename_i heq
      subst heq
      obtain ⟨rfl, rfl, rfl⟩ : _ ∧ _ ∧ _ := by simpa using h
      exact ⟨trivial, .unpinOld⟩
    · obtain ⟨rfl, rfl, rfl⟩ : _ ∧ _ ∧ _ := by simpa using h
      exact ⟨trivial, .none⟩
  | releaseLoadHead h' =>
    obtain ⟨rfl, rfl, rfl⟩ : _ ∧ _ ∧ _ := by simpa [step] using h
    split
    · exact ⟨trivial, .none⟩
    · rename_i hne
      -- this is where the head that is found must be the caller's
      exact ⟨⟨htimely.resolve_right hne, Nat.pos_of_ne_zero hne⟩, .none⟩
  | releaseSwapHead h' cur =>
    rw [step] at h
    obtain ⟨rfl, -⟩ := hj
    split at h
    · rename_i heq
      subst heq
      obtain ⟨rfl, rfl, rfl⟩ : _ ∧ _ ∧ _ := by simpa using h
      exact ⟨trivial, .unpinHead⟩
    · obtain ⟨rfl, rfl, rfl⟩ : _ ∧ _ ∧ _ := by simpa using h
      exact ⟨trivial, .none⟩

end HeadJob

/-- The thread in front of its next access in `advance_head`. `idle` is also the result when the
old head is still referenced. -/
inductive HeadAdvance where
  | idle
  | testHead (newHead : Nat)
  | testOld (newHead : Nat)
  | loadHead (newHead : Nat)
  | swapHead (newHead : Nat) (cur : BufferHead)
  | storeOld (cur : BufferHead)
  deriving DecidableEq, Repr

namespace HeadAdvance

/-- The old head was found without references and is about to be replaced. -/
def tested : HeadAdvance → Bool
  | .loadHead _ | .swapHead _ _ | .storeOld _ => true
  | _ => false

/-- The next access. `none` is the failed assertion that the new head is past the current one;
the other assertion reads only the tail. -/
def step (head old : BufferHead) : HeadAdvance → Option (BufferHead × BufferHead × HeadAdvance)
  | .testHead newHead => if newHead > head.headIdx then some (head, old, .testOld newHead) else none
  | .testOld newHead => some (head, old, if old.refcnt > 0 then .idle else .loadHead newHead)
  | .loadHead newHead => some (head, old, .swapHead newHead head)
  | .swapHead newHead cur =>
    if head = cur then some (⟨newHead, 0⟩, old, .storeOld cur)
    else some (head, old, .loadHead newHead)
  | .storeOld cur => some (head, cur, .idle)
  | .idle => none

end HeadAdvance

/-- Both heads and all threads -/
structure HeadSlots (ι : Type) where
  head : BufferHead
  old : BufferHead
  jobs : ι → HeadJob
  advance : HeadAdvance

/-- Who takes the next step: a thread starts `get_buffer_view` or the release of its view or goes
on in it, or the one thread that advances the head starts or goes on. -/
inductive HeadOp (ι : Type) where
  | acquire (t : ι)
  | release (t : ι)
  | job (t : ι)
  | advanceHead (newHead : Nat)
  | advance
  deriving DecidableEq, Repr

namespace HeadSlots
variable {ι : Type} [DecidableEq ι]

def start (ι : Type) (hwm : Nat) : HeadSlots ι := ⟨⟨0, 0⟩, ⟨hwm, 0⟩, fun _ => .idle, .idle⟩

def setJob (s : HeadSlots ι) (t : ι) (j : HeadJob) : HeadSlots ι :=
  { s with jobs := Function.update s.jobs t j }

def step (s : HeadSlots ι) : HeadOp ι → Option (HeadSlots ι)
  | .acquire t => if s.jobs t = .idle then some (s.setJob t .ask) else none
  | .release t =>
    match s.jobs t with
    | .holding h => some (s.setJob t (.releaseTest h))
    | _ => none
  | .job t =>
    ((s.jobs t).step s.head s.old).map fun (head, old, j) =>
      { s.setJob t j with head := head, old := old }
  | .advanceHead newHead =>
    if s.advance = .idle then some { s with advance := .testHead newHead } else none
  | .advance =>
    (s.advance.step s.head s.old).map fun (head, old, a) =>
      { s with head := head, old := old, advance := a }

/-- A thread's step takes no old head that an `advance_head` has tested, and loads the current
head in a release only while it is the caller's, or has no references. -/
def Timely (s : HeadSlots ι) : HeadOp ι → Prop
  | .job t => (s.jobs t).Timely s.head s.old (s.advance.tested = true)
  | _ => True

instance (s : HeadSlots ι) : ∀ op : HeadOp ι, Decidable (s.Timely op)
  | .job t => inferInstanceAs (Decidable ((s.jobs t).Timely s.head s.old (s.advance.tested = true)))
  | .acquire _ | .release _ | .advanceHead _ | .advance => inferInstanceAs (Decidable True)

/-- The head that was last taken out of `m_head`, until it is stored as the old one -/
def last (s : HeadSlots ι) : Nat :=
  match s.advance with
  | .storeOld cur => cur.headIdx
  | _ => s.head.headIdx

variable [Fintype ι]

/-- How many threads have a view on a head -/
def views (s : HeadSlots ι) : Nat → Nat := Holders.count HeadJob.holds s.jobs

/-- The counts of both heads are those of the views on them; every view is on one of them, or on
the one on its way from one slot to the other, with its count; a release exchanges its own head,
whose count is not 0; and only an old head without views is overwritten. -/
structure Exact (s : HeadSlots ι) : Prop where
  head : s.head.refcnt = s.views s.head.headIdx
  old : s.old.refcnt = s.views s.old.headIdx
  stored : ∀ t h, (s.jobs t).holds = some h → h = s.head.headIdx ∨ h = s.old.headIdx ∨
    s.advance = .storeOld ⟨h, s.views h⟩
  own : ∀ t h cur, s.jobs t = .releaseSwapOld h cur ∨ s.jobs t = .releaseSwapHead h cur →
    cur.headIdx = h ∧ 0 < cur.refcnt
  kept : ∀ cur, s.advance = .storeOld cur → s.views s.old.headIdx = 0

/-- What each place of `advance_head` knows of the current head -/
def AdvanceOk (s : HeadSlots ι) : Prop :=
  match s.advance with
  | .testOld newHead | .loadHead newHead | .swapHead newHead _ => s.head.headIdx < newHead
  | .storeOld cur => cur.headIdx < s.head.headIdx ∧ cur.refcnt = s.views cur.headIdx
  | _ => True

structure Inv (s : HeadSlots ι) : Prop where
  head : s.head.refcnt = s.views s.head.headIdx
  old : s.old.refcnt = s.views s.old.headIdx
  advance : s.AdvanceOk
  tested : s.advance.tested = true → s.old.refcnt = 0
  order : s.old.headIdx < s.last ∨ s.last = 0 ∧ 0 < s.old.headIdx ∧ s.old.refcnt = 0
  stored : ∀ t h, (s.jobs t).holds = some h →
    h = s.head.headIdx ∨ h = s.old.headIdx ∨ h = s.last
  jobs : ∀ t, (s.jobs t).Knows s.head.headIdx s.old.headIdx (¬ s.old.headIdx < s.last)

section Inv
variable {s s' : HeadSlots ι}

omit [DecidableEq ι] in
theorem Inv.last_le (hi : s.Inv) : s.last ≤ s.head.headIdx := by
  have hadv := hi.advance
  unfold AdvanceOk at hadv
  unfold last
  cases ha : s.advance with
  | storeOld cur =>
    rw [ha] at hadv
    exact hadv.1.le
  | _ => exact le_rfl

omit [DecidableEq ι] in
/-- A view on the old head is counted there, so that no `advance_head` has passed its test and
the old head is before the current one. -/
theorem Inv.of_old (hi : s.Inv) (hpos : 0 < s.views s.old.headIdx) :
    s.advance.tested = false ∧ s.old.headIdx < s.head.headIdx := by
  have hcount := hi.old
  refine ⟨?_, ?_⟩
  · by_contra htested
    have := hi.tested (by simpa using htested)
    omega
  · rcases hi.order with hlt | ⟨-, -, hzero⟩
    · exact lt_of_lt_of_le hlt hi.last_le
    · omega

/-- A thread's step keeps the invariant when it keeps the indexes of the slots and the counts are
right after it. -/
theorem Inv.setJob (hi : s.Inv) {t : ι} {j : HeadJob} {head old : BufferHead}
    (hh : head.headIdx = s.head.headIdx) (ho : old.headIdx = s.old.headIdx)
    (hknows : j.Knows s.head.headIdx s.old.headIdx (¬ s.old.headIdx < s.last))
    (hhead : head.refcnt =
      Holders.count HeadJob.holds (Function.update s.jobs t j) s.head.headIdx)
    (hold : old.refcnt = Holders.count HeadJob.holds (Function.update s.jobs t j) s.old.headIdx)
    (hmoving : ∀ cur, s.advance = .storeOld cur →
      Holders.count HeadJob.holds (Function.update s.jobs t j) cur.headIdx = s.views cur.headIdx)
    (htested : s.advance.tested = true → old.refcnt = 0)
    (horder : s.old.headIdx < s.last ∨ old.refcnt = 0)
    (hstored : ∀ h, j.holds = some h → h = s.head.headIdx ∨ h = s.old.headIdx ∨ h = s.last) :
    Inv { s.setJob t j with head := head, old := old } := by
  have hlast : last { s.setJob t j with head := head, old := old } = s.last := by
    simp only [last, HeadSlots.setJob, hh]
  refine ⟨?_, ?_, ?_, htested, ?_, fun u h hu => ?_, fun u => ?_⟩
  · simp only [hh]
    exact hhead
  · simp only [ho]
    exact hold
  · have hadv := hi.advance
    unfold AdvanceOk at hadv ⊢
    simp only [HeadSlots.setJob, hh]
    cases ha : s.advance with
    | storeOld cur =>
      rw [ha] at hadv
      exact ⟨hadv.1, hadv.2.trans (hmoving cur ha).symm⟩
    | _ =>
      rw [ha] at hadv
      exact hadv
  · rw [hlast, ho]
    rcases hi.order with hlt | ⟨hzero, hpos, -⟩
    · exact .inl hlt
    · rcases horder with hlt | href
      · exact .inl hlt
      · exact .inr ⟨hzero, hpos, href⟩
  · rw [hlast]
    simp only [HeadSlots.setJob, hh, ho] at hu ⊢
    by_cases hut : u = t
    · rw [hut, Function.update_self] at hu
      exact hstored h hu
    · rw [Function.update_of_ne hut] at hu
      exact hi.stored u h hu
  · rw [hlast]
    simp only [HeadSlots.setJob, hh, ho]
    by_cases hut : u = t
    · rw [hut, Function.update_self]
      exact hknows
    · rw [Function.update_of_ne hut]
      exact hi.jobs u

theorem Inv.setPlace (hi : s.Inv) {t : ι} {j : HeadJob} (hholds : j.holds = (s.jobs t).holds)
    (hknows : j.Knows s.head.headIdx s.old.headIdx (¬ s.old.headIdx < s.last)) :
    Inv (s.setJob t j) := by
  have hsame : Holders.count HeadJob.holds (Function.update s.jobs t j) = s.views :=
    Holders.count_same hholds
  refine hi.setJob (rfl : s.head.headIdx = _) (rfl : s.old.headIdx = _) hknows ?_ ?_
    (fun cur _ => ?_) hi.tested (hi.order.imp_right fun h => h.2.2) fun h hh => ?_
  · rw [hsame]
    exact hi.head
  · rw [hsame]
    exact hi.old
  · rw [hsame]
  · exact hi.stored t h (hholds.symm.trans hh)

/-- A step in `get_head` or `release_head_reference` -/
theorem Inv.job (hi : s.Inv) {t : ι} {head old : BufferHead} {j : HeadJob}
    (h : (s.jobs t).step s.head s.old = some (head, old, j)) (htimely : s.Timely (.job t)) :
    Inv { s.setJob t j with head := head, old := old } := by
  obtain ⟨hknows, heffect⟩ := HeadJob.step_effect h (hi.jobs t) htimely
  have hlast := hi.last_le
  have hmoving : ∀ cur, s.advance = .storeOld cur → cur.headIdx = s.last ∧
      cur.headIdx < s.head.headIdx := by
    intro cur ha
    have hadv := hi.advance
    rw [AdvanceOk, ha] at hadv
    exact ⟨by simp [last, ha], hadv.1⟩
  have hpos : ∀ h, (s.jobs t).holds = some h → 0 < s.views h := fun h hh => Holders.count_pos hh
  generalize hbefore : (s.jobs t).holds = before, hafter : j.holds = after at heffect
  cases heffect with
  | none => exact hi.setPlace (hafter.trans hbefore.symm) hknows
  | pinHead hne =>
    obtain ⟨hpin, hother⟩ := Holders.count_pin hbefore hafter
    have hapart : s.old.headIdx ≠ s.head.headIdx := by
      by_cases hlt : s.old.headIdx < s.last
      · omega
      · exact (hne hlt).symm
    refine hi.setJob rfl rfl hknows ?_ ?_ (fun cur ha => ?_) hi.tested
      (hi.order.imp_right fun h => h.2.2) fun h hh => ?_
    · rw [hpin, hi.head]
      rfl
    · rw [hother _ hapart]
      exact hi.old
    · exact hother _ (hmoving cur ha).2.ne
    · rw [hafter, Option.some.injEq] at hh
      exact .inl hh.symm
  | pinOld hle htest =>
    obtain ⟨hpin, hother⟩ := Holders.count_pin hbefore hafter
    have hidle : ∀ cur, s.advance ≠ .storeOld cur := by
      rintro cur ha
      exact htest (by rw [ha]; rfl)
    have heq : s.last = s.head.headIdx := by
      unfold last
      cases ha : s.advance with
      | storeOld cur => exact absurd ha (hidle cur)
      | _ => rfl
    have hlt : s.old.headIdx < s.last := by
      rcases hi.order with hlt | ⟨hzero, hpos, -⟩
      · exact hlt
      · omega
    refine hi.setJob rfl rfl hknows ?_ ?_ (fun cur ha => absurd ha (hidle cur))
      (fun h => absurd h htest) (.inl hlt) fun h hh => ?_
    · rw [hother _ (by omega)]
      exact hi.head
    · rw [hpin, hi.old]
      rfl
    · rw [hafter, Option.some.injEq] at hh
      exact .inr (.inl hh.symm)
  | unpinHead =>
    obtain ⟨hunpin, hother⟩ := Holders.count_unpin hbefore hafter
    have hapart : s.old.headIdx ≠ s.head.headIdx := by
      intro heq
      have := (hi.of_old (heq ▸ hpos _ hbefore)).2
      omega
    refine hi.setJob rfl rfl hknows ?_ ?_ (fun cur ha => ?_) hi.tested
      (hi.order.imp_right fun h => h.2.2) fun h hh => ?_
    · show s.head.refcnt - 1 = _
      have hcount : s.head.refcnt = Holders.count HeadJob.holds s.jobs s.head.headIdx := hi.head
      omega
    · rw [hother _ hapart]
      exact hi.old
    · exact hother _ (hmoving cur ha).2.ne
    · rw [hafter] at hh
      cases hh
  | unpinOld =>
    obtain ⟨hunpin, hother⟩ := Holders.count_unpin hbefore hafter
    obtain ⟨htest, hlt⟩ := hi.of_old (hpos _ hbefore)
    have hcount : s.old.refcnt = Holders.count HeadJob.holds s.jobs s.old.headIdx := hi.old
    have hzero : s.old.refcnt = 0 → s.old.refcnt - 1 = 0 := by omega
    refine hi.setJob rfl rfl hknows ?_ ?_ (fun cur ha => ?_) (fun h => hzero (hi.tested h))
      (hi.order.imp_right fun h => hzero h.2.2) fun h hh => ?_
    · rw [hother _ (by omega)]
      exact hi.head
    · show s.old.refcnt - 1 = _
      omega
    · rw [ha] at htest
      cases htest
    · rw [hafter] at hh
      cases hh

omit [DecidableEq ι] in
/-- `advance_head` goes on without touching the slots, before its exchange. -/
theorem Inv.setAdvance (hi : s.Inv) {a : HeadAdvance}
    (hlast : last { s with advance := a } = s.last) (hadv : AdvanceOk { s with advance := a })
    (htested : a.tested = true → s.old.refcnt = 0) : Inv { s with advance := a } := by
  refine ⟨hi.head, hi.old, hadv, htested, ?_, fun t h hh => ?_, fun t => ?_⟩
  · rw [hlast]
    exact hi.order
  · rw [hlast]
    exact hi.stored t h hh
  · rw [hlast]
    exact hi.jobs t

omit [DecidableEq ι] in
theorem Inv.swapHead (hi : s.Inv) {newHead : Nat} (ha : s.advance = .swapHead newHead s.head) :
    Inv { s with head := ⟨newHead, 0⟩, advance := .storeOld s.head } := by
  have hadv := hi.advance
  rw [AdvanceOk, ha] at hadv
  have hlt : s.head.headIdx < newHead := hadv
  have href : s.old.refcnt = 0 := hi.tested (by rw [ha]; rfl)
  have hlast : s.last = s.head.headIdx := by simp [last, ha]
  have hnobody : s.views newHead = 0 := by
    rw [views, Holders.count_eq_zero]
    intro t ht
    rcases hi.stored t _ ht with heq | heq | heq
    · omega
    · have hpos : 0 < s.views s.old.headIdx := Holders.count_pos (heq ▸ ht)
      have := hi.old
      omega
    · omega
  refine ⟨hnobody.symm, hi.old, ⟨hlt, hi.head⟩, fun _ => href, ?_, fun t h hh => ?_, fun t => ?_⟩
  · have horder := hi.order
    rw [hlast] at horder
    exact horder
  · rcases hi.stored t h hh with heq | heq | heq
    · exact .inr (.inr heq)
    · exact .inr (.inl heq)
    · exact .inr (.inr (heq.trans hlast))
  · have hknows := hi.jobs t
    rw [hlast] at hknows
    exact hknows.mono hlt.le

omit [DecidableEq ι] in
theorem Inv.storeOld (hi : s.Inv) {cur : BufferHead} (ha : s.advance = .storeOld cur) :
    Inv { s with old := cur, advance := .idle } := by
  have hadv := hi.advance
  rw [AdvanceOk, ha] at hadv
  obtain ⟨hlt, hcount⟩ := hadv
  have hlast : s.last = cur.headIdx := by simp [last, ha]
  have hnobody : ∀ t, (s.jobs t).holds ≠ some s.old.headIdx := by
    rw [← Holders.count_eq_zero]
    exact hi.old.symm.trans (hi.tested (by rw [ha]; rfl))
  refine ⟨hi.head, hcount, trivial, by simp [HeadAdvance.tested], .inl hlt, fun t h hh => ?_,
    fun t => ?_⟩
  · rcases hi.stored t h hh with heq | heq | heq
    · exact .inl heq
    · exact absurd (heq ▸ hh) (hnobody t)
    · exact .inr (.inl (heq.trans hlast))
  · exact (hi.jobs t).publish hlt (hnobody t)

omit [DecidableEq ι] in
theorem Inv.advanceStep (hi : s.Inv) {head old : BufferHead} {a : HeadAdvance}
    (h : s.advance.step s.head s.old = some (head, old, a)) :
    Inv { s with head := head, old := old, advance := a } := by
  have hadv := hi.advance
  have hlast : (∀ cur, s.advance ≠ .storeOld cur) → s.last = s.head.headIdx := by
    intro hne
    unfold last
    cases ha : s.advance with
    | storeOld cur => exact absurd ha (hne cur)
    | _ => rfl
  rw [AdvanceOk] at hadv
  have htested := hi.tested
  cases ha : s.advance with
  | idle =>
    rw [ha] at h
    cases h
  | testHead newHead =>
    rw [ha, HeadAdvance.step] at h
    split at h
    · rename_i hlt
      obtain ⟨rfl, rfl, rfl⟩ : _ ∧ _ ∧ _ := by simpa using h
      exact hi.setAdvance (hlast (by simp [ha])).symm hlt (by simp [HeadAdvance.tested])
    · cases h
  | testOld newHead =>
    rw [ha] at h hadv
    obtain ⟨rfl, rfl, rfl⟩ : _ ∧ _ ∧ _ := by simpa [HeadAdvance.step] using h
    split
    · exact hi.setAdvance (hlast (by simp [ha])).symm trivial (by simp [HeadAdvance.tested])
    · rename_i hzero
      exact hi.setAdvance (hlast (by simp [ha])).symm hadv fun _ => by omega
  | loadHead newHead =>
    rw [ha] at h hadv htested
    obtain ⟨rfl, rfl, rfl⟩ : _ ∧ _ ∧ _ := by simpa [HeadAdvance.step] using h
    exact hi.setAdvance (hlast (by simp [ha])).symm hadv fun _ => htested rfl
  | swapHead newHead cur =>
    rw [ha, HeadAdvance.step] at h
    rw [ha] at hadv htested
    split at h
    · rename_i heq
      subst heq
      obtain ⟨rfl, rfl, rfl⟩ : _ ∧ _ ∧ _ := by simpa using h
      exact hi.swapHead ha
    · obtain ⟨rfl, rfl, rfl⟩ : _ ∧ _ ∧ _ := by simpa using h
      exact hi.setAdvance (hlast (by simp [ha])).symm hadv fun _ => htested rfl
  | storeOld cur =>
    rw [ha] at h
    obtain ⟨rfl, rfl, rfl⟩ : _ ∧ _ ∧ _ := by simpa [HeadAdvance.step] using h
    exact hi.storeOld ha

theorem step_inv {op : HeadOp ι} (hi : s.Inv) (htimely : s.Timely op) (h : s.step op = some s') :
    s'.Inv := by
  cases op with
  | acquire t =>
    rw [step] at h
    split at h
    · rename_i hidle
      obtain rfl := Option.some.inj h
      exact hi.setPlace (by rw [hidle]; rfl) trivial
    · cases h
  | release t =>
    rw [step] at h
    split at h
    · rename_i hd hjob
      obtain rfl := Option.some.inj h
      exact hi.setPlace (by rw [hjob]; rfl) trivial
    · cases h
  | job t =>
    obtain ⟨⟨head, old, j⟩, hj, rfl⟩ := Option.map_eq_some_iff.mp h
    exact hi.job hj htimely
  | advanceHead newHead =>
    rw [step] at h
    split at h
    · rename_i ha
      obtain rfl := Option.some.inj h
      exact hi.setAdvance (by simp [last, ha]) trivial (by simp [HeadAdvance.tested])
    · cases h
  | advance =>
    obtain ⟨⟨head, old, a⟩, ha, rfl⟩ := Option.map_eq_some_iff.mp h
    exact hi.advanceStep ha

omit [DecidableEq ι] in
theorem inv_start {hwm : Nat} (hhwm : 0 < hwm) : (start ι hwm).Inv := by
  have hnobody : ∀ h, (start ι hwm).views h = 0 := by
    intro h
    rw [views, Holders.count_eq_zero]
    simp [start, HeadJob.holds]
  exact ⟨(hnobody 0).symm, (hnobody hwm).symm, trivial, by simp [start, HeadAdvance.tested],
    .inr ⟨rfl, hhwm, rfl⟩, by simp [start, HeadJob.holds], fun _ => trivial⟩

omit [DecidableEq ι] in
theorem Inv.exact (hi : s.Inv) : s.Exact := by
  refine ⟨hi.head, hi.old, fun t h hh => ?_, fun t h cur hjob => ?_, fun cur ha => ?_⟩
  · rcases hi.stored t h hh with heq | heq | heq
    · exact .inl heq
    · exact .inr (.inl heq)
    · have hadv := hi.advance
      unfold AdvanceOk at hadv
      unfold last at heq
      cases ha : s.advance with
      | storeOld cur =>
        rw [ha] at heq hadv
        subst heq
        rw [← hadv.2]
        exact .inr (.inr rfl)
      | _ =>
        rw [ha] at heq
        exact .inl heq
  · have hknows := hi.jobs t
    rcases hjob with hjob | hjob <;>
    · rw [hjob] at hknows
      exact hknows
  · exact hi.old.symm.trans (hi.tested (by rw [ha]; rfl))

/-- In a run in which no acquire takes an old head that is about to be overwritten, and no release
loads a referenced head that is not its own, all counts are exact. -/
theorem heads_exact {hwm : Nat} (hhwm : 0 < hwm) {ops : List (HeadOp ι)}
    (hops : StepRun.Always step Timely (start ι hwm) ops)
    (hrun : StepRun.run step (start ι hwm) ops = some s) : s.Exact :=
  (StepRun.inv_of_run (fun _ _ _ => step_inv) (inv_start hhwm) hops hrun).exact

/-- A view on head 0 is released while the head moves on to 1, and goes to the old slot. -/
theorem heads_exact_sample :
    let ops : List (HeadOp (Fin 2)) := List.flatten [[.acquire 0], List.replicate 5 (.job 0),
      [.advanceHead 1], List.replicate 4 .advance, [.release 0, .job 0, .job 0, .advance],
      List.replicate 3 (.job 0)]
    ∃ s, StepRun.run step (start (Fin 2) 1) ops = some s ∧ s.Exact := by
  intro ops
  have hops : StepRun.Always step Timely (start (Fin 2) 1) ops := by decide +kernel
  have hrun : (StepRun.run step (start (Fin 2) 1) ops).isSome := by decide +kernel
  obtain ⟨s, hs⟩ := Option.isSome_iff_exists.mp hrun
  exact ⟨s, hs, heads_exact Nat.one_pos hops hs⟩

end Inv

/-- A release that found its head no longer in the old slot decrements the next head; and a view on
the old head is overwritten by an `advance_head` that had tested it. No thread is inside an
operation in the end. -/
theorem not_heads_exact :
    (∃ ops : List (HeadOp (Fin 2)), ∃ s, StepRun.run step (start (Fin 2) 2) ops = some s ∧
      s.advance = .idle ∧ s.jobs 0 = .idle ∧ s.jobs 1 = .holding 1 ∧ s.head = ⟨1, 0⟩ ∧
      s.old = ⟨0, 1⟩ ∧ ¬ s.Exact) ∧
    ∃ ops : List (HeadOp (Fin 2)), ∃ s, StepRun.run step (start (Fin 2) 3) ops = some s ∧
      s.advance = .idle ∧ s.jobs 0 = .holding 0 ∧ s.jobs 1 = .idle ∧ s.head = ⟨2, 0⟩ ∧
      s.old = ⟨1, 0⟩ ∧ ¬ s.Exact := by
  constructor
  · let ops : List (HeadOp (Fin 2)) := List.flatten [[.acquire 0], List.replicate 5 (.job 0),
      [.release 0, .job 0, .advanceHead 1], List.replicate 5 .advance, [.acquire 1],
      List.replicate 5 (.job 1), [.job 0, .job 0]]
    have hrun : (StepRun.run step (start (Fin 2) 2) ops).map
      (fun s => (s.advance, s.jobs 0, s.jobs 1, s.head, s.old)) =
        some (.idle, .idle, .holding 1, ⟨1, 0⟩, ⟨0, 1⟩) := by decide +kernel
    obtain ⟨s, hs, hstate⟩ := Option.map_eq_some_iff.mp hrun
    simp only [Prod.mk.injEq] at hstate
    obtain ⟨hadv, h0, h1, hhead, hold⟩ := hstate
    refine ⟨_, s, hs, hadv, h0, h1, hhead, hold, fun hexact => ?_⟩
    have hcount := hexact.head
    rw [hhead] at hcount
    have hpos : 0 < s.views 1 := Holders.count_pos (t := 1) (by rw [h1]; rfl)
    exact hpos.ne hcount
  · let ops : List (HeadOp (Fin 2)) := List.flatten [[.acquire 0, .job 0, .advanceHead 1],
      List.replicate 5 .advance, [.advanceHead 2], List.replicate 2 .advance,
      List.replicate 3 (.job 0), List.replicate 3 .advance]
    have hrun : (StepRun.run step (start (Fin 2) 3) ops).map
      (fun s => (s.advance, s.jobs 0, s.jobs 1, s.head, s.old)) =
        some (.idle, .holding 0, .idle, ⟨2, 0⟩, ⟨1, 0⟩) := by decide +kernel
    obtain ⟨s, hs, hstate⟩ := Option.map_eq_some_iff.mp hrun
    simp only [Prod.mk.injEq] at hstate
    obtain ⟨hadv, h0, h1, hhead, hold⟩ := hstate
    refine ⟨_, s, hs, hadv, h0, h1, hhead, hold, fun hexact => ?_⟩
    rcases hexact.stored 0 0 (by rw [h0]; rfl) with heq | heq | heq
    · simp [hhead] at heq
    · simp [hold] at heq
    · rw [hadv] at heq
      cases heq

end HeadSlots

end De
