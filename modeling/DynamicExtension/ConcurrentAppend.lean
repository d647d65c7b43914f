import DynamicExtension.MutableBuffer
import DynamicExtension.Library.StepRun
import Mathlib.Data.Fintype.Basic
set_option autoImplicit false

namespace De
open StepRun
variable {ι R : Type}

/-- How far a thread is in `append`: past the reservation of its index, the log, the write
of its slot, or the visible bit -/
inductive AppendPhase where
  | reserved
  | logged
  | written
  | visible
  deriving DecidableEq, Repr

def AppendPhase.isPending : AppendPhase → Bool
  | .reserved | .logged => true
  | .written | .visible => false

/-- A call of `append` that has its index -/
structure Appending (R : Type) where
  tail : Nat
  record : R
  tombstone : Bool
  logging : Bool
  phase : AppendPhase
  deriving DecidableEq, Repr

/-- `call` is a call of `append` up to the reservation, `next` the next access of a thread
that is in one. -/
inductive AppendAction (ι R : Type) where
  | call (t : ι) (rec : R) (tombstone logging : Bool)
  | next (t : ι)
  | capture
  | copy
  | advanceHead
  deriving DecidableEq, Repr

/-- The buffer, its appending threads and one flush: its view with the number of slots
that are copied, what it copied, and the contents of the shards flushed before. Besides,
what each index was reserved for, and the appends that returned 1 with their indexes. -/
structure AppendSystem (ι R : Type) where
  buffer : MutableBuffer R
  threads : ι → Option (Appending R)
  flush : Option (BufferView R × Nat)
  shards : List (List (Wrapped R))
  building : List (Wrapped R)
  reserved : List (R × Bool)
  returned : List (Nat × R × Bool)

namespace AppendSystem

section Defs
variable [Zero R]

def new (lwm hwm : Nat) (wal : Option (WriteAheadLogger R)) : AppendSystem ι R :=
  ⟨.empty lwm hwm wal, fun _ => none, none, [], [], [], []⟩

/-- The next access of a call; `none` as the call is its return. -/
def access (b : MutableBuffer R) (a : Appending R) : MutableBuffer R × Option (Appending R) :=
  let pos := b.slot a.tail
  match a.phase with
  | .reserved =>
    let wrec := Wrapped.fresh a.record a.tombstone
    ({ b with wal := if a.logging then b.wal.map fun w => w.append wrec else b.wal },
      some { a with phase := .logged })
  | .logged =>
    let wrec := (Wrapped.fresh a.record a.tombstone).setTimestamp pos
    ({ b with data := Function.update b.data pos wrec }, some { a with phase := .written })
  | .written =>
    ({ b with
        tscnt := if a.tombstone then b.tscnt + 1 else b.tscnt
        data := Function.update b.data pos (b.data pos).setVisible },
      some { a with phase := .visible })
  | .visible => (b, none)

variable [DecidableEq ι]

/-- The reservation; a refused call returns 0. -/
def call (s : AppendSystem ι R) (t : ι) (rec : R) (tombstone logging : Bool) : AppendSystem ι R :=
  match s.buffer.tryAdvanceTail with
  | none => s
  | some (tail, b) =>
    let s := { s with buffer := b, reserved := s.reserved ++ [(rec, tombstone)] }
    if MutableBuffer.toInt32 tail = -1#32 then s
    else { s with
      threads := Function.update s.threads t (some ⟨tail, rec, tombstone, logging, .reserved⟩) }

/-- `none` is a step that is not a thread's or the flush's next one. -/
def step (s : AppendSystem ι R) : AppendAction ι R → Option (AppendSystem ι R)
  | .call t rec tombstone logging => do
    guard (s.threads t).isNone
    return s.call t rec tombstone logging
  | .next t => do
    let a ← s.threads t
    let p := access s.buffer a
    return { s with
      buffer := p.1
      threads := Function.update s.threads t p.2
      returned := if p.2.isNone then s.returned ++ [(a.tail, a.record, a.tombstone)]
        else s.returned }
  | .capture => do
    guard s.flush.isNone
    let (view, buffer) ← s.buffer.getBufferView s.buffer.head.headIdx
    return { s with buffer := buffer, flush := some (view, 0) }
  | .copy => do
    let (view, i) ← s.flush
    guard (i < view.getRecordCount)
    let wrec := { view with data := s.buffer.data }.get i
    return { s with flush := some (view, i + 1), building := s.building ++ [wrec] }
  | .advanceHead => do
    let (view, i) ← s.flush
    guard (i = view.getRecordCount)
    let buffer ← s.buffer.releaseHeadReference view.head
    let (advanced, buffer) ← buffer.advanceHead view.tail
    guard advanced
    return { s with
      buffer := buffer
      flush := none
      shards := s.shards ++ [s.building]
      building := [] }

end Defs

/-- All copies, of the flushed shards and the one that is being built; the one of index
`i` is the `i`-th. -/
def copied (s : AppendSystem ι R) : List (Wrapped R) := s.shards.flatten ++ s.building

/-- The index is reserved, and its slot is not written yet. -/
def Pending (s : AppendSystem ι R) (i : Nat) : Prop :=
  ∃ t, ∃ a ∈ s.threads t, a.tail = i ∧ a.phase.isPending

instance [Fintype ι] (s : AppendSystem ι R) (i : Nat) : Decidable (s.Pending i) :=
  inferInstanceAs (Decidable (∃ t, ∃ a ∈ s.threads t, a.tail = i ∧ a.phase.isPending))

/-- Every record whose append returned 1 is in its slot between the head and the tail, or
in a shard; and no shard got a content other than that for which the index was reserved. -/
structure Keeps (s : AppendSystem ι R) : Prop where
  stored : ∀ p ∈ s.returned,
    (s.buffer.head.headIdx ≤ p.1 ∧ p.1 < s.buffer.tail ∧
      (s.buffer.data (p.1 % s.buffer.cap)).payload = p.2) ∨
    ∃ w, s.copied[p.1]? = some w ∧ w.payload = p.2
  clean : ∀ (i : Nat) (w : Wrapped R), s.copied[i]? = some w → s.reserved[i]? = some w.payload

/-- A reserved index names its slot, and a slot is only copied once it is written. -/
def Orderly (s : AppendSystem ι R) : AppendAction ι R → Prop
  | .call _ _ _ _ => s.buffer.getRecordCount < s.buffer.hwm → s.buffer.SlotOk
  | .copy => ∀ p ∈ s.flush, ¬ s.Pending (p.1.head + p.2)
  | _ => True

instance [Fintype ι] (s : AppendSystem ι R) (op : AppendAction ι R) : Decidable (s.Orderly op) :=
  match op with
  | .call _ _ _ _ =>
    inferInstanceAs (Decidable (s.buffer.getRecordCount < s.buffer.hwm → s.buffer.SlotOk))
  | .copy => inferInstanceAs (Decidable (∀ p ∈ s.flush, ¬ s.Pending (p.1.head + p.2)))
  | .next _ | .capture | .advanceHead => isTrue trivial

/-- The flush is at its place: the shards hold the indexes before the head, and the copies
those of the view's first slots. -/
structure FlushOk (s : AppendSystem ι R) : Prop where
  shards : s.shards.flatten.length = s.buffer.head.headIdx
  idle : s.flush = none → s.building = []
  copying : ∀ v i, s.flush = some (v, i) → v.head = s.buffer.head.headIdx ∧
    v.cap = s.buffer.cap ∧ v.head ≤ v.tail ∧ v.tail ≤ s.buffer.tail ∧ i ≤ v.getRecordCount ∧
    s.building.length = i

/-- The call `a` has an index of its own, and it writes what this was reserved for. -/
structure Owns (s : AppendSystem ι R) (a : Appending R) : Prop where
  lt : a.tail < s.buffer.tail
  reserved : s.reserved[a.tail]? = some (a.record, a.tombstone)
  slot : s.buffer.slot a.tail = a.tail % s.buffer.cap

structure Inv (s : AppendSystem ι R) : Prop where
  formed : s.buffer.Formed
  reserved : s.reserved.length = s.buffer.tail
  flush : s.FlushOk
  clean : ∀ (i : Nat) (w : Wrapped R), s.copied[i]? = some w → s.reserved[i]? = some w.payload
  owns : ∀ t a, s.threads t = some a → s.Owns a
  distinct : ∀ t u a b, s.threads t = some a → s.threads u = some b → a.tail = b.tail → t = u
  uncopied : ∀ i, s.Pending i → s.copied.length ≤ i
  held : ∀ i, s.buffer.head.headIdx ≤ i → i < s.buffer.tail → ¬ s.Pending i →
    s.reserved[i]? = some (s.buffer.data (i % s.buffer.cap)).payload
  returned : ∀ p ∈ s.returned,
    p.1 < s.buffer.tail ∧ s.reserved[p.1]? = some p.2 ∧ ¬ s.Pending p.1

section Keeps
variable {s : AppendSystem ι R}

theorem FlushOk.length_copied (h : s.FlushOk) :
    s.copied.length = s.buffer.head.headIdx + s.building.length := by
  rw [copied, List.length_append, h.shards]

theorem FlushOk.copied_le (h : s.FlushOk) (hb : s.buffer.head.headIdx ≤ s.buffer.tail) :
    s.copied.length ≤ s.buffer.tail := by
  rw [h.length_copied]
  cases hf : s.flush with
  | none => simpa [h.idle hf] using hb
  | some p =>
    obtain ⟨hhead, -, hle, htail, hi, hlen⟩ := h.copying p.1 p.2 hf
    have hcount : p.1.getRecordCount = p.1.tail - p.1.head := rfl
    omega

theorem Inv.keeps (hi : s.Inv) : s.Keeps := by
  refine ⟨fun p hp => ?_, hi.clean⟩
  obtain ⟨hlt, hres, hdone⟩ := hi.returned p hp
  by_cases hcopied : p.1 < s.copied.length
  · refine .inr ⟨s.copied[p.1], List.getElem?_eq_getElem hcopied, ?_⟩
    have hclean := hi.clean p.1 _ (List.getElem?_eq_getElem hcopied)
    exact Option.some.inj (hclean.symm.trans hres)
  · have hhead : s.buffer.head.headIdx ≤ p.1 := by
      have := hi.flush.length_copied
      omega
    refine .inl ⟨hhead, hlt, ?_⟩
    exact Option.some.inj ((hi.held p.1 hhead hlt hdone).symm.trans hres)

theorem inv_new [Zero R] {lwm hwm : Nat} (hpos : 0 < hwm) (wal : Option (WriteAheadLogger R)) :
    Inv (new lwm hwm wal : AppendSystem ι R) := by
  have hcap : hwm < 2 * hwm := by omega
  refine ⟨⟨le_rfl, Nat.zero_le _, hcap⟩, rfl, ⟨rfl, fun _ => rfl, ?_⟩, ?_, ?_, ?_, ?_, ?_, ?_⟩
  · intro v i h
    cases h
  · intro i w h
    simp [new, copied] at h
  · intro t a h
    cases h
  · intro t u a b h
    cases h
  · rintro i ⟨t, a, h, -⟩
    cases h
  · intro i _ h
    exact absurd h (Nat.not_lt_zero i)
  · intro p h
    cases h

end Keeps

theorem getElem?_append_some {α : Type} {l : List α} {i : Nat} {x : α} (h : l[i]? = some x)
    (m : List α) : (l ++ m)[i]? = some x := by
  rw [List.getElem?_append_left (List.getElem?_eq_some_iff.mp h).1, h]

section Threads
variable [DecidableEq ι] {s : AppendSystem ι R}

theorem update_cases {α : Type} {f : ι → Option α} {t u : ι} {x : Option α} {a : α}
    (h : Function.update f t x u = some a) : (u = t ∧ x = some a) ∨ (u ≠ t ∧ f u = some a) := by
  by_cases hu : u = t
  · subst hu
    rw [Function.update_self] at h
    exact .inl ⟨rfl, h⟩
  · rw [Function.update_of_ne hu] at h
    exact .inr ⟨hu, h⟩

theorem Inv.reserve (hi : s.Inv) {t : ι} (ht : s.threads t = none)
    (hroom : s.buffer.getRecordCount < s.buffer.hwm)
    (hslot : s.buffer.slot s.buffer.tail = s.buffer.tail % s.buffer.cap) (rec : R)
    (tombstone logging : Bool) :
    Inv { s with
      buffer := { s.buffer with tail := s.buffer.tail + 1 }
      reserved := s.reserved ++ [(rec, tombstone)]
      threads := Function.update s.threads t
        (some ⟨s.buffer.tail, rec, tombstone, logging, .reserved⟩) } := by
  have hhead := hi.formed.head_le
  have hcount : s.buffer.tail - s.buffer.head.headIdx < s.buffer.hwm := hroom
  set s' : AppendSystem ι R := { s with
      buffer := { s.buffer with tail := s.buffer.tail + 1 }
      reserved := s.reserved ++ [(rec, tombstone)]
      threads := Function.update s.threads t
        (some ⟨s.buffer.tail, rec, tombstone, logging, .reserved⟩) } with hs'
  have hnew : s'.Pending s.buffer.tail := ⟨t, _, Function.update_self .., rfl, rfl⟩
  have hold : ∀ i, s.Pending i → s'.Pending i := by
    rintro i ⟨u, a, hu, hai⟩
    have hne : u ≠ t := by
      rintro rfl
      rw [ht] at hu
      cases hu
    exact ⟨u, a, (Function.update_of_ne hne ..).trans hu, hai⟩
  have hpending : ∀ i, s'.Pending i → s.Pending i ∨ i = s.buffer.tail := by
    rintro i ⟨u, a, hu, hai⟩
    rcases update_cases hu with ⟨-, ha⟩ | ⟨-, hu⟩
    · obtain rfl := Option.some.inj ha
      exact .inr hai.1.symm
    · exact .inl ⟨u, a, hu, hai⟩
  refine ⟨⟨Nat.le_succ_of_le hhead, ?_, hi.formed.hwm_lt_cap⟩, ?_, ⟨hi.flush.shards, hi.flush.idle,
    fun v i hv => ?_⟩, fun i w hw => ?_, fun u a hu => ?_, fun u u' a a' hu hu' haa => ?_,
    fun i hpend => ?_, fun i hlow hlt hdone => ?_, fun p hp => ?_⟩
  · show s.buffer.tail + 1 - s.buffer.head.headIdx ≤ s.buffer.hwm
    omega
  · simp [hs', hi.reserved]
  · obtain ⟨h1, h2, h3, h4, h5, h6⟩ := hi.flush.copying v i hv
    exact ⟨h1, h2, h3, Nat.le_succ_of_le h4, h5, h6⟩
  · exact getElem?_append_some (hi.clean i w hw) _
  · rcases update_cases hu with ⟨-, ha⟩ | ⟨-, hu⟩
    · obtain rfl := Option.some.inj ha
      refine ⟨Nat.lt_succ_self _, ?_, hslot⟩
      show (s.reserved ++ [(rec, tombstone)])[s.buffer.tail]? = _
      rw [← hi.reserved, List.getElem?_concat_length]
    · have ho := hi.owns u a hu
      exact ⟨Nat.lt_succ_of_lt ho.lt, getElem?_append_some ho.reserved _, ho.slot⟩
  · rcases update_cases hu with ⟨ht₁, ha⟩ | ⟨-, hold₁⟩ <;>
      rcases update_cases hu' with ⟨ht₂, ha'⟩ | ⟨-, hold₂⟩
    · exact ht₁.trans ht₂.symm
    · obtain rfl := Option.some.inj ha
      exact absurd haa (hi.owns u' a' hold₂).lt.ne'
    · obtain rfl := Option.some.inj ha'
      exact absurd haa (hi.owns u a hold₁).lt.ne
    · exact hi.distinct u u' a a' hold₁ hold₂ haa
  · rcases hpending i hpend with hpend | rfl
    · exact hi.uncopied i hpend
    · exact hi.flush.copied_le hhead
  · have hne : i ≠ s.buffer.tail := by
      rintro rfl
      exact hdone hnew
    have hlt' : i < s.buffer.tail + 1 := hlt
    exact getElem?_append_some (hi.held i hlow (by omega) fun h => hdone (hold i h)) _
  · obtain ⟨hlt, hres, hdone⟩ := hi.returned p hp
    refine ⟨Nat.lt_succ_of_lt hlt, getElem?_append_some hres _, fun h => ?_⟩
    rcases hpending _ h with h | h
    · exact hdone h
    · omega

/-- The calls go on, or some of them end. -/
def Continues (s s' : AppendSystem ι R) : Prop :=
  ∀ u a', s'.threads u = some a' → ∃ a, s.threads u = some a ∧ a.tail = a'.tail ∧
    a.record = a'.record ∧ a.tombstone = a'.tombstone ∧ (a'.phase.isPending → a.phase.isPending)

/-- The flush, the reservations and the window of the ring are as they were. -/
structure SameWindow (s s' : AppendSystem ι R) : Prop where
  flush : s'.flush = s.flush
  shards : s'.shards = s.shards
  building : s'.building = s.building
  reserved : s'.reserved = s.reserved
  tail : s'.buffer.tail = s.buffer.tail
  head : s'.buffer.head = s.buffer.head
  cap : s'.buffer.cap = s.buffer.cap
  hwm : s'.buffer.hwm = s.buffer.hwm

section Access
variable {s' : AppendSystem ι R} {t : ι} {a : Appending R} {x : Option (Appending R)}

omit [DecidableEq ι] in
theorem Continues.pending (h : s.Continues s') {i : Nat} (hp : s'.Pending i) : s.Pending i := by
  obtain ⟨u, a', hu, hi, hpend⟩ := hp
  obtain ⟨a, ha, htail, -, -, hphase⟩ := h u a' hu
  exact ⟨u, a, ha, htail.trans hi, hphase hpend⟩

theorem continues_update (ht : s.threads t = some a)
    (hx : ∀ a' ∈ x, a.tail = a'.tail ∧ a.record = a'.record ∧ a.tombstone = a'.tombstone ∧
      (a'.phase.isPending → a.phase.isPending))
    (hs' : s'.threads = Function.update s.threads t x) : s.Continues s' := by
  intro u a' hu
  rw [hs'] at hu
  rcases update_cases hu with ⟨rfl, ha'⟩ | ⟨-, hu⟩
  · exact ⟨a, ht, hx a' ha'⟩
  · exact ⟨a', hu, rfl, rfl, rfl, id⟩

theorem pending_update (s' : AppendSystem ι R) (ht : s.threads t = some a)
    (hs' : s'.threads = Function.update s.threads t x) {i : Nat} (hp : s.Pending i) :
    s'.Pending i ∨ (a.tail = i ∧ a.phase.isPending) := by
  obtain ⟨u, b, hu, hb⟩ := hp
  by_cases hut : u = t
  · subst hut
    obtain rfl := Option.some.inj (ht.symm.trans hu)
    exact .inr hb
  · exact .inl ⟨u, b, by rw [hs', Function.update_of_ne hut]; exact hu, hb⟩

omit [DecidableEq ι] in
theorem Inv.returned_of (hi : s.Inv) (hc : s.Continues s') :
    ∀ p ∈ s.returned, p.1 < s.buffer.tail ∧ s.reserved[p.1]? = some p.2 ∧ ¬ s'.Pending p.1 := by
  intro p hp
  obtain ⟨hlt, hres, hdone⟩ := hi.returned p hp
  exact ⟨hlt, hres, fun h => hdone (hc.pending h)⟩

omit [DecidableEq ι] in
theorem Inv.access_of (hi : s.Inv) (hc : s.Continues s') (hw : s.SameWindow s')
    (hheld : ∀ i, s.buffer.head.headIdx ≤ i → i < s.buffer.tail → ¬ s'.Pending i →
      s.reserved[i]? = some (s'.buffer.data (i % s.buffer.cap)).payload)
    (hret : ∀ p ∈ s'.returned, p.1 < s.buffer.tail ∧ s.reserved[p.1]? = some p.2 ∧
      ¬ s'.Pending p.1) : s'.Inv := by
  have hcopied : s'.copied = s.copied := by rw [copied, hw.shards, hw.building, copied]
  have hslot : ∀ i, s'.buffer.slot i = s.buffer.slot i := by
    intro i
    rw [MutableBuffer.slot, hw.cap, MutableBuffer.slot]
  refine ⟨⟨?_, ?_, ?_⟩, ?_, ⟨?_, ?_, ?_⟩, ?_, fun u a' hu => ?_, fun u v a' b' hu hv hab => ?_,
    fun i hp => ?_, ?_, ?_⟩
  · rw [hw.head, hw.tail]
    exact hi.formed.head_le
  · rw [MutableBuffer.getRecordCount, hw.head, hw.tail, hw.hwm]
    exact hi.formed.count_le
  · rw [hw.hwm, hw.cap]
    exact hi.formed.hwm_lt_cap
  · rw [hw.reserved, hw.tail]
    exact hi.reserved
  · rw [hw.shards, hw.head]
    exact hi.flush.shards
  · rw [hw.flush, hw.building]
    exact hi.flush.idle
  · rw [hw.flush, hw.building, hw.head, hw.cap, hw.tail]
    exact hi.flush.copying
  · rw [hcopied, hw.reserved]
    exact hi.clean
  · obtain ⟨a, ha, h1, h2, h3, -⟩ := hc u a' hu
    have ho := hi.owns u a ha
    refine ⟨?_, ?_, ?_⟩
    · rw [← h1, hw.tail]
      exact ho.lt
    · rw [← h1, ← h2, ← h3, hw.reserved]
      exact ho.reserved
    · rw [← h1, hslot, hw.cap]
      exact ho.slot
  · obtain ⟨a, ha, h1, -⟩ := hc u a' hu
    obtain ⟨b, hb, h2, -⟩ := hc v b' hv
    exact hi.distinct u v a b ha hb (by rw [h1, h2, hab])
  · rw [hcopied]
    exact hi.uncopied i (hc.pending hp)
  · rw [hw.head, hw.tail, hw.reserved, hw.cap]
    exact hheld
  · rw [hw.tail, hw.reserved]
    exact hret

end Access

omit [DecidableEq ι] in
theorem Inv.head_le (hi : s.Inv) {i : Nat} (hp : s.Pending i) : s.buffer.head.headIdx ≤ i := by
  have hle := hi.uncopied i hp
  rw [hi.flush.length_copied] at hle
  omega

section Access
variable {t : ι} {a : Appending R}

theorem Inv.log (hi : s.Inv) (ht : s.threads t = some a) (hphase : a.phase = .reserved)
    (wal : Option (WriteAheadLogger R)) :
    Inv { s with
      buffer := { s.buffer with wal := wal }
      threads := Function.update s.threads t (some { a with phase := .logged }) } := by
  set s' : AppendSystem ι R := { s with
      buffer := { s.buffer with wal := wal }
      threads := Function.update s.threads t (some { a with phase := .logged }) } with hs'
  have hc : s.Continues s' := continues_update ht (by simp [hphase, AppendPhase.isPending]) rfl
  refine hi.access_of hc ⟨rfl, rfl, rfl, rfl, rfl, rfl, rfl, rfl⟩ (fun i hlow hlt hdone => ?_)
    (hi.returned_of hc)
  refine hi.held i hlow hlt fun h => hdone ?_
  rcases pending_update s' ht rfl h with h | ⟨htail, -⟩
  · exact h
  · exact ⟨t, _, Function.update_self .., htail, rfl⟩

/-- The write of a slot makes its index hold what it was reserved for, and no other index
of the window has that slot. -/
theorem Inv.write (hi : s.Inv) (ht : s.threads t = some a) (hphase : a.phase = .logged)
    {wrec : Wrapped R} (hpay : wrec.payload = (a.record, a.tombstone)) :
    Inv { s with
      buffer := { s.buffer with data := Function.update s.buffer.data (s.buffer.slot a.tail) wrec }
      threads := Function.update s.threads t (some { a with phase := .written }) } := by
  set s' : AppendSystem ι R := { s with
      buffer := { s.buffer with data := Function.update s.buffer.data (s.buffer.slot a.tail) wrec }
      threads := Function.update s.threads t (some { a with phase := .written }) } with hs'
  have ho := hi.owns t a ht
  have hpending : s.Pending a.tail := ⟨t, a, ht, rfl, by simp [hphase, AppendPhase.isPending]⟩
  have hc : s.Continues s' := continues_update ht (by simp [hphase, AppendPhase.isPending]) rfl
  refine hi.access_of hc ⟨rfl, rfl, rfl, rfl, rfl, rfl, rfl, rfl⟩ (fun i hlow hlt hdone => ?_)
    (hi.returned_of hc)
  show _ = some (Function.update s.buffer.data (s.buffer.slot a.tail) wrec _).payload
  rw [ho.slot]
  by_cases hia : i = a.tail
  · subst hia
    rw [Function.update_self, hpay]
    exact ho.reserved
  · have hhead := hi.head_le hpending
    have hcap := hi.formed.hwm_lt_cap
    have hcount : s.buffer.tail - s.buffer.head.headIdx ≤ s.buffer.hwm := hi.formed.count_le
    have htail := ho.lt
    have hmod : i % s.buffer.cap ≠ a.tail % s.buffer.cap := by
      rcases Nat.lt_or_gt_of_ne hia with hlt' | hgt
      · exact MutableBuffer.mod_ne_mod hlt' (by omega)
      · exact (MutableBuffer.mod_ne_mod hgt (by omega)).symm
    rw [Function.update_of_ne hmod]
    refine hi.held i hlow hlt fun h => ?_
    rcases pending_update s' ht rfl h with h | ⟨h, -⟩
    · exact hdone h
    · exact hia h.symm

theorem Inv.show (hi : s.Inv) (ht : s.threads t = some a) (hphase : a.phase = .written)
    (pos tscnt : Nat) :
    Inv { s with
      buffer := { s.buffer with
        tscnt := tscnt
        data := Function.update s.buffer.data pos (s.buffer.data pos).setVisible }
      threads := Function.update s.threads t (some { a with phase := .visible }) } := by
  set s' : AppendSystem ι R := { s with
      buffer := { s.buffer with
        tscnt := tscnt
        data := Function.update s.buffer.data pos (s.buffer.data pos).setVisible }
      threads := Function.update s.threads t (some { a with phase := .visible }) } with hs'
  have hc : s.Continues s' := continues_update ht (by simp [hphase, AppendPhase.isPending]) rfl
  have hdata : ∀ n, (Function.update s.buffer.data pos (s.buffer.data pos).setVisible n).payload =
      (s.buffer.data n).payload := by
    intro n
    by_cases hn : n = pos
    · subst hn
      simp [Wrapped.payload]
    · rw [Function.update_of_ne hn]
  refine hi.access_of hc ⟨rfl, rfl, rfl, rfl, rfl, rfl, rfl, rfl⟩ (fun i hlow hlt hdone => ?_)
    (hi.returned_of hc)
  show _ = some (Function.update s.buffer.data pos (s.buffer.data pos).setVisible _).payload
  rw [hdata]
  refine hi.held i hlow hlt fun h => hdone ?_
  rcases pending_update s' ht rfl h with h | ⟨-, h⟩
  · exact h
  · simp [hphase, AppendPhase.isPending] at h

theorem Inv.ret (hi : s.Inv) (ht : s.threads t = some a) (hphase : a.phase = .visible) :
    Inv { s with
      threads := Function.update s.threads t none
      returned := s.returned ++ [(a.tail, a.record, a.tombstone)] } := by
  set s' : AppendSystem ι R := { s with
      threads := Function.update s.threads t none
      returned := s.returned ++ [(a.tail, a.record, a.tombstone)] } with hs'
  have ho := hi.owns t a ht
  have hc : s.Continues s' := continues_update ht (by simp) rfl
  refine hi.access_of hc ⟨rfl, rfl, rfl, rfl, rfl, rfl, rfl, rfl⟩ (fun i hlow hlt hdone => ?_)
    fun p hp => ?_
  · refine hi.held i hlow hlt fun h => hdone ?_
    rcases pending_update s' ht rfl h with h | ⟨-, h⟩
    · exact h
    · simp [hphase, AppendPhase.isPending] at h
  · rcases List.mem_append.mp hp with hp | hp
    · exact hi.returned_of hc p hp
    · obtain rfl := List.mem_singleton.mp hp
      refine ⟨ho.lt, ho.reserved, fun h => ?_⟩
      -- another thread with the index would be this one
      obtain ⟨u, b, hu, htail, hpend⟩ := hc.pending h
      obtain rfl := hi.distinct u t b a hu ht htail
      obtain rfl := Option.some.inj (ht.symm.trans hu)
      simp [hphase, AppendPhase.isPending] at hpend

theorem Inv.next [Zero R] (hi : s.Inv) (ht : s.threads t = some a) :
    Inv { s with
      buffer := (access s.buffer a).1
      threads := Function.update s.threads t (access s.buffer a).2
      returned := if (access s.buffer a).2.isNone then
          s.returned ++ [(a.tail, a.record, a.tombstone)]
        else s.returned } := by
  rcases a with ⟨tail, record, tombstone, logging, phase⟩
  cases phase with
  | reserved => exact hi.log ht rfl _
  | logged => exact hi.write ht rfl (by simp [Wrapped.payload])
  | written => exact hi.show ht rfl _ _
  | visible => exact hi.ret ht rfl

end Access

end Threads

section Flush
variable {s s' : AppendSystem ι R}

/-- The threads and the ring are as they were. -/
structure SameThreads (s s' : AppendSystem ι R) : Prop where
  threads : s'.threads = s.threads
  reserved : s'.reserved = s.reserved
  returned : s'.returned = s.returned
  tail : s'.buffer.tail = s.buffer.tail
  cap : s'.buffer.cap = s.buffer.cap
  hwm : s'.buffer.hwm = s.buffer.hwm
  data : s'.buffer.data = s.buffer.data

theorem Inv.flush_of (hi : s.Inv) (hs : s.SameThreads s')
    (hhead : s.buffer.head.headIdx ≤ s'.buffer.head.headIdx)
    (hle : s'.buffer.head.headIdx ≤ s.buffer.tail) (hflush : s'.FlushOk)
    (hclean : ∀ (i : Nat) (w : Wrapped R), s'.copied[i]? = some w →
      s.reserved[i]? = some w.payload)
    (huncopied : ∀ i, s.Pending i → s'.copied.length ≤ i) : s'.Inv := by
  have hpending : ∀ i, s'.Pending i ↔ s.Pending i := by
    intro i
    rw [Pending, hs.threads, Pending]
  have hslot : ∀ i, s'.buffer.slot i = s.buffer.slot i := by
    intro i
    rw [MutableBuffer.slot, hs.cap, MutableBuffer.slot]
  have hcount : s.buffer.tail - s.buffer.head.headIdx ≤ s.buffer.hwm := hi.formed.count_le
  refine ⟨⟨?_, ?_, ?_⟩, ?_, hflush, ?_, fun t a ht => ?_, ?_, fun i hp => ?_,
    fun i hlow hlt hdone => ?_, fun p hp => ?_⟩
  · rwa [hs.tail]
  · rw [MutableBuffer.getRecordCount, hs.tail, hs.hwm]
    omega
  · rw [hs.hwm, hs.cap]
    exact hi.formed.hwm_lt_cap
  · rw [hs.reserved, hs.tail]
    exact hi.reserved
  · rwa [hs.reserved]
  · rw [hs.threads] at ht
    have ho := hi.owns t a ht
    refine ⟨?_, ?_, ?_⟩
    · rw [hs.tail]
      exact ho.lt
    · rw [hs.reserved]
      exact ho.reserved
    · rw [hslot, hs.cap]
      exact ho.slot
  · rw [hs.threads]
    exact hi.distinct
  · exact huncopied i ((hpending i).mp hp)
  · rw [hs.tail] at hlt
    rw [hs.reserved, hs.data, hs.cap]
    exact hi.held i (hhead.trans hlow) hlt (mt (hpending i).mpr hdone)
  · rw [hs.returned] at hp
    rw [hs.tail, hs.reserved, hpending]
    exact hi.returned p hp

theorem Inv.capture (hi : s.Inv) (hf : s.flush = none) {v : BufferView R} {b : MutableBuffer R}
    (hb : s.buffer.getBufferView s.buffer.head.headIdx = some (v, b)) :
    Inv { s with buffer := b, flush := some (v, 0) } := by
  obtain ⟨rfl, hring⟩ := MutableBuffer.getBufferView_cases hb
  refine hi.flush_of ⟨rfl, rfl, rfl, hring.tail, hring.cap, hring.hwm, hring.data⟩ hring.heads.1.le
    (hring.heads.1 ▸ hi.formed.head_le) ⟨hring.heads.1 ▸ hi.flush.shards, nofun, ?_⟩ hi.clean
    hi.uncopied
  rintro v i ⟨⟩
  rw [← hring.heads.1, hring.cap, hring.tail]
  exact ⟨rfl, rfl, hi.formed.head_le, le_rfl, Nat.zero_le _, by simp [hi.flush.idle hf]⟩

theorem Inv.copy (hi : s.Inv) {v : BufferView R} {i : Nat} (hf : s.flush = some (v, i))
    (hlt : i < v.getRecordCount) (hdone : ¬ s.Pending (v.head + i)) :
    Inv { s with
      flush := some (v, i + 1)
      building := s.building ++ [{ v with data := s.buffer.data }.get i] } := by
  obtain ⟨hhead, hcap, hle, htail, hcount, hlen⟩ := hi.flush.copying v i hf
  have hview : v.getRecordCount = v.tail - v.head := rfl
  have hmax : s.buffer.tail - s.buffer.head.headIdx ≤ s.buffer.hwm := hi.formed.count_le
  have hhwm := hi.formed.hwm_lt_cap
  have hget : ({ v with data := s.buffer.data } : BufferView R).get i =
      s.buffer.data ((v.head + i) % s.buffer.cap) := by
    rw [BufferView.get, BufferView.toIdx_eq_mod _ _ (by simp only; omega), ← hcap]
  have hnext : s.copied.length = v.head + i := by
    rw [hi.flush.length_copied, hlen, hhead]
  have hcopied : ∀ w : Wrapped R, s.shards.flatten ++ (s.building ++ [w]) = s.copied ++ [w] := by
    intro w
    rw [copied, List.append_assoc]
  refine hi.flush_of ⟨rfl, rfl, rfl, rfl, rfl, rfl, rfl⟩ le_rfl hi.formed.head_le
    ⟨hi.flush.shards, by simp, ?_⟩ (fun j w hj => ?_) fun j hp => ?_
  · rintro v' i' ⟨⟩
    exact ⟨hhead, hcap, hle, htail, hlt, by simp [hlen]⟩
  · have hj' : (s.copied ++ [{ v with data := s.buffer.data }.get i])[j]? = some w :=
      hcopied _ ▸ hj
    rcases Nat.lt_trichotomy j (v.head + i) with hlt' | rfl | hgt
    · rw [List.getElem?_append_left (by omega)] at hj'
      exact hi.clean j w hj'
    · rw [← hnext, List.getElem?_concat_length, Option.some.injEq] at hj'
      subst hj'
      rw [hget]
      exact hi.held _ (by omega) (by omega) hdone
    · rw [List.getElem?_eq_none (by simp; omega)] at hj'
      cases hj'
  · have hle' := hi.uncopied j hp
    have hne : j ≠ v.head + i := by
      rintro rfl
      exact hdone hp
    show (s.shards.flatten ++ (s.building ++ [_])).length ≤ j
    rw [hcopied, List.length_append, List.length_singleton]
    omega

theorem Inv.advanceHead [Zero R] (hi : s.Inv) {v : BufferView R}
    (hf : s.flush = some (v, v.getRecordCount)) {b b' : MutableBuffer R}
    (hb : s.buffer.releaseHeadReference v.head = some b)
    (hb' : b.advanceHead v.tail = some (true, b')) :
    Inv { s with
      buffer := b'
      flush := none
      shards := s.shards ++ [s.building]
      building := [] } := by
  obtain ⟨hhead, -, hle, htail, -, hlen⟩ := hi.flush.copying v _ hf
  have hring := MutableBuffer.sameRing_releaseHeadReference hb
  obtain ⟨-, -, rfl⟩ := MutableBuffer.advanceHead_cases hb'
  have hview : v.getRecordCount = v.tail - v.head := rfl
  have hcopied : (s.shards ++ [s.building]).flatten ++ [] = s.copied := by simp [copied]
  have hlength : (s.shards ++ [s.building]).flatten.length = v.tail := by
    rw [← List.append_nil (List.flatten _), hcopied, hi.flush.length_copied, hlen]
    omega
  refine hi.flush_of ⟨rfl, rfl, rfl, hring.tail, hring.cap, hring.hwm, hring.data⟩
    (hhead ▸ hle) htail
    ⟨hlength, fun _ => rfl, nofun⟩ (fun i w hw => ?_) fun i hp => ?_
  · exact hi.clean i w (hcopied ▸ hw)
  · show ((s.shards ++ [s.building]).flatten ++ []).length ≤ i
    rw [hcopied]
    exact hi.uncopied i hp

end Flush

section Run
variable [Zero R] [DecidableEq ι] {s s' : AppendSystem ι R}

omit [Zero R] in
theorem Inv.call (hi : s.Inv) {t : ι} (ht : s.threads t = none) (rec : R) (tombstone logging : Bool)
    (hs : s.buffer.getRecordCount < s.buffer.hwm → s.buffer.SlotOk) :
    (s.call t rec tombstone logging).Inv := by
  by_cases hroom : s.buffer.getRecordCount < s.buffer.hwm
  · obtain ⟨hne, hslot⟩ := hs hroom
    have hfull : ¬ s.buffer.tail - s.buffer.head.headIdx ≥ s.buffer.hwm := not_le_of_gt hroom
    simp only [AppendSystem.call, MutableBuffer.tryAdvanceTail, if_neg hfull, if_neg hne]
    exact hi.reserve ht hroom hslot rec tombstone logging
  · have hfull : s.buffer.tail - s.buffer.head.headIdx ≥ s.buffer.hwm := not_lt.mp hroom
    simpa only [AppendSystem.call, MutableBuffer.tryAdvanceTail, if_pos hfull] using hi

theorem step_inv {op : AppendAction ι R} (hi : s.Inv) (ho : s.Orderly op)
    (h : s.step op = some s') : s'.Inv := by
  cases op with
  | call t rec tombstone logging =>
    obtain ⟨_, hnone, h⟩ := Option.bind_eq_some_iff.mp h
    rw [Option.guard_eq_some', Option.isNone_iff_eq_none] at hnone
    obtain rfl := Option.some.inj h
    exact hi.call hnone rec tombstone logging ho
  | next t =>
    obtain ⟨a, ha, h⟩ := Option.bind_eq_some_iff.mp h
    obtain rfl := Option.some.inj h
    exact hi.next ha
  | capture =>
    obtain ⟨_, hnone, h⟩ := Option.bind_eq_some_iff.mp h
    rw [Option.guard_eq_some', Option.isNone_iff_eq_none] at hnone
    obtain ⟨⟨v, b⟩, hb, h⟩ := Option.bind_eq_some_iff.mp h
    obtain rfl := Option.some.inj h
    exact hi.capture hnone hb
  | copy =>
    obtain ⟨⟨v, i⟩, hf, h⟩ := Option.bind_eq_some_iff.mp h
    obtain ⟨_, hlt, h⟩ := Option.bind_eq_some_iff.mp h
    rw [Option.guard_eq_some'] at hlt
    obtain rfl := Option.some.inj h
    exact hi.copy hf hlt (ho (v, i) hf)
  | advanceHead =>
    obtain ⟨⟨v, i⟩, hf, h⟩ := Option.bind_eq_some_iff.mp h
    obtain ⟨_, hall, h⟩ := Option.bind_eq_some_iff.mp h
    rw [Option.guard_eq_some'] at hall
    obtain ⟨b, hb, h⟩ := Option.bind_eq_some_iff.mp h
    obtain ⟨⟨advanced, b'⟩, hb', h⟩ := Option.bind_eq_some_iff.mp h
    obtain ⟨_, hadv, h⟩ := Option.bind_eq_some_iff.mp h
    rw [Option.guard_eq_some'] at hadv
    obtain rfl := Option.some.inj h
    subst hall hadv
    exact hi.advanceHead hf hb hb'

/-- The accesses of a call one after the other are `append`. -/
theorem run_alone {t : ι} (ht : s.threads t = none) {tail : Nat} {b : MutableBuffer R}
    (hadv : s.buffer.tryAdvanceTail = some (tail, b)) (hne : MutableBuffer.toInt32 tail ≠ -1#32)
    (rec : R) (tombstone logging : Bool) :
    (s.buffer.append rec tombstone logging).1 = 1 ∧
      run step s (.call t rec tombstone logging :: List.replicate 4 (.next t)) = some { s with
        buffer := (s.buffer.append rec tombstone logging).2
        reserved := s.reserved ++ [(rec, tombstone)]
        returned := s.returned ++ [(tail, rec, tombstone)] } := by
  have hnone : Function.update s.threads t none = s.threads := by
    rw [← ht, Function.update_eq_self]
  have hcall : s.call t rec tombstone logging = { s with
      buffer := b
      reserved := s.reserved ++ [(rec, tombstone)]
      threads := Function.update s.threads t
        (some ⟨tail, rec, tombstone, logging, .reserved⟩) } := by
    simp only [AppendSystem.call, hadv, if_neg hne]
  simp only [MutableBuffer.append, hadv, if_neg hne, true_and]
  simp [run_cons, step, hcall, ht, access, List.replicate, guard, hnone, MutableBuffer.slotContent,
    MutableBuffer.slot]

theorem run_copies {v : BufferView R} {i : Nat} (hf : s.flush = some (v, i)) {n : Nat}
    (hn : i + n ≤ v.getRecordCount) :
    run step s (List.replicate n .copy) = some { s with
      flush := some (v, i + n)
      building := s.building ++
        (List.range n).map fun k => { v with data := s.buffer.data }.get (i + k) } := by
  induction n with
  | zero => simp [← hf]
  | succ n ih =>
    have hlt : i + n < v.getRecordCount := by omega
    rw [List.replicate_succ', StepRun.run_append, ih (by omega), Option.bind_some, run_cons, step]
    simp [hlt, guard, List.range_succ, Nat.add_assoc]

/-- In a run that copies only slots that are written, and whose reserved indexes name their
slots, no append that returned 1 is lost, and no shard gets a stale slot. -/
theorem keeps_of_orderly {lwm hwm : Nat} (hpos : 0 < hwm) (wal : Option (WriteAheadLogger R))
    {ops : List (AppendAction ι R)} (hops : Always step Orderly (new lwm hwm wal) ops)
    (h : run step (new lwm hwm wal) ops = some s) : s.Keeps :=
  (inv_of_run (fun _ _ _ => step_inv) (inv_new hpos wal) hops h).keeps

end Run

theorem keeps_of_orderly_sample :
    let ops : List (AppendAction (Fin 2) (Record Nat Nat)) := [.call 0 ⟨1, 5⟩ false true, .next 0,
      .call 1 ⟨2, 6⟩ true true, .next 1, .next 1, .next 0, .capture, .copy, .next 0, .next 0, .copy,
      .advanceHead, .next 1, .next 1]
    ∃ s, run step (new 1 2 (some (.new []))) ops = some s ∧ s.Keeps := by
  intro ops
  have hrun : Always step Orderly (new 1 2 (some (.new []))) ops ∧
      (run step (new 1 2 (some (.new []))) ops).isSome := by decide +kernel
  obtain ⟨s, hs⟩ := Option.isSome_iff_exists.mp hrun.2
  exact ⟨s, hs, keeps_of_orderly (by decide) _ hrun.1 hs⟩

/-- A flush copies the slot of an index that is only reserved. Its append goes on behind the
head, writes the slot and returns 1. -/
theorem not_keeps :
    let ops : List (AppendAction (Fin 1) (Record Nat Nat)) := [.call 0 ⟨1, 5⟩ false true, .capture,
      .copy, .advanceHead, .next 0, .next 0, .next 0, .next 0]
    ∃ s, run step (new 1 2 (some (.new []))) ops = some s ∧
      s.returned = [(0, ⟨1, 5⟩, false)] ∧ s.buffer.head.headIdx = 1 ∧
      s.copied.map Wrapped.payload = [(⟨0, 0⟩, false)] ∧ ¬ s.Keeps := by
  intro ops
  have hrun : (run step (new 1 2 (some (.new []))) ops).map (fun s =>
      decide (s.returned = [(0, ⟨1, 5⟩, false)] ∧ s.buffer.head.headIdx = 1 ∧
        s.copied.map Wrapped.payload = [(⟨0, 0⟩, false)])) = some true := by decide +kernel
  obtain ⟨s, hs, hfinal⟩ := Option.map_eq_some_iff.mp hrun
  obtain ⟨hret, hhead, hcopied⟩ := of_decide_eq_true hfinal
  refine ⟨s, hs, hret, hhead, hcopied, fun hk => ?_⟩
  rcases hk.stored (0, ⟨1, 5⟩, false) (by simp [hret]) with ⟨hle, -⟩ | ⟨w, hw, hpay⟩
  · rw [hhead] at hle
    omega
  · have hget : (s.copied.map Wrapped.payload)[0]? = some (⟨1, 5⟩, false) := by
      rw [List.getElem?_map, hw, Option.map_some, hpay]
    rw [hcopied] at hget
    exact absurd hget (by decide)

end AppendSystem

end De
