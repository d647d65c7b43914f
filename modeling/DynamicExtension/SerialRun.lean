import DynamicExtension.Extension
set_option autoImplicit false

namespace De
variable {R : Type} [DecidableEq R] {T : ShardType R} {L : LayoutPolicy}

/-- A call of `insert`, or of `erase` under the TOMBSTONE policy -/
inductive Call (R : Type) where
  | insert (rec : R)
  | erase (rec : R)
  deriving DecidableEq, Repr

namespace Call

def record : Call R → R
  | insert rec => rec
  | erase rec => rec

def tombstone : Call R → Bool
  | insert _ => false
  | erase _ => true

/-- What the call appends to the buffer -/
def wrapped (c : Call R) : Wrapped R := Wrapped.fresh c.record c.tombstone

omit [DecidableEq R] in
@[simp] theorem payload_wrapped (c : Call R) : c.wrapped.payload = (c.record, c.tombstone) := by
  simp [wrapped, Wrapped.payload]

end Call

/-- Inserts less erases, for each record -/
def netOf (calls : List (Call R)) : R → ℤ := net (calls.map Call.wrapped)

@[simp] theorem netOf_nil : netOf ([] : List (Call R)) = 0 := rfl

@[simp] theorem netOf_append (as bs : List (Call R)) : netOf (as ++ bs) = netOf as + netOf bs := by
  simp [netOf]

namespace DynamicExtension

section Defs
variable [Zero R]

def call (logging : Bool) (d : DynamicExtension T L) :
    Call R → Option (Nat × DynamicExtension T L)
  | .insert rec => d.insert rec logging
  | .erase rec => d.erase rec logging

/-- The calls one after the other -/
def run (logging : Bool) (d : DynamicExtension T L) (calls : List (Call R)) :
    Option (DynamicExtension T L) :=
  calls.foldlM (fun d c => (d.call logging c).map Prod.snd) d

omit [Zero R] in
/-- The call's append has its slot, and the reconstruction that it starts, if it
starts one, is in order. -/
structure CallOk (d : DynamicExtension T L) : Prop where
  slot : d.buffer.SlotOk
  round : d.buffer.isAtLowWatermark → ∀ e, d.currentEpoch.epoch = some e →
    e.vers.RoundOk d.buffer.hwm (e.view d.buffer)

/-- Every call is made in a state that has the property. -/
def EachCall (P : DynamicExtension T L → Prop) (logging : Bool) (d : DynamicExtension T L)
    (calls : List (Call R)) : Prop :=
  ∀ pre c post, calls = pre ++ c :: post → ∀ d', d.run logging pre = some d' → P d'

/-- Every call is made in a state in which it is in order. -/
def RunOk (logging : Bool) (d : DynamicExtension T L) (calls : List (Call R)) : Prop :=
  ∀ pre c post, calls = pre ++ c :: post → ∀ d', d.run logging pre = some d' → d'.CallOk

omit [Zero R] in
theorem callOk_iff (d : DynamicExtension T L) :
    d.CallOk ↔ d.buffer.SlotOk ∧ (d.buffer.isAtLowWatermark → ∀ e ∈ d.currentEpoch.epoch,
      e.vers.RoundOk d.buffer.hwm (e.view d.buffer)) :=
  ⟨fun h => ⟨h.slot, h.round⟩, fun h => ⟨h.1, h.2⟩⟩

omit [Zero R] in
instance (d : DynamicExtension T L) : Decidable d.CallOk :=
  decidable_of_iff _ d.callOk_iff.symm

theorem run_cons {logging : Bool} {d d' : DynamicExtension T L} {c : Call R} {n : Nat}
    (h : d.call logging c = some (n, d')) (calls : List (Call R)) :
    d.run logging (c :: calls) = d'.run logging calls := by
  rw [DynamicExtension.run, List.foldlM_cons, h]
  rfl

theorem eachCall_cons (P : DynamicExtension T L → Prop) (logging : Bool) (d : DynamicExtension T L)
    (c : Call R) (calls : List (Call R)) :
    d.EachCall P logging (c :: calls) ↔
      P d ∧ ∀ p ∈ d.call logging c, p.2.EachCall P logging calls := by
  have hrun : ∀ cs d', d.run logging (c :: cs) = some d' ↔
      ∃ p ∈ d.call logging c, p.2.run logging cs = some d' := by
    intro cs d'
    cases hc : d.call logging c <;> simp [DynamicExtension.run, hc]
  constructor
  · intro h
    refine ⟨h [] c calls rfl d rfl, fun p hp pre c' post hsplit d' hd' => ?_⟩
    exact h (c :: pre) c' post (by rw [hsplit]; rfl) d' ((hrun pre d').mpr ⟨p, hp, hd'⟩)
  · rintro ⟨hok, hrest⟩ pre c' post hsplit d' hd'
    cases pre with
    | nil =>
      obtain rfl : c = c' := by simpa using (List.cons.inj hsplit).1
      exact Option.some.inj hd' ▸ hok
    | cons a pre =>
      obtain ⟨rfl, htail⟩ := List.cons.inj hsplit
      obtain ⟨p, hp, hd'⟩ := (hrun pre d').mp hd'
      exact hrest p hp pre c' post htail d' hd'

theorem runOk_cons (logging : Bool) (d : DynamicExtension T L) (c : Call R)
    (calls : List (Call R)) :
    d.RunOk logging (c :: calls) ↔
      d.CallOk ∧ ∀ p ∈ d.call logging c, p.2.RunOk logging calls :=
  eachCall_cons CallOk logging d c calls

instance decidableEachCall (P : DynamicExtension T L → Prop) [DecidablePred P] (logging : Bool) :
    ∀ (calls : List (Call R)) (d : DynamicExtension T L), Decidable (d.EachCall P logging calls)
  | [], _ => isTrue fun pre c post h => by simp at h
  | c :: calls, d =>
    have := decidableEachCall P logging calls
    decidable_of_iff (P d ∧ ∀ p ∈ d.call logging c, p.2.EachCall P logging calls)
      (eachCall_cons P logging d c calls).symm

instance decidableRunOk (logging : Bool) (calls : List (Call R)) (d : DynamicExtension T L) :
    Decidable (d.RunOk logging calls) :=
  inferInstanceAs (Decidable (d.EachCall CallOk logging calls))

end Defs

/-- Between two calls of a run that was in order so far -/
structure Serving (lwm hwm : Nat) (d : DynamicExtension T L) (e : Epoch T L)
    (pins oldPins : Nat) : Prop where
  idle : Idle d e pins oldPins
  scheduled : d.reconstructionScheduled = false
  lwm_eq : d.buffer.lwm = lwm
  hwm_eq : d.buffer.hwm = hwm
  intact : e.vers.Intact

section Step
variable [Zero R] {lwm hwm pins oldPins : Nat} {d : DynamicExtension T L} {e : Epoch T L}

omit [Zero R] in
theorem Serving.view_records (h : Serving lwm hwm d e pins oldPins) :
    (e.view d.buffer).records = d.buffer.records := by
  rw [MutableBuffer.records, h.idle.head]
  rfl

omit [Zero R] in
theorem Serving.view_count (h : Serving lwm hwm d e pins oldPins) :
    (e.view d.buffer).getRecordCount = d.buffer.getRecordCount := by
  rw [← BufferView.length_records, h.view_records, MutableBuffer.length_records]

omit [Zero R] in
theorem Serving.count_le (h : Serving lwm hwm d e pins oldPins) :
    d.buffer.getRecordCount ≤ hwm :=
  h.hwm_eq ▸ h.idle.formed.count_le

/-- What a call does: it appends to the buffer, or it flushes the buffer and
appends to the empty one. -/
def Stored (d : DynamicExtension T L) (e : Epoch T L) (rec : R) (ts : Bool)
    (d' : DynamicExtension T L) (e' : Epoch T L) : Prop :=
  ∃ pos,
    (e' = e ∧ d'.buffer.records = d.buffer.records ++ [MutableBuffer.slotContent rec ts pos]) ∨
    (0 < d.buffer.getRecordCount ∧
      Regroup T (e.vers.shards + {T.ofBuffer (e.view d.buffer)}) e'.vers.shards ∧
      d'.buffer.records = [MutableBuffer.slotContent rec ts pos])

omit [Zero R] in
/-- The epochs and their reference counts after a call: unchanged, or the previous
epoch, held by nobody, is gone, the active one is in its place and a fresh one is active. -/
def Turned (d : DynamicExtension T L) (e : Epoch T L) (pins oldPins : Nat)
    (d' : DynamicExtension T L) (e' : Epoch T L) (pins' oldPins' : Nat) : Prop :=
  (e' = e ∧ pins' = pins ∧ oldPins' = oldPins ∧ d'.previousEpoch = d.previousEpoch) ∨
  (oldPins = 0 ∧ e.number < e'.number ∧ pins' = 0 ∧ oldPins' = pins ∧
    d'.previousEpoch = ⟨some e, pins⟩)

theorem Serving.internalAppend_below (hle : lwm ≤ hwm) (h : Serving lwm hwm d e pins oldPins)
    (hs : d.buffer.SlotOk) (hlow : d.buffer.getRecordCount < d.buffer.lwm) (rec : R)
    (ts logging : Bool) :
    ∃ b, d.internalAppend rec ts logging = some (1, { d with buffer := b }) ∧
      Serving lwm hwm { d with buffer := b } e pins oldPins ∧
      d.buffer.Appended rec ts logging b := by
  have hl := h.lwm_eq
  have hh := h.hwm_eq
  obtain ⟨b, hb, hi, ha⟩ := h.idle.internalAppend_below hlow (by omega) hs rec ts logging
  exact ⟨b, hb, ⟨hi, h.scheduled, ha.lwm.trans hl, ha.hwm.trans hh, h.intact⟩, ha⟩

theorem flushed_records (d : DynamicExtension T L) (e : Epoch T L)
    (s : ExtensionStructure T L) : (d.flushed e s).buffer.records = [] := by
  rw [← List.length_eq_zero_iff, MutableBuffer.length_records]
  simp [MutableBuffer.getRecordCount, flushed]

theorem Serving.internalAppend_round (hlwm : 0 < lwm) (h : Serving lwm hwm d e pins 0)
    (hslot : d.buffer.SlotOk) (hlow : d.buffer.lwm ≤ d.buffer.getRecordCount)
    {s : ExtensionStructure T L} (hs : e.vers.round hwm (e.view d.buffer) = some s)
    (hint : s.Intact) (rec : R) (ts logging : Bool) :
    ∃ b, d.internalAppend rec ts logging = some (1, { d.flushed e s with buffer := b }) ∧
      Serving lwm hwm { d.flushed e s with buffer := b } ⟨d.epochCnt + 1, s, d.buffer.tail⟩ 0 pins ∧
      (d.flushed e s).buffer.Appended rec ts logging b := by
  have hl := h.lwm_eq
  have hh := h.hwm_eq
  obtain ⟨b, hb, hi, ha⟩ := (h.idle.internalAppend_at h.scheduled (by omega) hlow hslot
    rec ts logging).2 s (by rw [hh]; exact hs)
  exact ⟨b, hb, ⟨hi, rfl, ha.lwm.trans hl, ha.hwm.trans hh, hint⟩, ha⟩

omit [Zero R] in
theorem Serving.view_le (h : Serving lwm hwm d e pins oldPins) :
    (e.view d.buffer).getRecordCount ≤ hwm := by
  rw [h.view_count]
  exact h.count_le

theorem Serving.internalAppend_at (hT : T.MergesRecords) (hlwm : 0 < lwm)
    (h : Serving lwm hwm d e pins 0) (hok : d.CallOk) (hat : d.buffer.isAtLowWatermark) (rec : R)
    (ts logging : Bool) :
    ∃ s b, e.vers.round hwm (e.view d.buffer) = some s ∧
      Regroup T (e.vers.shards + {T.ofBuffer (e.view d.buffer)}) s.shards ∧
      d.internalAppend rec ts logging = some (1, { d.flushed e s with buffer := b }) ∧
      Serving lwm hwm { d.flushed e s with buffer := b } ⟨d.epochCnt + 1, s, d.buffer.tail⟩ 0 pins ∧
      (d.flushed e s).buffer.Appended rec ts logging b := by
  have hlow : d.buffer.lwm ≤ d.buffer.getRecordCount := by
    simpa [MutableBuffer.isAtLowWatermark] using hat
  have hround := hok.round hat e (by rw [h.idle.current])
  rw [h.hwm_eq] at hround
  obtain ⟨s, hs, hint, hr⟩ := h.intact.round hT h.view_le hround
  obtain ⟨b, hb, hserv, ha⟩ := h.internalAppend_round hlwm hok.slot hlow hs hint rec ts logging
  exact ⟨s, b, hs, hr, hb, hserv, ha⟩

theorem Serving.internalAppend_of_round (hlwm : 0 < lwm) (hle : lwm ≤ hwm)
    (h : Serving lwm hwm d e pins oldPins) (hslot : d.buffer.SlotOk)
    (hround : d.buffer.lwm ≤ d.buffer.getRecordCount → oldPins = 0 ∧
      ∃ s, e.vers.round hwm (e.view d.buffer) = some s ∧ s.Intact ∧
        Regroup T (e.vers.shards + {T.ofBuffer (e.view d.buffer)}) s.shards) (rec : R)
    (ts logging : Bool) :
    ∃ d' e' pins' oldPins', d.internalAppend rec ts logging = some (1, d') ∧
      Serving lwm hwm d' e' pins' oldPins' ∧ Stored d e rec ts d' e' ∧
      Turned d e pins oldPins d' e' pins' oldPins' ∧
      (e' = e ∨ 0 < d.buffer.getRecordCount ∧
        e.vers.round hwm (e.view d.buffer) = some e'.vers) := by
  have hl := h.lwm_eq
  by_cases hlow : d.buffer.getRecordCount < d.buffer.lwm
  · obtain ⟨b, hb, hs, ha⟩ := h.internalAppend_below hle hslot hlow rec ts logging
    obtain ⟨pos, hrec⟩ := ha.records
    exact ⟨_, e, pins, oldPins, hb, hs, ⟨pos, .inl ⟨rfl, hrec⟩⟩,
      .inl ⟨rfl, rfl, rfl, rfl⟩, .inl rfl⟩
  · obtain ⟨rfl, s, hs, hint, hr⟩ := hround (by omega)
    obtain ⟨b, hb, hserv, ha⟩ := h.internalAppend_round hlwm hslot (by omega) hs hint rec ts logging
    obtain ⟨pos, hrec⟩ := ha.records
    rw [flushed_records, List.nil_append] at hrec
    exact ⟨_, ⟨d.epochCnt + 1, s, d.buffer.tail⟩, 0, pins, hb, hserv,
      ⟨pos, .inr ⟨by omega, hr, hrec⟩⟩,
      .inr ⟨rfl, Nat.lt_succ_of_le h.idle.number_le, rfl, rfl, h.idle.current⟩,
      .inr ⟨by omega, hs⟩⟩

theorem Serving.internalAppend (hT : T.MergesRecords) (hlwm : 0 < lwm) (hle : lwm ≤ hwm)
    (h : Serving lwm hwm d e pins oldPins) (hok : d.CallOk)
    (hret : d.buffer.isAtLowWatermark → oldPins = 0) (rec : R) (ts logging : Bool) :
    ∃ d' e' pins' oldPins', d.internalAppend rec ts logging = some (1, d') ∧
      Serving lwm hwm d' e' pins' oldPins' ∧ Stored d e rec ts d' e' ∧
      Turned d e pins oldPins d' e' pins' oldPins' := by
  obtain ⟨d', e', p, o, hd', hs', heff, hturn, -⟩ :=
    h.internalAppend_of_round hlwm hle hok.slot (fun hlow => by
      have hat : d.buffer.isAtLowWatermark := by simpa [MutableBuffer.isAtLowWatermark] using hlow
      have hround := hok.round hat e (by rw [h.idle.current])
      rw [h.hwm_eq] at hround
      exact ⟨hret hat, h.intact.round hT h.view_le hround⟩) rec ts logging
  exact ⟨d', e', p, o, hd', hs', heff, hturn⟩

/-- What the structure and the buffer hold after the calls: the buffer is the end
of their sequence, and nothing carries a delete bit. -/
structure Tracks (lwm hwm : Nat) (d : DynamicExtension T L) (e : Epoch T L)
    (pins oldPins : Nat) (calls : List (Call R)) : Prop where
  serving : Serving lwm hwm d e pins oldPins
  split : ∃ old recent, calls = old ++ recent ∧ e.vers.net = netOf old ∧
    d.buffer.records.map Wrapped.payload = recent.map fun c => (c.record, c.tombstone)
  bufferLive : ∀ w ∈ d.buffer.records, w.isDeleted = false
  shardsLive : ∀ x ∈ e.vers.shards, ∀ w ∈ T.records x, w.isDeleted = false

omit [Zero R] in
theorem net_payload {ws : List (Wrapped R)} {calls : List (Call R)}
    (h : ws.map Wrapped.payload = calls.map fun c => (c.record, c.tombstone)) :
    De.net ws = netOf calls := by
  apply net_congr
  rw [h, List.map_map]
  exact List.map_congr_left fun c _ => c.payload_wrapped.symm

omit [Zero R] in
theorem Tracks.net {calls : List (Call R)} (h : Tracks lwm hwm d e pins oldPins calls) :
    e.vers.net + De.net d.buffer.records = netOf calls := by
  obtain ⟨old, recent, rfl, hnet, hpay⟩ := h.split
  rw [hnet, net_payload hpay, netOf_append]

omit [Zero R] in
theorem shardsLive_regroup {xs ys : Multiset T.Shard} {v : BufferView R}
    (h : Regroup T (xs + {T.ofBuffer v}) ys)
    (hxs : ∀ x ∈ xs, ∀ w ∈ T.records x, w.isDeleted = false)
    (hv : ∀ w ∈ v.records, w.isDeleted = false) :
    ∀ y ∈ ys, ∀ w ∈ T.records y, w.isDeleted = false := by
  refine h.all (fun zs x _ hzs hx w hw => ?_) fun x hx w hw => ?_
  · obtain ⟨z, hz, hwz⟩ := T.ofShards_mem zs x hx w hw
    exact hzs z hz w hwz
  · rcases Multiset.mem_add.mp hx with hx | hx
    · exact hxs x hx w hw
    · rw [Multiset.mem_singleton.mp hx] at hw
      exact hv w (T.ofBuffer_mem v w hw)

omit [Zero R] in
theorem Tracks.store {calls : List (Call R)} (h : Tracks lwm hwm d e pins oldPins calls)
    {d' : DynamicExtension T L} {e' : Epoch T L} {pins' oldPins' : Nat} {c : Call R}
    (hs : Serving lwm hwm d' e' pins' oldPins') (heff : Stored d e c.record c.tombstone d' e') :
    Tracks lwm hwm d' e' pins' oldPins' (calls ++ [c]) := by
  obtain ⟨pos, heff⟩ := heff
  obtain ⟨old, recent, hcalls, hnet, hpay⟩ := h.split
  rcases heff with ⟨rfl, hrec⟩ | ⟨-, hr, hrec⟩
  · refine ⟨hs, ⟨old, recent ++ [c], by simp [hcalls], hnet, ?_⟩, ?_, h.shardsLive⟩
    · simp [hrec, hpay, Wrapped.payload]
    · intro w hw
      rw [hrec, List.mem_append, List.mem_singleton] at hw
      rcases hw with hw | rfl
      · exact h.bufferLive w hw
      · simp
  · refine ⟨hs, ⟨old ++ recent, [c], by simp [hcalls], ?_, ?_⟩, ?_, ?_⟩
    · rw [ExtensionStructure.net_regroup hr, hnet, h.serving.view_records, net_payload hpay,
        netOf_append]
    · simp [hrec, Wrapped.payload]
    · simp [hrec]
    · exact shardsLive_regroup hr h.shardsLive (by rw [h.serving.view_records]; exact h.bufferLive)

theorem call_eq (logging : Bool) (d : DynamicExtension T L) (c : Call R) :
    d.call logging c = d.internalAppend c.record c.tombstone logging := by
  cases c <;> rfl

theorem Tracks.call (hT : T.MergesRecords) (hlwm : 0 < lwm) (hle : lwm ≤ hwm)
    {calls : List (Call R)} (h : Tracks lwm hwm d e pins oldPins calls) (hok : d.CallOk)
    (hret : d.buffer.isAtLowWatermark → oldPins = 0) (logging : Bool) (c : Call R) :
    ∃ d' e' pins' oldPins', d.call logging c = some (1, d') ∧
      Tracks lwm hwm d' e' pins' oldPins' (calls ++ [c]) ∧
      Turned d e pins oldPins d' e' pins' oldPins' := by
  obtain ⟨d', e', pins', oldPins', hd', hs', heff, hturn⟩ :=
    h.serving.internalAppend hT hlwm hle hok hret c.record c.tombstone logging
  exact ⟨d', e', pins', oldPins', by rw [call_eq, hd'], h.store hs' heff, hturn⟩

theorem Tracks.run (hT : T.MergesRecords) (hlwm : 0 < lwm) (hle : lwm ≤ hwm) (logging : Bool)
    {hist calls : List (Call R)} (h : Tracks lwm hwm d e 0 0 hist) (hok : d.RunOk logging calls) :
    ∃ d' e', d.run logging calls = some d' ∧ Tracks lwm hwm d' e' 0 0 (hist ++ calls) := by
  induction calls generalizing d e hist with
  | nil => exact ⟨d, e, rfl, by simpa using h⟩
  | cons c calls ih =>
    obtain ⟨d₁, e₁, p, o, hcall, h₁, hturn⟩ :=
      h.call hT hlwm hle ((runOk_cons logging d c calls).mp hok).1 (fun _ => rfl) logging c
    obtain ⟨rfl, rfl⟩ : p = 0 ∧ o = 0 := by
      rcases hturn with ⟨-, hp, ho, -⟩ | ⟨-, -, hp, ho, -⟩ <;> exact ⟨hp, ho⟩
    obtain ⟨-, hrest⟩ := (runOk_cons logging d c calls).mp hok
    obtain ⟨d', e', hd', h'⟩ := ih h₁ (hrest _ hcall)
    exact ⟨d', e', by rw [run_cons hcall, hd'], by simpa using h'⟩

omit [Zero R] in
theorem ofCheckpoint_none (T : ShardType R) (L : LayoutPolicy) (hwm scale : Nat) :
    ExtensionStructure.ofCheckpoint T L hwm scale none =
      some (ExtensionStructure.new T L hwm scale) := rfl

theorem new_eq (T : ShardType R) (L : LayoutPolicy) {scale : Nat} (hlwm : 0 < lwm)
    (hle : lwm ≤ hwm) (hbsm : L = .bsm → scale = 2) {log : Option (List (WALEntry R))}
    (hlog : ∀ file, log = some file → file = []) :
    new T L lwm hwm scale none log =
      some ⟨MutableBuffer.empty lwm hwm (log.map WriteAheadLogger.new), false, 0, ⟨none, 0⟩,
        ⟨some ⟨0, ExtensionStructure.new T L hwm scale, 0⟩, 0⟩, ⟨none, 0⟩⟩ := by
  have hcap : 2 * hwm > hwm := by omega
  have hbuf : MutableBuffer.new lwm hwm log =
      some (MutableBuffer.empty lwm hwm (log.map WriteAheadLogger.new)) := by
    cases log with
    | none => simp [MutableBuffer.new, MutableBuffer.empty, guard, hcap, hle]
    | some file =>
      obtain rfl := hlog file rfl
      simp [MutableBuffer.new, MutableBuffer.empty, MutableBuffer.buildBufferFromLog,
        WriteAheadLogger.replay, guard, hcap, hle]
  simp only [new, hbuf, ofCheckpoint_none, guard, if_pos hbsm]
  rfl

theorem tracks_new (T : ShardType R) (L : LayoutPolicy) {scale : Nat} (hlwm : 0 < lwm)
    (hle : lwm ≤ hwm) (hscale : 0 < scale) (hbsm : L = .bsm → scale = 2)
    {log : Option (List (WALEntry R))} (hlog : ∀ file, log = some file → file = []) :
    ∃ d e, new T L lwm hwm scale none log = some d ∧ Tracks lwm hwm d e 0 0 [] := by
  have hrec : (MutableBuffer.empty lwm hwm (log.map WriteAheadLogger.new)).records =
      ([] : List (Wrapped R)) := rfl
  refine ⟨_, ⟨0, ExtensionStructure.new T L hwm scale, 0⟩, new_eq T L hlwm hle hbsm hlog,
    ⟨⟨⟨rfl, rfl, rfl, by simp, le_rfl, rfl, rfl, ?_, ?_⟩, rfl, rfl,
    rfl, ?_⟩, ⟨[], [], rfl, rfl, by simp [hrec]⟩, by simp [hrec], ?_⟩⟩
  · show hwm ≠ 0
    omega
  · have hcap : hwm < 2 * hwm := by omega
    exact ⟨le_rfl, Nat.zero_le _, hcap⟩
  · exact ExtensionStructure.intact_new T L hwm scale hscale
  · intro x hx
    simp [ExtensionStructure.new, ExtensionStructure.shards] at hx

end Step

end DynamicExtension

end De
