import DynamicExtension.SerialRun
import DynamicExtension.PlannerAgreement
import DynamicExtension.BufferRuns
import DynamicExtension.WriteAheadLogging
set_option autoImplicit false

namespace De
variable {R : Type} [DecidableEq R] {T : ShardType R} {L : LayoutPolicy}

namespace ExtensionStructure

/-- Where every shard can be built, a round of a run completes exactly if the capacity of
level 0 is enough for the view, also under BSM, where the flushed shard may be left pending. -/
theorem Reachable.round_isSome_iff (hT : T.Total) {hwm scale : Nat} (hpos : 0 < scale)
    {s : ExtensionStructure T L} (hs : Reachable T L hwm scale s) {v : BufferView R}
    (hv : v.getRecordCount ≤ hwm) :
    (s.round hwm v).isSome ↔ s.HasCapacity v.getRecordCount := by
  obtain ⟨s₁, hs₁⟩ := Option.isSome_iff_exists.mp (hs.tasks_isSome hT)
  have hflush : s.round hwm v = s₁.flushBuffer v := by
    rw [ExtensionStructure.round, hs₁]
    rfl
  rw [← hs.canFlush_iff hpos hs₁ hv]
  constructor
  · intro hsome
    rw [hflush, flushBuffer_eq_guard] at hsome
    by_contra hno
    rw [if_neg hno] at hsome
    cases hsome
  intro hcan
  by_cases h : L = .bsm
  swap
  · obtain ⟨hset, hscale, -⟩ := hs.settled h
    exact ExtensionStructure.round_isSome h hset (by omega) hv
      ((hs.canFlush_iff hpos hs₁ hv).mp hcan) fun xs _ => hT xs
  subst h
  have hpend : (s₁.levelAt 0).pendingShard = none := by
    have hsound := sound_copy hs.counted
    rcases reconstructTasks_copy hs.counted hwm hs₁ with ⟨-, rfl⟩ | ⟨h0, x, -, rfl⟩
    · exact hsound.noPending 0
    · rw [levelAt_placeMerged (planTarget_bsm hsound.counts hwm).1 (length_counts hsound.counts),
        if_pos (Nat.pos_of_ne_zero h0)]
      rfl
  rw [hflush, flushBuffer_eq_guard, if_pos hcan, Option.isSome_map]
  show ((s₁.levelAt 0).appendBuffer v).isSome
  by_cases hfree : (s₁.levelAt 0).free = 0
  · rw [InternalLevel.appendBuffer_full hfree hpend]
    rfl
  · rw [InternalLevel.appendBuffer_free hfree]
    rfl

end ExtensionStructure

namespace DynamicExtension

def getRecordCount (d : DynamicExtension T L) : Option (Nat × DynamicExtension T L) := do
  let (epoch, d) ← d.getActiveEpoch
  let (view, buffer) ← d.buffer.getBufferView epoch.bufferHead
  let t := view.getRecordCount + epoch.vers.getRecordCount
  let buffer ← buffer.releaseHeadReference view.head
  let d ← { d with buffer := buffer }.endJob epoch
  return (t, d)

section Service
variable [Zero R]

/-- Every call returns 1, no assertion of a call fails, no wait of a call is endless, and
each call leaves at most `lwm` records in the buffer. -/
def Serves (lwm : Nat) (logging : Bool) : DynamicExtension T L → List (Call R) → Prop
  | _, [] => True
  | d, c :: calls => ∃ d', d.call logging c = some (1, d') ∧ d'.buffer.getRecordCount ≤ lwm ∧
      Serves lwm logging d' calls

/-- Between two calls, whatever the slots of the buffer hold; `n` calls have appended. -/
structure Ready (lwm hwm scale n : Nat) (d : DynamicExtension T L) (e : Epoch T L) : Prop where
  idle : Idle d e 0 0
  scheduled : d.reconstructionScheduled = false
  lwm_eq : d.buffer.lwm = lwm
  hwm_eq : d.buffer.hwm = hwm
  tail : d.buffer.tail = n
  cap_eq : d.buffer.cap = 2 * hwm
  count_le : d.buffer.getRecordCount ≤ lwm
  reachable : ExtensionStructure.Reachable T L hwm scale e.vers

variable {lwm hwm scale n : Nat} {d : DynamicExtension T L} {e : Epoch T L}

theorem Idle.reserve {pins oldPins : Nat} (h : Idle d e pins oldPins)
    (hroom : d.buffer.getRecordCount < d.buffer.hwm) (rec : R) (ts logging : Bool) :
    Idle { d with buffer := (d.buffer.append rec ts logging).2 } e pins oldPins ∧
      d.buffer.Reserved (d.buffer.append rec ts logging).2 ∧
      (d.buffer.append rec ts logging).2.lwm = d.buffer.lwm := by
  have hr := MutableBuffer.reserved_append h.formed hroom rec ts logging
  obtain ⟨hhead, hold, hlwm⟩ : (d.buffer.append rec ts logging).2.head = d.buffer.head ∧
      (d.buffer.append rec ts logging).2.oldHead = d.buffer.oldHead ∧
      (d.buffer.append rec ts logging).2.lwm = d.buffer.lwm := by
    by_cases hneg : MutableBuffer.toInt32 d.buffer.tail = -1#32
    · rw [MutableBuffer.append_of_neg_one hroom hneg]
      exact ⟨rfl, rfl, rfl⟩
    · rw [MutableBuffer.append_of_room hroom hneg]
      exact ⟨rfl, rfl, rfl⟩
  exact ⟨⟨h.next, h.current, h.previous, h.number, h.number_le, hhead.trans h.head,
    by rw [hold]; exact h.oldHead, by rw [hold]; exact h.apart, hr.formed⟩, hr, hlwm⟩

omit [Zero R] in
theorem Ready.view_count (h : Ready lwm hwm scale n d e) :
    (e.view d.buffer).getRecordCount = d.buffer.getRecordCount := by
  rw [MutableBuffer.getRecordCount, h.idle.head]
  rfl

omit [Zero R] in
theorem Ready.count_le_calls (h : Ready lwm hwm scale n d e) : d.buffer.getRecordCount ≤ n :=
  h.tail ▸ Nat.sub_le _ _

/-- The capacity of level 0 is enough for a buffer at the low watermark, or the calls so
far and one more do not reach it. -/
def CanFlush (T : ShardType R) (L : LayoutPolicy) (lwm hwm scale n : Nat) : Prop :=
  (ExtensionStructure.new T L hwm scale).HasCapacity lwm ∨ n < lwm

/-- A call flushes the buffer where it must and then appends; the append's result is the
only thing that depends on the tail. -/
theorem Ready.call (hT : T.Total) (hlwm : 0 < lwm) (hle : lwm ≤ hwm) (hscale : 0 < scale)
    (h : Ready lwm hwm scale n d e) (hcap : CanFlush T L lwm hwm scale n) (logging : Bool)
    (c : Call R) :
    ∃ d' e', d.call logging c =
        some (if MutableBuffer.toInt32 n = -1#32 then 0 else 1, d') ∧
      Ready lwm hwm scale (n + 1) d' e' ∧
      (d.buffer.getRecordCount < lwm →
        d'.buffer.getRecordCount = d.buffer.getRecordCount + 1) := by
  have hl := h.lwm_eq
  have hh := h.hwm_eq
  have happend : ∀ {b : MutableBuffer R}, b.getRecordCount < b.hwm → b.tail = n →
      (b.append c.record c.tombstone logging).1 =
        if MutableBuffer.toInt32 n = -1#32 then 0 else 1 := by
    intro b hroom htail
    rw [← htail]
    split
    · rename_i hneg
      rw [MutableBuffer.append_of_neg_one hroom hneg]
    · rename_i hneg
      rw [MutableBuffer.append_of_room hroom hneg]
  rw [call_eq]
  by_cases hlow : d.buffer.getRecordCount < d.buffer.lwm
  · have hroom : d.buffer.getRecordCount < d.buffer.hwm := by omega
    obtain ⟨hi, hr, hlwm'⟩ := h.idle.reserve hroom c.record c.tombstone logging
    refine ⟨_, e, by rw [internalAppend_low hlow, happend hroom h.tail], ⟨hi, h.scheduled,
      hlwm'.trans hl, hr.hwm.trans hh, hr.tail.trans (congrArg Nat.succ h.tail),
      hr.cap.trans h.cap_eq, ?_, h.reachable⟩, fun _ => hr.count⟩
    show (d.buffer.append c.record c.tombstone logging).2.getRecordCount ≤ lwm
    rw [hr.count]
    omega
  · have hpos : 0 < d.buffer.getRecordCount := by omega
    have hview : (e.view d.buffer).getRecordCount ≤ lwm := h.view_count ▸ h.count_le
    have hcount := hview.trans hle
    have hcalls := h.count_le_calls
    have hcap : e.vers.HasCapacity (e.view d.buffer).getRecordCount := fun hL =>
      hview.trans ((h.reachable.hasCapacity_iff lwm).mpr (hcap.resolve_right (by omega)) hL)
    obtain ⟨s, hs⟩ := Option.isSome_iff_exists.mp
      ((h.reachable.round_isSome_iff hT hscale hcount).mpr hcap)
    have hroom := h.idle.flushed_room hpos s
    obtain ⟨hi, hr, hlwm'⟩ := (h.idle.flushed hpos s).reserve hroom c.record c.tombstone logging
    refine ⟨_, ⟨d.epochCnt + 1, s, d.buffer.tail⟩, ?_, ⟨hi, rfl, hlwm'.trans hl,
      hr.hwm.trans hh, hr.tail.trans (congrArg Nat.succ h.tail), hr.cap.trans h.cap_eq, ?_,
      h.reachable.round hcount hs⟩, fun hlt => absurd hlt (by omega)⟩
    · rw [h.idle.internalAppend_flush h.scheduled (by omega) (by omega), hh, hs, Option.map_some,
        Option.map_some, happend hroom h.tail]
    · show ((d.flushed e s).buffer.append c.record c.tombstone logging).2.getRecordCount ≤ lwm
      have hzero : (d.flushed e s).buffer.getRecordCount = 0 := Nat.sub_self _
      rw [hr.count, hzero]
      exact hlwm

theorem Ready.call_eq_none (hT : T.Total) (hlwm : 0 < lwm) (hle : lwm ≤ hwm) (hscale : 0 < scale)
    (h : Ready lwm hwm scale n d e) (hfull : d.buffer.getRecordCount = lwm)
    (hcap : ¬ (ExtensionStructure.new T L hwm scale).HasCapacity lwm) (logging : Bool)
    (c : Call R) : d.call logging c = none := by
  have hl := h.lwm_eq
  have hview : (e.view d.buffer).getRecordCount = lwm := h.view_count.trans hfull
  have hround : e.vers.round hwm (e.view d.buffer) = none := by
    rw [← Option.not_isSome_iff_eq_none,
      h.reachable.round_isSome_iff hT hscale (hview.le.trans hle), hview,
      h.reachable.hasCapacity_iff]
    exact hcap
  rw [call_eq, h.idle.internalAppend_flush h.scheduled (by omega) (by omega), h.hwm_eq, hround]
  rfl

theorem Ready.serves_length (hT : T.Total) (hlwm : 0 < lwm) (hle : lwm ≤ hwm) (hscale : 0 < scale)
    (h : Ready lwm hwm scale n d e) (hn : n < 2 ^ 32)
    (hcap : (ExtensionStructure.new T L hwm scale).HasCapacity lwm ∨
      d.buffer.getRecordCount = n) (logging : Bool) (calls : List (Call R)) :
    Serves lwm logging d calls ↔ n + calls.length < 2 ^ 32 ∧
      ((ExtensionStructure.new T L hwm scale).HasCapacity lwm ∨ n + calls.length ≤ lwm) := by
  induction calls generalizing d e n with
  | nil =>
    have hle := h.count_le
    refine iff_of_true trivial ⟨by simpa using hn, hcap.imp id fun hcount => ?_⟩
    simpa [← hcount] using hle
  | cons c calls ih =>
    have hneg : MutableBuffer.toInt32 n = -1#32 ↔ n = 2 ^ 32 - 1 := by
      rw [MutableBuffer.toInt32_eq_neg_one, Nat.mod_eq_of_lt hn]
    rw [Serves, List.length_cons]
    by_cases hflush : CanFlush T L lwm hwm scale n
    · obtain ⟨d', e', hcall, h', hcount'⟩ := h.call hT hlwm hle hscale hflush logging c
      by_cases hlast : n = 2 ^ 32 - 1
      · rw [if_pos (hneg.mpr hlast)] at hcall
        refine iff_of_false ?_ (by omega)
        rintro ⟨d'', hcall', -⟩
        rw [hcall] at hcall'
        exact absurd (Prod.mk.inj (Option.some.inj hcall')).1 (by decide)
      · rw [if_neg (mt hneg.mp hlast)] at hcall
        have hcap' : (ExtensionStructure.new T L hwm scale).HasCapacity lwm ∨
            d'.buffer.getRecordCount = n + 1 := by
          rcases hcap with hcap | hcount
          · exact .inl hcap
          · refine hflush.imp id fun hlt => ?_
            rw [hcount' (by omega), hcount]
        have hrest := ih h' (by omega) hcap'
        rw [show n + 1 + calls.length = n + (calls.length + 1) by omega] at hrest
        rw [← hrest]
        constructor
        · rintro ⟨d'', hcall', -, hserves⟩
          obtain rfl : d' = d'' := (Prod.mk.inj (Option.some.inj (hcall.symm.trans hcall'))).2
          exact hserves
        · exact fun hserves => ⟨d', hcall, h'.count_le, hserves⟩
    · -- the buffer is full and cannot be flushed
      obtain ⟨hno, hge⟩ := not_or.mp hflush
      have hcount := hcap.resolve_left hno
      have hle := h.count_le
      have hnone := h.call_eq_none hT hlwm ‹_› hscale (by omega) hno logging c
      refine iff_of_false ?_ fun hok => absurd (hok.2.resolve_left hno) (by omega)
      rintro ⟨d', hcall, -⟩
      rw [hnone] at hcall
      cases hcall

/-- The 32-bit copy of the tail `i` names its slot. -/
def TailFits (hwm i : Nat) : Prop :=
  i % 2 ^ 32 ≠ 2 ^ 32 - 1 ∧ MutableBuffer.widened i % (2 * hwm) = i % (2 * hwm)

instance (hwm i : Nat) : Decidable (TailFits hwm i) := inferInstanceAs (Decidable (_ ∧ _))

theorem tailFits_of_lt {hwm i : Nat} (h : i < 2 ^ 31) : TailFits hwm i := by
  have hmod : i % 2 ^ 32 = i := Nat.mod_eq_of_lt (by omega)
  rw [TailFits, MutableBuffer.widened, hmod, if_pos h]
  exact ⟨by omega, rfl⟩

/-- A call on each record, and no two calls on one: the shards and the buffer hold no
more records than calls were made. -/
structure Counts (lwm hwm scale : Nat) (d : DynamicExtension T L) (e : Epoch T L)
    (calls : List (Call R)) : Prop where
  ready : Ready lwm hwm scale calls.length d e
  tracks : Tracks lwm hwm d e 0 0 calls
  slot : e.vers.FindsSlot
  stored : (e.vers.shards.map T.recordCount).sum + d.buffer.getRecordCount ≤ calls.length

section Distinct
omit [Zero R]

theorem netOf_cons (c : Call R) (calls : List (Call R)) :
    netOf (c :: calls) = unit c.wrapped + netOf calls := net_cons ..

theorem net_eq_zero {ws : List (Wrapped R)} {r : R} (h : r ∉ ws.map Wrapped.record) :
    De.net ws r = 0 := by
  have hne : ∀ w ∈ ws, w.record ≠ r := fun w hw heq => h (List.mem_map.mpr ⟨w, hw, heq⟩)
  have hlive : liveCount ws r = 0 := List.countP_eq_zero.mpr fun w hw => by simp [hne w hw]
  have htomb : tombstoneCount ws r = 0 := List.countP_eq_zero.mpr fun w hw => by simp [hne w hw]
  rw [De.net, hlive, htomb]
  rfl

theorem netOf_eq_zero {calls : List (Call R)} {r : R} (h : r ∉ calls.map Call.record) :
    netOf calls r = 0 := by
  refine net_eq_zero fun hmem => h ?_
  simpa [Call.wrapped, Function.comp_def] using hmem

theorem netOf_ne_zero {calls : List (Call R)} (h : (calls.map Call.record).Nodup) {c : Call R}
    (hc : c ∈ calls) : netOf calls c.record ≠ 0 := by
  induction calls with
  | nil => exact absurd hc List.not_mem_nil
  | cons a calls ih =>
    obtain ⟨ha, hcalls⟩ := List.nodup_cons.mp h
    rw [netOf_cons, Pi.add_apply]
    rcases List.mem_cons.mp hc with rfl | hc
    · rw [netOf_eq_zero ha, unit, if_pos (by simp [Call.wrapped])]
      cases c <;> simp [Call.wrapped, Call.tombstone]
    · have hne : a.wrapped.record ≠ c.record := fun heq =>
        ha (List.mem_map.mpr ⟨c, hc, by simpa [Call.wrapped] using heq.symm⟩)
      rw [unit, if_neg hne, zero_add]
      exact ih hcalls hc

theorem length_le_of_net {calls : List (Call R)} {ws : List (Wrapped R)}
    (h : (calls.map Call.record).Nodup) (hnet : De.net ws = netOf calls) :
    calls.length ≤ ws.length := by
  have hsub : calls.map Call.record ⊆ ws.map Wrapped.record := by
    intro r hr
    obtain ⟨c, hc, rfl⟩ := List.mem_map.mp hr
    by_contra hno
    exact netOf_ne_zero h hc (by rw [← hnet]; exact net_eq_zero hno)
  simpa using (h.subperm hsub).length_le

end Distinct

omit [Zero R] in
theorem Idle.getRecordCount {pins oldPins : Nat} (h : Idle d e pins oldPins) :
    d.getRecordCount = some (d.buffer.getRecordCount + e.vers.getRecordCount, d) := by
  have hrel : MutableBuffer.releaseHeadReference { d.buffer with head := ⟨e.bufferHead, 1⟩ }
      (e.view d.buffer).head = some d.buffer := h.releaseHeadReference
  have hview : (e.view d.buffer).getRecordCount = d.buffer.getRecordCount := by
    rw [MutableBuffer.getRecordCount, h.head]
    rfl
  simp only [DynamicExtension.getRecordCount, h.getActiveEpoch, h.getBufferView,
    Option.bind_eq_bind, Option.bind_some, hrel, h.endJob_active, hview]
  rfl

omit [Zero R] in
theorem Counts.getRecordCount {calls : List (Call R)} (h : Counts lwm hwm scale d e calls)
    (hdistinct : (calls.map Call.record).Nodup) :
    d.getRecordCount = some (calls.length, d) := by
  have hstored := h.stored
  have hcount : e.vers.getRecordCount = (e.vers.shards.map T.recordCount).sum := by
    rw [ExtensionStructure.getRecordCount, ExtensionStructure.shards]
    induction e.vers.levels with
    | nil => rfl
    | cons l ls ih => simp [ih, InternalLevel.getRecordCount_eq]
  obtain ⟨xs, hxs⟩ : ∃ xs : List T.Shard, (xs : Multiset T.Shard) = e.vers.shards :=
    ⟨_, Multiset.coe_toList _⟩
  rw [← hxs, Multiset.map_coe, Multiset.sum_coe] at hstored hcount
  have hnet : De.net ((xs.map T.records).flatten ++ d.buffer.records) = netOf calls := by
    rw [net_append, ← h.tracks.net, ExtensionStructure.net_eq, ← hxs, net_flatten, List.map_map,
      Multiset.map_coe, Multiset.sum_coe]
    rfl
  have hle := length_le_of_net hdistinct hnet
  have hlen : (xs.map T.records).flatten.length = (xs.map T.recordCount).sum := by
    rw [List.length_flatten, List.map_map]
    exact congrArg List.sum (List.map_congr_left fun x _ => (T.recordCount_eq x).symm)
  rw [List.length_append, hlen, MutableBuffer.length_records] at hle
  rw [h.ready.idle.getRecordCount, hcount]
  congr 2
  omega

omit [Zero R] in
theorem Counts.flushed_pos {calls : List (Call R)} (h : Counts lwm hwm scale d e calls)
    (hdistinct : (calls.map Call.record).Nodup) (hpos : 0 < d.buffer.getRecordCount) :
    0 < T.recordCount (T.ofBuffer (e.view d.buffer)) := by
  obtain ⟨old, recent, rfl, -, hpay⟩ := h.tracks.split
  rw [T.recordCount_eq, List.length_pos_iff]
  intro hnil
  have hnet : De.net d.buffer.records = 0 := by
    rw [← h.tracks.serving.view_records, ← T.ofBuffer_net, hnil]
    rfl
  have hlen : recent.length = d.buffer.getRecordCount := by
    rw [← MutableBuffer.length_records, ← List.length_map Wrapped.payload, hpay, List.length_map]
  obtain ⟨c, hc⟩ := List.exists_mem_of_length_pos (hlen ▸ hpos)
  refine netOf_ne_zero ?_ hc (by rw [← net_payload hpay, hnet]; rfl)
  rw [List.map_append] at hdistinct
  exact hdistinct.of_append_right

theorem Counts.call (hT : T.Total) (hlwm : 0 < lwm) (hle : lwm ≤ hwm) (hscale : 0 < scale)
    {calls : List (Call R)} (h : Counts lwm hwm scale d e calls)
    (hdistinct : (calls.map Call.record).Nodup) (hfit : TailFits hwm calls.length)
    (hcap : CanFlush T L lwm hwm scale calls.length) (logging : Bool) (c : Call R) :
    ∃ d' e', d.call logging c = some (1, d') ∧ Counts lwm hwm scale d' e' (calls ++ [c]) := by
  have hslot : d.buffer.SlotOk := by
    rw [MutableBuffer.slotOk_iff, h.ready.tail, h.ready.cap_eq]
    exact hfit
  have hflush : d.buffer.lwm ≤ d.buffer.getRecordCount →
      e.vers.HasCapacity (e.view d.buffer).getRecordCount := fun hlow hL => by
    have hl := h.ready.lwm_eq
    have hcalls := h.ready.count_le_calls
    have hview : (e.view d.buffer).getRecordCount ≤ lwm := h.ready.view_count ▸ h.ready.count_le
    exact hview.trans
      ((h.ready.reachable.hasCapacity_iff lwm).mpr (hcap.resolve_right (by omega)) hL)
  have hround : d.buffer.lwm ≤ d.buffer.getRecordCount → 0 = 0 ∧
      ∃ s, e.vers.round hwm (e.view d.buffer) = some s ∧ s.Intact ∧
        Regroup T (e.vers.shards + {T.ofBuffer (e.view d.buffer)}) s.shards := fun hlow => by
    obtain ⟨s, hs, hint, hr, -⟩ := h.tracks.serving.intact.round_of_isSome h.tracks.serving.view_le
      (fun xs _ => hT xs) h.slot (hflush hlow)
    exact ⟨rfl, s, hs, hint, hr⟩
  obtain ⟨d', e', p, o, hd', hs', heff, hturn, hvers⟩ :=
    h.tracks.serving.internalAppend_of_round hlwm hle hslot hround c.record c.tombstone logging
  obtain ⟨rfl, rfl⟩ : p = 0 ∧ o = 0 := by
    rcases hturn with ⟨-, hp, ho, -⟩ | ⟨-, -, hp, ho, -⟩ <;> exact ⟨hp, ho⟩
  rw [← call_eq] at hd'
  obtain ⟨d₁, e₁, hd₁, hready, -⟩ := h.ready.call hT hlwm hle hscale hcap logging c
  obtain rfl : d₁ = d' := (Prod.mk.inj (Option.some.inj (hd₁.symm.trans hd'))).2
  obtain rfl : e₁ = e' := by
    have := hready.idle.current.symm.trans hs'.idle.current
    simpa using this
  refine ⟨d₁, e₁, hd', ⟨by simpa using hready, h.tracks.store hs' heff, ?_, ?_⟩⟩
  · rcases hvers with rfl | ⟨hpos, hround'⟩
    · exact h.slot
    · obtain ⟨s, hs, -, -, hfinds⟩ := h.tracks.serving.intact.round_of_isSome
        h.tracks.serving.view_le (fun xs _ => hT xs) h.slot
        ((h.ready.reachable.round_isSome_iff hT hscale h.tracks.serving.view_le).mp
          (Option.isSome_of_eq_some hround'))
      obtain rfl : s = e₁.vers := Option.some.inj (hs.symm.trans hround')
      exact hfinds (h.flushed_pos hdistinct hpos)
  · obtain ⟨pos, heff⟩ := heff
    have hstored := h.stored
    rw [List.length_append, List.length_singleton, ← MutableBuffer.length_records]
    rw [← MutableBuffer.length_records] at hstored
    rcases heff with ⟨rfl, hrec⟩ | ⟨-, hr, hrec⟩
    · rw [hrec, List.length_append, List.length_singleton]
      omega
    · have hcount := hr.count_le
      have hview := T.ofBuffer_count (e.view d.buffer)
      rw [h.tracks.serving.view_count, ← MutableBuffer.length_records] at hview
      rw [Multiset.map_add, Multiset.sum_add, Multiset.map_singleton,
        Multiset.sum_singleton] at hcount
      rw [hrec, List.length_singleton]
      omega

theorem Counts.run (hT : T.Total) (hlwm : 0 < lwm) (hle : lwm ≤ hwm) (hscale : 0 < scale)
    (logging : Bool) {hist calls : List (Call R)} (h : Counts lwm hwm scale d e hist)
    (hdistinct : ((hist ++ calls).map Call.record).Nodup)
    (hfit : ∀ i < hist.length + calls.length, TailFits hwm i)
    (hcap : (ExtensionStructure.new T L hwm scale).HasCapacity lwm ∨
      hist.length + calls.length ≤ lwm) :
    ∃ d' e', d.run logging calls = some d' ∧ Counts lwm hwm scale d' e' (hist ++ calls) := by
  induction calls generalizing d e hist with
  | nil => exact ⟨d, e, rfl, by simpa using h⟩
  | cons c calls ih =>
    rw [List.length_cons] at hfit hcap
    have hhist : (hist.map Call.record).Nodup := by
      rw [List.map_append] at hdistinct
      exact hdistinct.of_append_left
    obtain ⟨d₁, e₁, hcall, h₁⟩ :=
      h.call hT hlwm hle hscale hhist (hfit _ (by omega)) (hcap.imp id (by omega)) logging c
    have hlen : (hist ++ [c]).length = hist.length + 1 := by simp
    obtain ⟨d', e', hd', h'⟩ := ih h₁ (by simpa using hdistinct)
      (fun i hi => hfit i (by omega)) (hcap.imp id (by omega))
    exact ⟨d', e', by rw [run_cons hcall, hd'], by simpa using h'⟩

omit [Zero R] in
theorem findsSlot_new (T : ShardType R) (L : LayoutPolicy) (hwm : Nat) (hscale : 0 < scale) :
    (ExtensionStructure.new T L hwm scale).FindsSlot := by
  cases L with
  | bsm =>
    have hfree : ((ExtensionStructure.new T .bsm hwm scale).levelAt 0).free = scale :=
      InternalLevel.free_new 0 scale
    exact .inr (by omega)
  | leveling => trivial
  | teiring => trivial

theorem counts_new (T : ShardType R) (L : LayoutPolicy) (hlwm : 0 < lwm) (hle : lwm ≤ hwm)
    (hscale : 0 < scale) (hbsm : L = .bsm → scale = 2) {log : Option (List (WALEntry R))}
    (hlog : ∀ file, log = some file → file = []) :
    ∃ d e, new T L lwm hwm scale none log = some d ∧ Counts lwm hwm scale d e [] := by
  obtain ⟨d, e, hnew, htracks⟩ := tracks_new T L hlwm hle hscale hbsm hlog
  refine ⟨d, e, hnew, ?_⟩
  rw [new_eq T L hlwm hle hbsm hlog, Option.some.injEq] at hnew
  subst hnew
  obtain rfl : ⟨0, ExtensionStructure.new T L hwm scale, 0⟩ = e := by
    simpa using htracks.serving.idle.current
  refine ⟨⟨htracks.serving.idle, rfl, rfl, rfl, rfl, rfl, Nat.zero_le lwm, .new⟩, htracks,
    findsSlot_new T L hwm hscale, ?_⟩
  simp [ExtensionStructure.new, ExtensionStructure.shards, MutableBuffer.getRecordCount,
    MutableBuffer.empty]

/-- From an empty directory, every call returns 1 exactly if fewer than `2 ^ 32` calls are
made and level 0 has the capacity for a buffer at the low watermark, or there are too few
calls for a flush. The record count then is the number of calls, where each is about a
record of its own and each tail fits 32 bits. -/
theorem service_iff (hT : T.Total) (hlwm : 0 < lwm) (hle : lwm ≤ hwm) (hscale : 2 ≤ scale)
    (hbsm : L = .bsm → scale = 2) (log : Option (List (WALEntry R)))
    (hlog : ∀ file, log = some file → file = []) :
    ∃ d, new T L lwm hwm scale none log = some d ∧
      ∀ (logging : Bool) (calls : List (Call R)),
        (Serves lwm logging d calls ↔ calls.length < 2 ^ 32 ∧
          ((ExtensionStructure.new T L hwm scale).HasCapacity lwm ∨ calls.length ≤ lwm)) ∧
        ((calls.map Call.record).Nodup → (∀ i < calls.length, TailFits hwm i) →
          ((ExtensionStructure.new T L hwm scale).HasCapacity lwm ∨ calls.length ≤ lwm) →
          ∃ d', d.run logging calls = some d' ∧ d'.getRecordCount = some (calls.length, d')) := by
  have hpos : 0 < scale := by omega
  obtain ⟨d, e, hnew, h⟩ := counts_new T L hlwm hle hpos hbsm hlog
  refine ⟨d, hnew, fun logging calls => ⟨?_, fun hdistinct hfit hcap => ?_⟩⟩
  · have hcount : d.buffer.getRecordCount = 0 := Nat.le_zero.mp h.ready.count_le_calls
    simpa using h.ready.serves_length hT hlwm hle hpos (by simp) (.inr hcount) logging calls
  · have hdistinct' : (([] ++ calls).map Call.record).Nodup := by simpa using hdistinct
    obtain ⟨d', e', hd', h'⟩ :=
      h.run hT hlwm hle hpos logging hdistinct' (by simpa using hfit) (by simpa using hcap)
    exact ⟨d', hd', h'.getRecordCount hdistinct⟩

end Service

/-- Two inserts and an erase that take effect, with a flush at every call but the first -/
theorem service_sample :
    ∃ d, new (ShardType.lists Nat) .bsm 1 1 2 none none = some d ∧
      Serves 1 false d [.insert 5, .erase 3, .insert 4] ∧
      ∃ d', d.run false [.insert 5, .erase 3, .insert 4] = some d' ∧
        d'.getRecordCount = some (3, d') := by
  obtain ⟨d, hnew, h⟩ := service_iff (ShardType.total_lists Nat) (L := .bsm) (by decide : 0 < 1)
    le_rfl le_rfl (fun _ => rfl) none (by simp)
  obtain ⟨hserves, hcount⟩ := h false [.insert 5, .erase 3, .insert 4]
  exact ⟨d, hnew, hserves.mpr ⟨by decide, .inl (by decide)⟩,
    hcount (by decide) (fun i hi => tailFits_of_lt (hi.trans (by decide))) (.inl (by decide))⟩

/-- The insert whose tail is `2 ^ 32 - 1` reports a full buffer. -/
theorem not_service :
    ¬ ∀ d, new (ShardType.lists Nat) .leveling 1 1 2 none none = some d →
      ∀ calls : List (Call Nat), Serves 1 false d calls := by
  intro hall
  obtain ⟨d, e, hnew, h⟩ := counts_new (ShardType.lists Nat) .leveling (by decide : 0 < 1) le_rfl
    (by decide : 0 < 2) (by simp) fun file (hfile : none = some file) => by simp at hfile
  have hserves := hall d hnew (List.replicate (2 ^ 32) (.insert 7))
  rw [h.ready.serves_length (ShardType.total_lists Nat) (by decide) le_rfl (by decide) (by simp)
    (.inl (by decide)), List.length_replicate] at hserves
  exact absurd hserves.1 (by simp)

end DynamicExtension

end De
