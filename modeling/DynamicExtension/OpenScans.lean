import DynamicExtension.RangeScan
import DynamicExtension.Library.StepRun
set_option autoImplicit false

namespace De
open StepRun DynamicExtension
variable {K V : Type} [LinearOrder K] [LinearOrder V] [Zero K] [Zero V]
variable {lay : NodeLayout} {std : StdLib (Record K V)} {L : LayoutPolicy} {P α : Type}

/-- An iterator in the hands of the caller: its range, the calls made before it was
opened, and what it has returned so far -/
structure OpenScan (lay : NodeLayout) (std : StdLib (Record K V)) (L : LayoutPolicy) where
  scan : Scan lay std L
  start : Record K V
  finish : Record K V
  opened : List (Call (Record K V))
  returned : List (Record K V)

/-- A single thread on the framework, with its open iterators -/
structure Session (lay : NodeLayout) (std : StdLib (Record K V)) (L : LayoutPolicy) where
  ext : DynamicExtension (ISAMTree.shardType lay std) L
  scans : List (OpenScan lay std L)
  calls : List (Call (Record K V))

/-- What the thread does next; open iterators are counted in the order in which they
were opened. -/
inductive Session.Op (K V P : Type) where
  | call (c : Call (Record K V)) (logging : Bool)
  | query (parms : P)
  | rangeScan (start finish : Record K V)
  | next (i : Nat)
  | close (i : Nat)
  deriving Repr

namespace Session

/-- One operation; `answer` is what the query class computes. An operation on an
iterator that is not open, or is at its end, does nothing. -/
def step (answer : P → BufferView (Record K V) → List (ISAMTree.shardType lay std).Shard → α)
    (s : Session lay std L) : Op K V P → Option (Session lay std L)
  | .call c logging => do
    let (_, ext) ← s.ext.call logging c
    return { s with ext := ext, calls := s.calls ++ [c] }
  | .query parms => do
    let (_, ext) ← s.ext.asyncQuery fun view shards => some (answer parms view shards)
    return { s with ext := ext }
  | .rangeScan start finish => do
    let (scan, ext) ← s.ext.rangeScan start finish
    return { s with ext := ext, scans := s.scans ++ [⟨scan, start, finish, s.calls, []⟩] }
  | .next i =>
    match s.scans[i]? with
    | none => some s
    | some o =>
      if o.scan.iter.hasNext then do
        let (r, iter) ← o.scan.iter.next lay
        let o := { o with scan := ⟨o.scan.epoch, iter⟩, returned := o.returned ++ [r] }
        return { s with scans := s.scans.set i o }
      else
        some s
  | .close i =>
    match s.scans[i]? with
    | none => some s
    | some o => do
      let ext ← s.ext.closeScan o.scan
      return { s with ext := ext, scans := s.scans.eraseIdx i }

/-- A call is in order, pins apart. -/
def CallOk (s : Session lay std L) : Op K V P → Prop
  | .call _ _ => s.ext.CallOk
  | _ => True

/-- A call that flushes finds no open iterator on the previous epoch. -/
def Unpinned (s : Session lay std L) : Op K V P → Prop
  | .call _ _ => s.ext.buffer.isAtLowWatermark →
      ∀ o ∈ s.scans, s.ext.previousEpoch.epoch.map Epoch.number ≠ some o.scan.epoch.number
  | _ => True

instance (s : Session lay std L) : ∀ op : Op K V P, Decidable (s.CallOk op)
  | .call _ _ => inferInstanceAs (Decidable s.ext.CallOk)
  | .query _ | .rangeScan _ _ | .next _ | .close _ => isTrue trivial

instance (s : Session lay std L) : ∀ op : Op K V P, Decidable (s.Unpinned op)
  | .call _ _ => inferInstanceAs (Decidable (_ → ∀ o ∈ s.scans, _))
  | .query _ | .rangeScan _ _ | .next _ | .close _ => isTrue trivial

end Session

/-- `out` lists the records in the iterator's range that were live when it was opened. -/
structure OpenScan.LiveAtOpening (o : OpenScan lay std L) (out : List (Record K V)) : Prop where
  sorted : out.Pairwise (· ≤ ·)
  count : ∀ r, out.count r = if o.start.key ≤ r.key ∧ r.key ≤ o.finish.key then
    o.opened.count (.insert r) - o.opened.count (.erase r) else 0

/-- What the iterator has returned and will return is what was live. -/
def OpenScan.Exact (o : OpenScan lay std L) : Prop :=
  ∃ rest, o.scan.iter.drain lay (rest.length + 1) = some rest ∧
    o.LiveAtOpening (o.returned ++ rest)

namespace Session

/-- The epoch that the iterator reads is one that the framework still has. -/
def Holds (s : Session lay std L) (o : OpenScan lay std L) : Prop :=
  s.ext.currentEpoch.epoch = some o.scan.epoch ∨ s.ext.previousEpoch.epoch = some o.scan.epoch

/-- No operation of the run fails, and after each the open iterators are exact. -/
def Serves (answer : P → BufferView (Record K V) → List (ISAMTree.shardType lay std).Shard → α)
    (s : Session lay std L) (ops : List (Op K V P)) : Prop :=
  ∀ pre post, ops = pre ++ post →
    ∃ s', run (step answer) s pre = some s' ∧ ∀ o ∈ s'.scans, s'.Holds o ∧ o.Exact

/-- How many open iterators are on the epoch with this number -/
def pinning (s : Session lay std L) (number : Option Nat) : Nat :=
  (s.scans.map fun o => some o.scan.epoch.number).count number

/-- Between two operations: the pins on the two epochs are those of the open
iterators, and each of these has the rest of its records still to return. -/
structure Inv (lwm hwm : Nat) (s : Session lay std L)
    (e : Epoch (ISAMTree.shardType lay std) L) : Prop where
  tracks : Tracks lwm hwm s.ext e (s.pinning (some e.number))
    (s.pinning (s.ext.previousEpoch.epoch.map Epoch.number)) s.calls
  holds : ∀ o ∈ s.scans, s.Holds o
  exact : ∀ o ∈ s.scans, ∃ rest, o.scan.Returns rest ∧ o.LiveAtOpening (o.returned ++ rest)

section Step
variable {lwm hwm : Nat} {s : Session lay std L} {e : Epoch (ISAMTree.shardType lay std) L}

omit [Zero K] [Zero V] in
theorem pinning_eq_zero {number : Option Nat}
    (h : ∀ o ∈ s.scans, number ≠ some o.scan.epoch.number) : s.pinning number = 0 := by
  refine List.count_eq_zero.mpr fun hmem => ?_
  obtain ⟨o, ho, hn⟩ := List.mem_map.mp hmem
  exact h o ho hn.symm

omit [Zero K] [Zero V] in
theorem pinning_pos {o : OpenScan lay std L} (ho : o ∈ s.scans) :
    0 < s.pinning (some o.scan.epoch.number) :=
  List.count_pos_iff.mpr (List.mem_map_of_mem ho)

omit [Zero K] [Zero V] in
theorem pinning_erase {i : Nat} {o : OpenScan lay std L} (hi : s.scans[i]? = some o)
    (ext : DynamicExtension (ISAMTree.shardType lay std) L) (number : Option Nat) :
    s.pinning number = pinning { s with ext := ext, scans := s.scans.eraseIdx i } number +
      if some o.scan.epoch.number = number then 1 else 0 := by
  obtain ⟨hlt, rfl⟩ := List.getElem?_eq_some_iff.mp hi
  have hperm := (List.getElem_cons_eraseIdx_perm hlt).map fun o => some o.scan.epoch.number
  rw [pinning, ← hperm.count_eq, List.map_cons, List.count_cons]
  simp only [pinning, beq_iff_eq]

omit [Zero K] [Zero V] in
theorem tracks_pin {d : DynamicExtension (ISAMTree.shardType lay std) L} {pins oldPins : Nat}
    {calls : List (Call (Record K V))} (h : Tracks lwm hwm d e pins oldPins calls) (n : Nat) :
    Tracks lwm hwm { d with currentEpoch := ⟨some e, n⟩ } e n oldPins calls :=
  ⟨⟨⟨h.serving.idle.next, rfl, h.serving.idle.previous, h.serving.idle.number,
    h.serving.idle.number_le, h.serving.idle.head, h.serving.idle.oldHead, h.serving.idle.apart,
    h.serving.idle.formed⟩, h.serving.scheduled, h.serving.lwm_eq, h.serving.hwm_eq,
    h.serving.intact⟩, h.split, h.bufferLive, h.shardsLive⟩

omit [Zero K] [Zero V] in
theorem tracks_pinPrevious {d : DynamicExtension (ISAMTree.shardType lay std) L}
    {p : Epoch (ISAMTree.shardType lay std) L} {pins oldPins : Nat}
    {calls : List (Call (Record K V))} (h : Tracks lwm hwm d e pins oldPins calls)
    (hp : d.previousEpoch.epoch = some p) (n : Nat) :
    Tracks lwm hwm { d with previousEpoch := ⟨some p, n⟩ } e pins n calls :=
  ⟨⟨⟨h.serving.idle.next, h.serving.idle.current, rfl,
    fun q hq => h.serving.idle.number q (hp.trans hq), h.serving.idle.number_le,
    h.serving.idle.head, h.serving.idle.oldHead, h.serving.idle.apart, h.serving.idle.formed⟩,
    h.serving.scheduled, h.serving.lwm_eq, h.serving.hwm_eq, h.serving.intact⟩, h.split,
    h.bufferLive, h.shardsLive⟩

variable (answer : P → BufferView (Record K V) → List (ISAMTree.shardType lay std).Shard → α)

theorem Inv.call (hlwm : 1 ≤ lwm) (hle : lwm ≤ hwm) (h : Inv lwm hwm s e)
    (c : Call (Record K V)) (logging : Bool) (hok : s.ext.CallOk)
    (hun : s.ext.buffer.isAtLowWatermark →
      ∀ o ∈ s.scans, s.ext.previousEpoch.epoch.map Epoch.number ≠ some o.scan.epoch.number) :
    ∃ s' e', s.step answer (.call c logging) = some s' ∧ Inv lwm hwm s' e' := by
  obtain ⟨ext, e', pins, oldPins, hcall, ht, hturn⟩ :=
    h.tracks.call (ISAMTree.mergesRecords lay std) hlwm hle hok
      (fun hat => pinning_eq_zero (hun hat)) logging c
  refine ⟨{ s with ext := ext, calls := s.calls ++ [c] }, e', by simp [step, hcall], ?_⟩
  rcases hturn with ⟨rfl, rfl, rfl, hprev⟩ | ⟨hold, hlt, rfl, rfl, hprev⟩
  · refine ⟨?_, fun o ho => ?_, h.exact⟩
    · simp only [hprev]
      exact ht
    · rcases h.holds o ho with hc | hp
      · refine .inl ?_
        rw [h.tracks.serving.idle.current] at hc
        simpa [ht.serving.idle.current] using hc
      · exact .inr (by simpa only [hprev] using hp)
  · have hactive : ∀ o ∈ s.scans, o.scan.epoch = e := by
      intro o ho
      rcases h.holds o ho with hc | hp
      · rw [h.tracks.serving.idle.current] at hc
        exact (Option.some.inj hc).symm
      · have hpos := pinning_pos ho
        rw [hp, Option.map_some] at hold
        omega
    have hfresh : s.pinning (some e'.number) = 0 := pinning_eq_zero fun o ho hn => by
      rw [hactive o ho, Option.some.injEq] at hn
      omega
    refine ⟨?_, fun o ho => .inr (by rw [hactive o ho, hprev]), h.exact⟩
    simp only [hprev, Option.map_some]
    change Tracks lwm hwm ext e' (s.pinning (some e'.number)) (s.pinning (some e.number)) _
    rwa [hfresh]

theorem Inv.rangeScan (h : Inv lwm hwm s e) (start finish : Record K V) :
    ∃ s', s.step answer (.rangeScan start finish) = some s' ∧ Inv lwm hwm s' e := by
  obtain ⟨scan, out, hscan, rfl, hret, hof⟩ := h.tracks.serving.idle.rangeScan start finish
  refine ⟨_, by rw [step, hscan]; rfl, ?_, fun o ho => ?_, fun o ho => ?_⟩
  · have hcur : pinning { s with
          ext := { s.ext with
            currentEpoch := ⟨some scan.epoch, s.pinning (some scan.epoch.number) + 1⟩ }
          scans := s.scans ++ [⟨scan, start, finish, s.calls, []⟩] } (some scan.epoch.number) =
        s.pinning (some scan.epoch.number) + 1 := by simp [pinning]
    have hprev : pinning { s with
          ext := { s.ext with
            currentEpoch := ⟨some scan.epoch, s.pinning (some scan.epoch.number) + 1⟩ }
          scans := s.scans ++ [⟨scan, start, finish, s.calls, []⟩] }
            (s.ext.previousEpoch.epoch.map Epoch.number) =
        s.pinning (s.ext.previousEpoch.epoch.map Epoch.number) := by
      have hne := h.tracks.serving.idle.previous_ne
      simp [pinning, Ne.symm hne]
    rw [hcur, hprev]
    exact tracks_pin h.tracks _
  · rcases List.mem_append.mp ho with ho | ho
    · refine (h.holds o ho).imp (fun hc => ?_) id
      rwa [h.tracks.serving.idle.current] at hc
    · rw [List.mem_singleton.mp ho]
      exact .inl rfl
  · rcases List.mem_append.mp ho with ho | ho
    · exact h.exact o ho
    · rw [List.mem_singleton.mp ho]
      refine ⟨out, hret, hof.sorted, fun r => ?_⟩
      rw [List.nil_append, hof.count, h.tracks.visible_copies, netOf_eq_count, Int.toNat_sub]

theorem Inv.next (h : Inv lwm hwm s e) (i : Nat) :
    ∃ s', s.step answer (.next i) = some s' ∧ Inv lwm hwm s' e := by
  cases hi : s.scans[i]? with
  | none => exact ⟨s, by simp [step, hi], h⟩
  | some o =>
    obtain ⟨hlt, hget⟩ := List.getElem?_eq_some_iff.mp hi
    have ho : o ∈ s.scans := List.mem_of_getElem? hi
    cases hn : o.scan.iter.hasNext with
    | false => exact ⟨s, by simp [step, hi, hn], h⟩
    | true =>
      obtain ⟨rest, hret, hlive⟩ := h.exact o ho
      obtain ⟨r, iter, rest', hnext, rfl, hret'⟩ := hret.next hn
      set o' : OpenScan lay std L :=
        { o with scan := ⟨o.scan.epoch, iter⟩, returned := o.returned ++ [r] } with ho'
      refine ⟨{ s with scans := s.scans.set i o' }, by simp [step, hi, hn, hnext, ho'], ?_,
        fun q hq => ?_, fun q hq => ?_⟩
      · have hmap : (s.scans.set i o').map (fun o => some o.scan.epoch.number) =
            s.scans.map fun o => some o.scan.epoch.number := by
          rw [List.map_set, ho', ← hget]
          exact List.ext_getElem (by simp) fun j _ _ => by
            by_cases hj : i = j
            · subst hj
              simp
            · simp [hj]
        simp only [pinning, hmap]
        exact h.tracks
      · rcases List.mem_or_eq_of_mem_set hq with hq | rfl
        · exact h.holds q hq
        · exact h.holds o ho
      · rcases List.mem_or_eq_of_mem_set hq with hq | rfl
        · exact h.exact q hq
        · refine ⟨rest', hret', ?_, ?_⟩
          · simpa [ho'] using hlive.sorted
          · simpa [ho'] using hlive.count

theorem Inv.close (h : Inv lwm hwm s e) (i : Nat) :
    ∃ s', s.step answer (.close i) = some s' ∧ Inv lwm hwm s' e := by
  cases hi : s.scans[i]? with
  | none => exact ⟨s, by simp [step, hi], h⟩
  | some o =>
    have ho : o ∈ s.scans := List.mem_of_getElem? hi
    have hexact : ∀ q ∈ s.scans.eraseIdx i, ∃ rest, q.scan.Returns rest ∧
        q.LiveAtOpening (q.returned ++ rest) :=
      fun q hq => h.exact q (List.mem_of_mem_eraseIdx hq)
    have hidle := h.tracks.serving.idle
    have hne := hidle.previous_ne
    set rest : Session lay std L := { s with scans := s.scans.eraseIdx i } with hrest
    have herase := pinning_erase hi s.ext
    rcases h.holds o ho with hc | hp
    · obtain rfl : e = o.scan.epoch := Option.some.inj (by rw [← hc, hidle.current])
      have hpins : s.pinning (some o.scan.epoch.number) =
          rest.pinning (some o.scan.epoch.number) + 1 := by
        simpa using herase (some o.scan.epoch.number)
      have hold : s.pinning (s.ext.previousEpoch.epoch.map Epoch.number) =
          rest.pinning (s.ext.previousEpoch.epoch.map Epoch.number) := by
        simpa [Ne.symm hne] using herase (s.ext.previousEpoch.epoch.map Epoch.number)
      have hend := hidle.endJob (x := s.ext) rfl (by rw [hidle.current, hpins])
      refine ⟨_, by simp only [step, hi, closeScan, hend]; rfl, ?_, fun q hq => ?_, hexact⟩
      · change Tracks lwm hwm _ _ (rest.pinning _) (rest.pinning _) s.calls
        rw [← hold]
        exact tracks_pin h.tracks _
      · refine (h.holds q (List.mem_of_mem_eraseIdx hq)).imp (fun hq => ?_) id
        rwa [hidle.current] at hq
    · have hnum : s.ext.previousEpoch.epoch.map Epoch.number = some o.scan.epoch.number := by
        rw [hp, Option.map_some]
      have hpins : s.pinning (some e.number) = rest.pinning (some e.number) := by
        simpa [← hnum, hne] using herase (some e.number)
      have hold : s.ext.previousEpoch =
          ⟨some o.scan.epoch, rest.pinning (some o.scan.epoch.number) + 1⟩ := by
        have hcount := herase (some o.scan.epoch.number)
        rw [if_pos rfl, ← hnum, ← hidle.previous, hnum] at hcount
        rw [← hp]
        exact congrArg (EpochPtr.mk _) hcount
      have hend := endJob_previous hold
      refine ⟨_, by simp only [step, hi, closeScan, hend]; rfl, ?_, fun q hq => ?_, hexact⟩
      · change Tracks lwm hwm _ _ (rest.pinning _) (rest.pinning _) s.calls
        rw [← hpins]
        exact tracks_pinPrevious h.tracks hp _
      · refine (h.holds q (List.mem_of_mem_eraseIdx hq)).imp id (fun hq => ?_)
        rwa [hp] at hq

theorem Inv.step (hlwm : 1 ≤ lwm) (hle : lwm ≤ hwm) (h : Inv lwm hwm s e) (op : Op K V P)
    (hok : s.CallOk op) (hun : s.Unpinned op) :
    ∃ s' e', s.step answer op = some s' ∧ Inv lwm hwm s' e' := by
  cases op with
  | call c logging => exact h.call answer hlwm hle c logging hok hun
  | query parms =>
    refine ⟨s, e, ?_, h⟩
    rw [Session.step, h.tracks.serving.idle.asyncQuery]
    rfl
  | rangeScan start finish =>
    obtain ⟨s', hs', h'⟩ := h.rangeScan answer start finish
    exact ⟨s', e, hs', h'⟩
  | next i =>
    obtain ⟨s', hs', h'⟩ := h.next answer i
    exact ⟨s', e, hs', h'⟩
  | close i =>
    obtain ⟨s', hs', h'⟩ := h.close answer i
    exact ⟨s', e, hs', h'⟩

theorem Inv.unpinned (h : Inv lwm hwm s e) {op : Op K V P} {s' : Session lay std L}
    (hs' : s.step answer op = some s') : s.Unpinned op := by
  cases op with
  | call c logging =>
    intro hat o ho hnum
    obtain ⟨p, hp, -⟩ := Option.map_eq_some_iff.mp hnum
    have hpos := pinning_pos ho
    rw [← hnum] at hpos
    have hfail := h.tracks.serving.idle.internalAppend_held h.tracks.serving.scheduled hat
      (by rw [hp]; rfl) hpos c.record c.tombstone logging
    simp [Session.step, DynamicExtension.call_eq, hfail] at hs'
  | query parms => trivial
  | rangeScan start finish => trivial
  | next i => trivial
  | close i => trivial

theorem Inv.exactNow (h : Inv lwm hwm s e) : ∀ o ∈ s.scans, s.Holds o ∧ o.Exact := by
  intro o ho
  obtain ⟨rest, hret, hlive⟩ := h.exact o ho
  exact ⟨h.holds o ho, rest, hret.drain, hlive⟩

end Step

/-- A single thread that has just started the framework -/
def opened (ext : DynamicExtension (ISAMTree.shardType lay std) L) : Session lay std L :=
  ⟨ext, [], []⟩

omit [Zero K] [Zero V] in
theorem inv_opened {lwm hwm : Nat} {ext : DynamicExtension (ISAMTree.shardType lay std) L}
    {e : Epoch (ISAMTree.shardType lay std) L} (h : Tracks lwm hwm ext e 0 0 []) :
    Inv lwm hwm (opened ext) e :=
  ⟨h, by simp [opened], by simp [opened]⟩

/-- Calls that are in order are served, with their iterators exact, if and only if
no call flushes while an iterator is open on the epoch before the active one. -/
theorem serves_iff (lay : NodeLayout) (std : StdLib (Record K V)) (L : LayoutPolicy)
    {lwm hwm scale : Nat} (hlwm : 1 ≤ lwm) (hle : lwm ≤ hwm) (hscale : 2 ≤ scale)
    (hbsm : L = .bsm → scale = 2) {log : Option (List (WALEntry (Record K V)))}
    (hlog : ∀ file, log = some file → file = [])
    (answer : P → BufferView (Record K V) → List (ISAMTree.shardType lay std).Shard → α) :
    ∃ d, DynamicExtension.new (ISAMTree.shardType lay std) L lwm hwm scale none log = some d ∧
      ∀ ops : List (Op K V P), Always (step answer) CallOk (opened d) ops →
        (Serves answer (opened d) ops ↔ Always (step answer) Unpinned (opened d) ops) := by
  obtain ⟨d, e, hnew, h₀⟩ := tracks_new (ISAMTree.shardType lay std) L hlwm hle
    (by omega : 0 < scale) hbsm hlog
  have hstart : ∃ e, Inv lwm hwm (opened d) e := ⟨e, inv_opened h₀⟩
  refine ⟨d, hnew, fun ops hops => ⟨fun hserves => ?_, fun hun pre post hsplit => ?_⟩⟩
  · obtain ⟨s', hrun, -⟩ := hserves ops [] (by simp)
    have hstep : ∀ (s : Session lay std L) (op : Op K V P) s', (∃ e, Inv lwm hwm s e) →
        CallOk s op → s.step answer op = some s' → Unpinned s op ∧ ∃ e, Inv lwm hwm s' e := by
      rintro s op s' ⟨e, h⟩ hok hs'
      have hun := h.unpinned answer hs'
      obtain ⟨s₁, e₁, hs₁, h₁⟩ := h.step answer hlwm hle op hok hun
      obtain rfl : s₁ = s' := Option.some.inj (hs₁.symm.trans hs')
      exact ⟨hun, e₁, h₁⟩
    exact always_of_run hstep hstart hops hrun
  · subst hsplit
    have hstep : ∀ (s : Session lay std L) (op : Op K V P), (∃ e, Inv lwm hwm s e) →
        CallOk s op ∧ Unpinned s op →
        ∃ s', s.step answer op = some s' ∧ ∃ e, Inv lwm hwm s' e := by
      rintro s op ⟨e, h⟩ ⟨hok, hun⟩
      obtain ⟨s', e', hs', h'⟩ := h.step answer hlwm hle op hok hun
      exact ⟨s', hs', e', h'⟩
    obtain ⟨s', hrun, e', h'⟩ := run_invariant hstep hstart (hops.take.and hun.take)
    exact ⟨s', hrun, h'.exactNow⟩

/-- An iterator that is closed before the second flush after it was opened -/
theorem serves_iff_sample :
    let ops : List (Op Nat Nat Unit) := [.call (.insert ⟨1, 5⟩) false,
      .rangeScan ⟨0, 0⟩ ⟨9, 0⟩, .call (.insert ⟨2, 6⟩) false, .next 0, .query (), .close 0,
      .call (.erase ⟨1, 5⟩) false]
    ∃ d, DynamicExtension.new (ISAMTree.shardType NodeLayout.words (StdLib.sorted (Record Nat Nat)))
        .teiring 1 1 2 none none = some d ∧ Serves (fun _ _ _ => ()) (opened d) ops := by
  intro ops
  obtain ⟨d, hnew, hall⟩ := serves_iff NodeLayout.words (StdLib.sorted (Record Nat Nat)) .teiring
    (le_refl 1) (le_refl 1) (le_refl 2) (by decide)
    (show ∀ file, none = some file → file = [] by simp)
    (fun (_ : Unit) _ _ => ())
  have hok : ∀ d ∈ DynamicExtension.new (ISAMTree.shardType NodeLayout.words
      (StdLib.sorted (Record Nat Nat))) .teiring 1 1 2 none none,
      Always (step fun _ _ _ => ()) CallOk (opened d) ops ∧
      Always (step fun _ _ _ => ()) Unpinned (opened d) ops := by decide +kernel
  exact ⟨d, hnew, (hall ops (hok d hnew).1).mpr (hok d hnew).2⟩

/-- The second flush after an iterator was opened has to retire the epoch of the
iterator, and the assertion that nobody holds it fails. -/
theorem not_serves :
    let ops : List (Op Nat Nat Unit) := [.rangeScan ⟨0, 0⟩ ⟨9, 0⟩, .call (.insert ⟨1, 5⟩) false,
      .call (.insert ⟨2, 6⟩) false]
    let last : Op Nat Nat Unit := .call (.insert ⟨3, 7⟩) false
    ∃ d, DynamicExtension.new (ISAMTree.shardType NodeLayout.words (StdLib.sorted (Record Nat Nat)))
        .teiring 1 1 2 none none = some d ∧
      Always (step fun _ _ _ => ()) CallOk (opened d) (ops ++ [last]) ∧
      ¬ Serves (fun _ _ _ => ()) (opened d) (ops ++ [last]) ∧
      ∃ s, run (step fun _ _ _ => ()) (opened d) ops = some s ∧ s.ext.retireEpoch.isNone := by
  intro ops last
  have hrun : (DynamicExtension.new (ISAMTree.shardType NodeLayout.words
      (StdLib.sorted (Record Nat Nat))) .teiring 1 1 2 none none).map (fun d =>
        (decide (Always (step fun _ _ _ => ()) CallOk (opened d) (ops ++ [last])),
          (run (step fun _ _ _ => ()) (opened d) (ops ++ [last])).isNone,
          (run (step fun _ _ _ => ()) (opened d) ops).map fun s => s.ext.retireEpoch.isNone)) =
      some (true, true, some true) := by decide +kernel
  obtain ⟨d, hnew, hd⟩ := Option.map_eq_some_iff.mp hrun
  simp only [Prod.mk.injEq, decide_eq_true_eq, Option.isNone_iff_eq_none] at hd
  obtain ⟨hok, hnone, hs⟩ := hd
  obtain ⟨s, hs, hretire⟩ := Option.map_eq_some_iff.mp hs
  refine ⟨d, hnew, hok, fun hserves => ?_, s, hs, hretire⟩
  obtain ⟨s', hs', -⟩ := hserves (ops ++ [last]) [] (List.append_nil _).symm
  rw [hnone] at hs'
  cases hs'

end Session

end De
