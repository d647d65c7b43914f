import DynamicExtension.PageFile
set_option autoImplicit false

namespace De

/-- What is left of a sorted list when each record that meets an opposite one
of the same record next to it is dropped together with it. -/
def cancelPairs {R : Type} [DecidableEq R] : List (Wrapped R) → List (Wrapped R)
  | [] => []
  | [a] => [a]
  | a :: b :: l =>
    if b.record = a.record ∧ b.isTombstone ≠ a.isTombstone then cancelPairs l
    else a :: cancelPairs (b :: l)

section CancelPairs
variable {R : Type} [DecidableEq R]

theorem net_cancelPairs (l : List (Wrapped R)) : net (cancelPairs l) = net l := by
  fun_induction cancelPairs l with
  | case1 => rfl
  | case2 a => rfl
  | case3 a b l h ih =>
    rw [ih, net_cons, net_cons, ← add_assoc, unit_add_unit h.1 h.2, zero_add]
  | case4 a b l h ih => rw [net_cons, net_cons, ih]

theorem cancelPairs_sublist (l : List (Wrapped R)) : (cancelPairs l).Sublist l := by
  fun_induction cancelPairs l with
  | case1 => exact List.Sublist.refl _
  | case2 a => exact List.Sublist.refl _
  | case3 a b l h ih => exact (ih.cons b).cons a
  | case4 a b l h ih => exact ih.cons_cons a

theorem cancelPairs_of_live (l : List (Wrapped R)) (h : ∀ w ∈ l, w.isTombstone = false) :
    cancelPairs l = l := by
  fun_induction cancelPairs l with
  | case1 => rfl
  | case2 a => rfl
  | case3 a b l hc ih =>
    have ha := h a (by simp)
    have hb := h b (by simp)
    exact absurd (hb.trans ha.symm) hc.2
  | case4 a b l hc ih => rw [ih fun w hw => h w (by simp [hw])]

end CancelPairs

variable {K V : Type} [LinearOrder K] [LinearOrder V]

/-- The entries of `run_fds`, `buffers`, `insert_cnt` and `remaining` for one run. -/
structure Run (K V : Type) where
  fd : File K V
  buffer : Option (List (Wrapped (Record K V)))
  insertCnt : Nat
  remaining : Nat

structure MergeState (std : StdLib (Record K V)) where
  runs : List (Run K V)
  heap : std.queue.Queue
  isam : File K V
  page : List (Wrapped (Record K V))
  currPage : Nat
  cancelled : Nat

section Merge
variable (lay : NodeLayout)

/-- Take the next record of a run, reading its next page when the buffered one
is used up. A slot the run never wrote has no defined content. The counter
`remaining` is a `size_t`, but it is 0 here only for a run without a record,
whose first page does not exist. -/
def Run.fetch (shards : Bool) (run : Run K V) : Option (Wrapped (Record K V) × Run K V) :=
  let buffer :=
    if run.insertCnt % lay.leafFanout = 0 then
      run.fd.readRecords (run.insertCnt / lay.leafFanout + if shards then 1 else 0) run.buffer
    else run.buffer
  match buffer with
  | none => none
  | some recs =>
    match recs[run.insertCnt % lay.leafFanout]? with
    | none => none
    | some w => some (w, { run with
        buffer := some recs, insertCnt := run.insertCnt + 1, remaining := run.remaining - 1 })

variable (std : StdLib (Record K V))

/-- Push the next record of run `i`. -/
def MergeState.pushNext (shards : Bool) (i : Nat) (st : MergeState std) :
    Option (MergeState std) :=
  match st.runs[i]? with
  | none => none
  | some run =>
    match run.fetch lay shards with
    | none => none
    | some (w, run') => some { st with
        runs := st.runs.set i run', heap := std.queue.push ⟨w, i⟩ st.heap }

/-- Push the next record of run `i` if it has one. -/
def MergeState.refill (shards : Bool) (i : Nat) (st : MergeState std) :
    Option (MergeState std) :=
  match st.runs[i]? with
  | none => none
  | some run => if 0 < run.remaining then st.pushNext lay std shards i else some st

/-- Place a record on the output page, writing the page out first if it is full. -/
def MergeState.emit (w : Wrapped (Record K V)) (st : MergeState std) : MergeState std :=
  if st.page.length = lay.leafFanout then
    { st with
      isam := st.isam.pwrite st.currPage (.data st.page)
      page := [w]
      currPage := st.currPage + 1 }
  else { st with page := st.page ++ [w] }

/-- The loop `while (!heap.empty())`. -/
def mergeLoop (shards : Bool) : Nat → MergeState std → Option (MergeState std)
  | 0, _ => none
  | fuel+1, st =>
    match std.queue.top st.heap with
    | none => some st
    | some min =>
      match MergeState.refill lay std shards min.source
          { st with heap := std.queue.pop st.heap } with
      | none => none
      | some st =>
        match std.queue.top st.heap with
        | none => mergeLoop shards fuel (st.emit lay std min.item)
        | some other =>
          if other.item.record = min.item.record ∧
              other.item.isTombstone ≠ min.item.isTombstone then
            match MergeState.refill lay std shards other.source
                { st with heap := std.queue.pop st.heap } with
            | none => none
            | some st => mergeLoop shards fuel { st with cancelled := st.cancelled + 1 }
          else mergeLoop shards fuel (st.emit lay std min.item)

def mergeInit (shards : Bool) (runs : List (File K V × Nat)) (isam : File K V) :
    Option (MergeState std) :=
  (List.range runs.length).foldlM (fun st i => st.pushNext lay std shards i)
    { runs := runs.map fun r => ⟨r.1, none, 0, r.2⟩
      heap := std.queue.empty
      isam := isam
      page := []
      currPage := 1
      cancelled := 0 }

/-- The last page is written if there is something on it. -/
def MergeState.finish (st : MergeState std) : MergeState std :=
  if 0 < st.page.length then
    { st with isam := st.isam.pwrite st.currPage (.data st.page) }
  else st

/-- `external_merge_sort` of the runs, each with its record count. -/
def externalMergeSort (shards : Bool) (runs : List (File K V × Nat)) (isam : File K V) :
    Option (MergeState std) := do
  let st ← mergeInit lay std shards runs isam
  let st ← mergeLoop lay std shards ((runs.map Prod.snd).sum + 1) st
  some (st.finish std)

end Merge

section Sim
variable {lay : NodeLayout} {std : StdLib (Record K V)} {shards : Bool}

/-- `rest` is what is left to read of a run. -/
def RunOk (lay : NodeLayout) (shards : Bool) (run : Run K V)
    (rest : List (Wrapped (Record K V))) : Prop :=
  ∃ l, Holds lay.leafFanout (if shards then 1 else 0) run.fd l ∧
    run.insertCnt ≤ l.length ∧ rest = l.drop run.insertCnt ∧ run.remaining = rest.length ∧
    (run.insertCnt % lay.leafFanout ≠ 0 →
      run.buffer = some (pageOf lay.leafFanout l (run.insertCnt / lay.leafFanout)))

theorem succ_div_of_mod_ne_zero {c n : Nat} (h : (c + 1) % n ≠ 0) : (c + 1) / n = c / n := by
  rw [Nat.succ_div, if_neg fun hd => h (Nat.mod_eq_zero_of_dvd hd), Nat.add_zero]

omit [LinearOrder K] [LinearOrder V] in
theorem Run.fetch_ok {run : Run K V} {a : Wrapped (Record K V)}
    {t : List (Wrapped (Record K V))} (h : RunOk lay shards run (a :: t)) :
    ∃ run', run.fetch lay shards = some (a, run') ∧ RunOk lay shards run' t := by
  obtain ⟨l, hf, hle, hrest, hrem, hbuf⟩ := h
  have hlt : run.insertCnt < l.length := by
    have := congrArg List.length hrest
    rw [List.length_cons, List.length_drop] at this
    omega
  have ha : l[run.insertCnt]? = some a := by
    rw [← List.head?_drop, ← hrest, List.head?_cons]
  have ht : t = l.drop (run.insertCnt + 1) := by
    rw [← List.tail_drop, ← hrest, List.tail_cons]
  set c := run.insertCnt with hc
  set lf := lay.leafFanout with hlf
  have hpos : 0 < lf := lay.leafFanout_pos
  have hpage : c / lf * lf < l.length := Nat.lt_of_le_of_lt (Nat.div_mul_le_self c lf) hlt
  -- whether it is read now or was read before, the buffer holds the page of slot c
  have hpg : (if c % lf = 0 then
      run.fd.readRecords (c / lf + if shards then 1 else 0) run.buffer else run.buffer) =
      some (pageOf lf l (c / lf)) := by
    split
    · rw [File.readRecords, hf _ hpage]
    · rename_i hm
      exact hbuf hm
  refine ⟨{ run with
    buffer := some (pageOf lf l (c / lf)), insertCnt := c + 1, remaining := run.remaining - 1 },
    ?_, l, hf, hlt, ht, ?_, fun hm => ?_⟩
  · simp only [Run.fetch, ← hc, ← hlf, hpg, getElem?_pageOf hpos, ha]
  · rw [hrem, List.length_cons]
    rfl
  · show some _ = some (pageOf lf l ((c + 1) / lf))
    rw [succ_div_of_mod_ne_zero hm]

theorem forall₂_set {α β : Type} {P : α → β → Prop} {l : List α} {m : List β}
    (h : List.Forall₂ P l m) (i : Nat) {a : α} {b : β} (hab : P a b) :
    List.Forall₂ P (l.set i a) (m.set i b) := by
  induction h generalizing i with
  | nil => exact List.Forall₂.nil
  | cons h₁ h₂ ih =>
    cases i with
    | zero => exact List.Forall₂.cons hab h₂
    | succ i => exact List.Forall₂.cons h₁ (ih i)

theorem forall₂_getElem? {α β : Type} {P : α → β → Prop} {l : List α} {m : List β}
    (h : List.Forall₂ P l m) {i : Nat} {b : β} (hb : m[i]? = some b) :
    ∃ a, l[i]? = some a ∧ P a b := by
  induction h generalizing i with
  | nil => simp at hb
  | cons h₁ h₂ ih =>
    cases i with
    | zero =>
      rw [List.getElem?_cons_zero, Option.some.injEq] at hb
      exact ⟨_, rfl, hb ▸ h₁⟩
    | succ i => exact ih (by simpa using hb)

/-- The merge's runs and heap are those of the k-way merge of the runs' lists. -/
structure Sim (lay : NodeLayout) (shards : Bool) (st : MergeState std)
    (ks : KWay.State std.queue) : Prop where
  runs : List.Forall₂ (RunOk lay shards) st.runs ks.rest
  heap : st.heap = ks.heap

/-- Only the runs and the heap of the merge changed. -/
def SameOutput (st st' : MergeState std) : Prop :=
  st'.isam = st.isam ∧ st'.page = st.page ∧ st'.currPage = st.currPage ∧
    st'.cancelled = st.cancelled

theorem pushNext_sim {st : MergeState std} {ks : KWay.State std.queue} (h : Sim lay shards st ks)
    {i : Nat} {a : Wrapped (Record K V)} {t : List (Wrapped (Record K V))}
    (hi : ks.rest[i]? = some (a :: t)) :
    ∃ st', st.pushNext lay std shards i = some st' ∧ Sim lay shards st' (ks.refill i) ∧
      SameOutput st st' := by
  obtain ⟨run, hrun, hok⟩ := forall₂_getElem? h.runs hi
  obtain ⟨run', hfetch, hok'⟩ := Run.fetch_ok hok
  refine ⟨{ st with runs := st.runs.set i run', heap := std.queue.push ⟨a, i⟩ st.heap }, ?_, ?_,
    rfl, rfl, rfl, rfl⟩
  · simp only [MergeState.pushNext, hrun, hfetch]
  · simp only [KWay.State.refill, hi]
    exact ⟨forall₂_set h.runs i hok', by rw [h.heap]⟩

theorem refill_sim {st : MergeState std} {ks : KWay.State std.queue} (h : Sim lay shards st ks)
    {i : Nat} (hi : i < ks.rest.length) :
    ∃ st', st.refill lay std shards i = some st' ∧ Sim lay shards st' (ks.refill i) ∧
      SameOutput st st' := by
  obtain ⟨run, hrun, hok⟩ := forall₂_getElem? h.runs (List.getElem?_eq_getElem hi)
  have hrem : run.remaining = ks.rest[i].length := by
    obtain ⟨l, -, -, -, hrem, -⟩ := hok
    exact hrem
  cases hrest : ks.rest[i] with
  | nil =>
    refine ⟨st, ?_, ?_, rfl, rfl, rfl, rfl⟩
    · simp [MergeState.refill, hrun, hrem, hrest]
    · simpa [KWay.State.refill, List.getElem?_eq_getElem hi, hrest] using h
  | cons a t =>
    have hi' : ks.rest[i]? = some (a :: t) := by rw [List.getElem?_eq_getElem hi, hrest]
    have hpos : 0 < run.remaining := by rw [hrem, hrest]; exact Nat.succ_pos _
    simpa only [MergeState.refill, hrun, if_pos hpos] using pushNext_sim h hi'

/-- The output so far: full pages in the file, the rest on the page buffer, and
nothing at or past the current page. -/
structure Emitted (lf : Nat) (out : List (Wrapped (Record K V))) (st : MergeState std) :
    Prop where
  pos : 1 ≤ st.currPage
  length : out.length = (st.currPage - 1) * lf + st.page.length
  page_le : st.page.length ≤ lf
  page : st.page = out.drop ((st.currPage - 1) * lf)
  written : ∀ p, p + 1 < st.currPage → st.isam (p + 1) = some (.data (pageOf lf out p))
  fresh : ∀ p, p = 0 ∨ st.currPage ≤ p → st.isam p = none
  page_pos : out ≠ [] → 0 < st.page.length

theorem Emitted.congr {lf : Nat} {out : List (Wrapped (Record K V))} {st st' : MergeState std}
    (h : Emitted lf out st) (hs : SameOutput st st') : Emitted lf out st' := by
  obtain ⟨h₁, h₂, h₃, -⟩ := hs
  constructor
  · rw [h₃]; exact h.pos
  · rw [h₂, h₃]; exact h.length
  · rw [h₂]; exact h.page_le
  · rw [h₂, h₃]; exact h.page
  · rw [h₁, h₃]; exact h.written
  · rw [h₁, h₃]; exact h.fresh
  · rw [h₂]; exact h.page_pos

theorem Emitted.page_eq_pageOf {lf : Nat} {out : List (Wrapped (Record K V))}
    {st : MergeState std} (h : Emitted lf out st) : st.page = pageOf lf out (st.currPage - 1) := by
  have hl := h.page_le
  rw [h.page] at hl ⊢
  rw [pageOf, List.take_of_length_le hl]

theorem Emitted.emit {out : List (Wrapped (Record K V))} {st : MergeState std}
    (h : Emitted lay.leafFanout out st) (w : Wrapped (Record K V)) :
    Emitted lay.leafFanout (out ++ [w]) (st.emit lay std w) := by
  have hpos := lay.leafFanout_pos
  set lf := lay.leafFanout with hlf
  have hp := h.pos
  have hlen := h.length
  unfold MergeState.emit
  by_cases hfull : st.page.length = lf
  · rw [if_pos (hlf ▸ hfull)]
    have hout : out.length = st.currPage * lf := by
      obtain ⟨c, hc⟩ := Nat.exists_eq_add_of_le' hp
      rw [hlen, hfull, hc, Nat.add_sub_cancel, Nat.succ_mul]
    constructor
    · simp
    · simp [hout]
    · exact hpos
    · simp only [Nat.add_sub_cancel]
      rw [List.drop_append_of_le_length (le_of_eq hout.symm), List.drop_eq_nil_of_le (by omega)]
      rfl
    · intro p hpc
      simp only at hpc ⊢
      have hfit : (p + 1) * lf ≤ out.length := by
        rw [hout]
        exact Nat.mul_le_mul_right lf (by omega)
      rw [pageOf_append _ _ _ hfit]
      by_cases hlast : p + 1 = st.currPage
      · rw [hlast, File.pwrite_self, h.page_eq_pageOf, ← hlast, Nat.add_sub_cancel]
      · rw [File.pwrite_of_ne _ _ hlast]
        exact h.written p (by omega)
    · intro p hpc
      simp only at hpc ⊢
      rw [File.pwrite_of_ne _ _ (by omega)]
      exact h.fresh p (by omega)
    · simp
  · rw [if_neg (hlf ▸ hfull)]
    have hle := h.page_le
    have hbase : (st.currPage - 1) * lf ≤ out.length := by omega
    constructor
    · exact hp
    · simp [hlen, Nat.add_assoc]
    · simp only [List.length_append, List.length_cons, List.length_nil]
      omega
    · rw [List.drop_append_of_le_length hbase, ← h.page]
    · intro p hpc
      have hfit : (p + 1) * lf ≤ out.length :=
        le_trans (Nat.mul_le_mul_right lf (by simp only at hpc; omega)) hbase
      rw [pageOf_append _ _ _ hfit]
      exact h.written p hpc
    · exact h.fresh
    · simp

theorem Emitted.cancel {lf : Nat} {out : List (Wrapped (Record K V))} {st : MergeState std}
    (h : Emitted lf out st) : Emitted lf out { st with cancelled := st.cancelled + 1 } :=
  ⟨h.pos, h.length, h.page_le, h.page, h.written, h.fresh, h.page_pos⟩

theorem pop_refill_sim {st : MergeState std} {ks : KWay.State std.queue}
    (h : Sim lay shards st ks) (hs : ks.Sourced) {n : KWay.Node (Wrapped (Record K V))}
    (ht : std.queue.top st.heap = some n) :
    ∃ st' ks', MergeState.refill lay std shards n.source
        { st with heap := std.queue.pop st.heap } = some st' ∧
      ks.next = some (n.item, ks') ∧ Sim lay shards st' ks' ∧ ks'.Sourced ∧ SameOutput st st' := by
  have hts : std.queue.top ks.heap = some n := by rw [← h.heap]; exact ht
  have hsim : Sim lay shards { st with heap := std.queue.pop st.heap }
      (⟨ks.rest, std.queue.pop ks.heap⟩ : KWay.State std.queue) := ⟨h.runs, by rw [h.heap]⟩
  obtain ⟨st', hst', hsim', hout⟩ := refill_sim hsim (hs n (std.queue.top_mem hts))
  refine ⟨st', _, hst', ?_, hsim', (hs.pop hts).refill n.source, hout⟩
  simp only [KWay.State.next, hts]

theorem Sim.emit {st : MergeState std} {ks : KWay.State std.queue} (h : Sim lay shards st ks)
    (w : Wrapped (Record K V)) : Sim lay shards (st.emit lay std w) ks := by
  unfold MergeState.emit
  split
  · exact ⟨h.runs, h.heap⟩
  · exact ⟨h.runs, h.heap⟩

variable (lay) in
theorem MergeState.cancelled_emit (st : MergeState std) (w : Wrapped (Record K V)) :
    (st.emit lay std w).cancelled = st.cancelled := by
  unfold MergeState.emit
  split <;> rfl

/-- The loop empties the heap: what it puts out is the popped sequence with
opposite neighbours cancelled. -/
theorem mergeLoop_spec (fuel : Nat) (st : MergeState std) (ks : KWay.State std.queue)
    (out : List (Wrapped (Record K V))) (hsim : Sim lay shards st ks) (hsrc : ks.Sourced)
    (hout : Emitted lay.leafFanout out st) (hfuel : ks.content.card < fuel) :
    ∃ st', mergeLoop lay std shards fuel st = some st' ∧
      Emitted lay.leafFanout (out ++ cancelPairs ks.order) st' ∧
      2 * st'.cancelled + (cancelPairs ks.order).length =
        2 * st.cancelled + ks.order.length := by
  induction fuel generalizing st ks out with
  | zero => omega
  | succ fuel ih =>
    unfold mergeLoop
    cases ht : std.queue.top st.heap with
    | none =>
      have ho : ks.order = [] := KWay.State.order_of_next_none
        (KWay.next_of_top_none (hsim.heap ▸ ht))
      refine ⟨st, rfl, ?_, ?_⟩
      · simpa [ho, cancelPairs] using hout
      · simp [ho, cancelPairs]
    | some min =>
      obtain ⟨st₁, ks₁, hst₁, hn₁, hsim₁, hsrc₁, hsame₁⟩ := pop_refill_sim hsim hsrc ht
      have ho₁ := KWay.State.order_of_next hn₁
      have hc₁ : ks.content.card = ks₁.content.card + 1 := by
        rw [KWay.State.content_next hn₁, Multiset.card_cons]
      have hcan₁ : st₁.cancelled = st.cancelled := hsame₁.2.2.2
      simp only [hst₁]
      have hemit : ∀ l, ks₁.order = l → cancelPairs (min.item :: l) = min.item :: cancelPairs l →
          ∃ st', mergeLoop lay std shards fuel (st₁.emit lay std min.item) = some st' ∧
            Emitted lay.leafFanout (out ++ cancelPairs ks.order) st' ∧
            2 * st'.cancelled + (cancelPairs ks.order).length =
              2 * st.cancelled + ks.order.length := by
        intro l hl hcp
        have hcan' := st₁.cancelled_emit lay min.item
        obtain ⟨st', hst', hem, hcnt⟩ := ih _ ks₁ (out ++ [min.item]) (hsim₁.emit min.item) hsrc₁
          ((hout.congr hsame₁).emit min.item) (by omega)
        refine ⟨st', hst', ?_, ?_⟩
        · rw [ho₁, hl, hcp, ← hl]
          simpa using hem
        · rw [ho₁, hl, hcp, ← hl, List.length_cons, List.length_cons]
          omega
      cases ht₁ : std.queue.top st₁.heap with
      | none =>
        have ho : ks₁.order = [] :=
          KWay.State.order_of_next_none (KWay.next_of_top_none (hsim₁.heap ▸ ht₁))
        exact hemit [] ho rfl
      | some other =>
        obtain ⟨st₂, ks₂, hst₂, hn₂, hsim₂, hsrc₂, hsame₂⟩ := pop_refill_sim hsim₁ hsrc₁ ht₁
        have ho₂ := KWay.State.order_of_next hn₂
        by_cases hop : other.item.record = min.item.record ∧
            other.item.isTombstone ≠ min.item.isTombstone
        · simp only [if_pos hop, hst₂]
          have hc₂ : ks₁.content.card = ks₂.content.card + 1 := by
            rw [KWay.State.content_next hn₂, Multiset.card_cons]
          obtain ⟨st', hst', hem, hcnt⟩ := ih { st₂ with cancelled := st₂.cancelled + 1 } ks₂ out
            ⟨hsim₂.runs, hsim₂.heap⟩ hsrc₂ ((hout.congr hsame₁).congr hsame₂).cancel (by omega)
          have hcan₂ : st₂.cancelled = st₁.cancelled := hsame₂.2.2.2
          have hcp : cancelPairs ks.order = cancelPairs ks₂.order := by
            rw [ho₁, ho₂, cancelPairs, if_pos hop]
          refine ⟨st', hst', hcp ▸ hem, ?_⟩
          rw [hcp, ho₁, ho₂, List.length_cons, List.length_cons]
          simp only at hcnt
          omega
        · simp only [if_neg hop]
          exact hemit (other.item :: ks₂.order) ho₂ (by rw [cancelPairs, if_neg hop])

/-- A run before its first record is taken. -/
def Run.initial (r : File K V × Nat) : Run K V := ⟨r.1, none, 0, r.2⟩

omit [LinearOrder K] [LinearOrder V] in
theorem Run.initial_ok {r : File K V × Nat} {l : List (Wrapped (Record K V))}
    (hf : Holds lay.leafFanout (if shards then 1 else 0) r.1 l) (hr : r.2 = l.length) :
    RunOk lay shards (Run.initial r) l :=
  ⟨l, hf, Nat.zero_le _, rfl, hr, fun h => absurd (Nat.zero_mod _) h⟩

variable (std) in
theorem mergeInit_spec {runs : List (File K V × Nat)} {ls : List (List (Wrapped (Record K V)))}
    (isam : File K V)
    (hruns : List.Forall₂ (fun r l => Holds lay.leafFanout (if shards then 1 else 0) r.1 l ∧
      r.2 = l.length) runs ls) (hne : ∀ l ∈ ls, l ≠ []) :
    ∃ st, mergeInit lay std shards runs isam = some st ∧
      Sim lay shards st (KWay.start std.queue ls) ∧ (KWay.start std.queue ls).Sourced ∧
      st.isam = isam ∧ st.page = [] ∧ st.currPage = 1 ∧ st.cancelled = 0 := by
  have hlen := hruns.length_eq
  set st₀ : MergeState std := ⟨runs.map Run.initial, std.queue.empty, isam, [], 1, 0⟩ with hst₀
  have hmain : ∀ k, k ≤ ls.length →
      ∃ st, (List.range k).foldlM (fun st i => st.pushNext lay std shards i) st₀ = some st ∧
        Sim lay shards st ((List.range k).foldl (fun st i => st.refill i) ⟨ls, std.queue.empty⟩) ∧
        ((List.range k).foldl (fun st i => st.refill i)
          (⟨ls, std.queue.empty⟩ : KWay.State std.queue)).Sourced ∧ SameOutput st₀ st := by
    intro k
    induction k with
    | zero =>
      intro _
      refine ⟨st₀, rfl, ⟨?_, rfl⟩, ?_, rfl, rfl, rfl, rfl⟩
      · rw [hst₀, List.forall₂_map_left_iff]
        exact hruns.imp fun r l h => Run.initial_ok h.1 h.2
      · intro n hn
        simp at hn
    | succ k ih =>
      intro hk
      obtain ⟨st, hst, hsim, hsrc, hsame⟩ := ih (by omega)
      have hrest := KWay.foldl_refill_rest std.queue ls k k (Nat.le_refl k)
      rw [List.getElem?_eq_getElem (show k < ls.length by omega)] at hrest
      obtain ⟨a, t, hat⟩ := List.exists_cons_of_ne_nil (hne ls[k] (List.getElem_mem _))
      rw [hat] at hrest
      obtain ⟨st', hst', hsim', hsame'⟩ := pushNext_sim hsim hrest
      refine ⟨st', ?_, ?_, ?_, ?_⟩
      · rw [List.range_succ, List.foldlM_append, hst]
        simpa using hst'
      · simpa [List.range_succ] using hsim'
      · simpa [List.range_succ] using hsrc.refill k
      · obtain ⟨h₁, h₂, h₃, h₄⟩ := hsame
        obtain ⟨g₁, g₂, g₃, g₄⟩ := hsame'
        exact ⟨g₁.trans h₁, g₂.trans h₂, g₃.trans h₃, g₄.trans h₄⟩
  obtain ⟨st, hst, hsim, hsrc, h₁, h₂, h₃, h₄⟩ := hmain ls.length (Nat.le_refl _)
  exact ⟨st, by rw [mergeInit, hlen]; exact hst, hsim, hsrc, h₁, h₂, h₃, h₄⟩

omit [LinearOrder K] [LinearOrder V] in
theorem sum_lengths {runs : List (File K V × Nat)} {ls : List (List (Wrapped (Record K V)))}
    {P : File K V → List (Wrapped (Record K V)) → Prop}
    (h : List.Forall₂ (fun r l => P r.1 l ∧ r.2 = l.length) runs ls) :
    (runs.map Prod.snd).sum = ls.flatten.length := by
  induction h with
  | nil => rfl
  | cons h₁ h₂ ih => simp [h₁.2, ih]

/-- What `external_merge_sort` leaves: the pages of the sorted records of all
runs, cancelled, from page 1 on. -/
structure Merged (lf : Nat) (ls : List (List (Wrapped (Record K V)))) (st : MergeState std)
    (out : List (Wrapped (Record K V))) : Prop where
  order : ∃ w, w.Perm ls.flatten ∧ w.Pairwise (fun a b => a.record ≤ b.record) ∧
    out = cancelPairs w
  length : out.length + 2 * st.cancelled = ls.flatten.length
  holds : Holds lf 1 st.isam out
  last : out ≠ [] → st.currPage = pageCount lf out.length
  fresh : ∀ p, p = 0 ∨ pageCount lf out.length < p → st.isam p = none

theorem Emitted.currPage_eq {lf : Nat} (hlf : 0 < lf) {out : List (Wrapped (Record K V))}
    {st : MergeState std} (h : Emitted lf out st) (hne : out ≠ []) :
    st.currPage = pageCount lf out.length := by
  have hpos := h.page_pos hne
  have hle := h.page_le
  have hp := h.pos
  obtain ⟨c, hc⟩ := Nat.exists_eq_add_of_le' hp
  have hlen := h.length
  rw [hc, Nat.add_sub_cancel] at hlen
  rw [pageCount, hlen, hc]
  have hsplit : c * lf + st.page.length + lf - 1 = (st.page.length - 1) + (c + 1) * lf := by
    rw [Nat.succ_mul]
    omega
  rw [hsplit, Nat.add_mul_div_right _ _ hlf, Nat.div_eq_of_lt (by omega), Nat.zero_add]

theorem Emitted.finish {lf : Nat} (hlf : 0 < lf) {out : List (Wrapped (Record K V))}
    {st : MergeState std} (h : Emitted lf out st) :
    Holds lf 1 (st.finish std).isam out ∧
      ∀ p, p = 0 ∨ pageCount lf out.length < p → (st.finish std).isam p = none := by
  by_cases hne : out = []
  · have hpage : st.page = [] := by rw [h.page, hne, List.drop_nil]
    have hlen := h.length
    have hpos := h.pos
    refine ⟨fun p hp => by simp [hne] at hp, fun p hp => ?_⟩
    rw [MergeState.finish, hpage, if_neg (by simp)]
    by_cases hcur : st.currPage ≤ p
    · exact h.fresh p (Or.inr hcur)
    · simp only [hne, hpage, List.length_nil, Nat.add_zero] at hlen
      rcases Nat.eq_zero_or_pos (st.currPage - 1) with h0 | h1
      · exact h.fresh p (by omega)
      · have := Nat.mul_pos h1 hlf
        omega
  · have hcur := h.currPage_eq hlf hne
    have hpos := h.pos
    rw [MergeState.finish, if_pos (h.page_pos hne)]
    refine ⟨fun p hp => ?_, fun p hp => ?_⟩ <;> simp only
    · have hlen := h.length
      have hle := h.page_le
      by_cases hlast : p + 1 = st.currPage
      · rw [hlast, File.pwrite_self, h.page_eq_pageOf, ← hlast, Nat.add_sub_cancel]
      · rw [File.pwrite_of_ne _ _ hlast]
        refine h.written p ?_
        by_contra hge
        have hmul : (st.currPage - 1 + 1) * lf ≤ p * lf := Nat.mul_le_mul_right lf (by omega)
        rw [Nat.succ_mul] at hmul
        omega
    · rw [File.pwrite_of_ne _ _ (by omega)]
      exact h.fresh p (by omega)

variable (std) in
theorem externalMergeSort_order {runs : List (File K V × Nat)}
    {ls : List (List (Wrapped (Record K V)))}
    (hruns : List.Forall₂ (fun r l => Holds lay.leafFanout (if shards then 1 else 0) r.1 l ∧
      r.2 = l.length) runs ls) (hne : ∀ l ∈ ls, l ≠ [])
    (hsort : ∀ l ∈ ls, l.Pairwise (fun a b => a.record ≤ b.record)) :
    ∃ st, externalMergeSort lay std shards runs File.empty = some st ∧
      Merged lay.leafFanout ls st (cancelPairs (KWay.start std.queue ls).order) := by
  have hpos := lay.leafFanout_pos
  obtain ⟨st₀, hst₀, hsim, hsrc, h₁, h₂, h₃, h₄⟩ :=
    mergeInit_spec std File.empty hruns hne
  have hready : (KWay.start std.queue ls).Ready := KWay.start_ready ls hsort
  obtain ⟨hperm, hsorted⟩ := KWay.State.order_spec hready
  rw [KWay.start_content, Multiset.coe_eq_coe] at hperm
  have hcard : (KWay.start std.queue ls).content.card < (runs.map Prod.snd).sum + 1 := by
    rw [KWay.start_content, sum_lengths hruns]
    exact Nat.lt_succ_self _
  have hem : Emitted lay.leafFanout [] st₀ := by
    constructor <;> simp [h₁, h₂, h₃, File.empty]
  obtain ⟨st, hst, hout, hcnt⟩ := mergeLoop_spec _ st₀ _ [] hsim hsrc hem hcard
  rw [List.nil_append] at hout
  obtain ⟨hholds, hfresh⟩ := hout.finish hpos
  have hfin : (st.finish std).currPage = st.currPage ∧
      (st.finish std).cancelled = st.cancelled := by
    unfold MergeState.finish
    split <;> exact ⟨rfl, rfl⟩
  refine ⟨st.finish std, ?_, ⟨_, hperm, hsorted, rfl⟩, ?_, hholds, fun hne => ?_, hfresh⟩
  · simp only [externalMergeSort, hst₀, hst, Option.bind_eq_bind, Option.bind_some]
  · rw [hfin.2, ← hperm.length_eq]
    omega
  · rw [hfin.1]
    exact hout.currPage_eq hpos hne

variable (lay std) in
theorem mergeInit_eq_none (shards : Bool) {runs : List (File K V × Nat)} (isam : File K V) {i : Nat}
    {r : File K V × Nat} (hi : runs[i]? = some r)
    (hnone : r.1 (if shards then 1 else 0) = none) :
    mergeInit lay std shards runs isam = none := by
  set st₀ : MergeState std := ⟨runs.map Run.initial, std.queue.empty, isam, [], 1, 0⟩ with hst₀
  have hlt : i < runs.length := (List.getElem?_eq_some_iff.mp hi).1
  -- the pushes before that of run i leave run i alone
  have hkeep : ∀ k, k ≤ i → ∀ st,
      (List.range k).foldlM (fun st i => st.pushNext lay std shards i) st₀ = some st →
      st.runs[i]? = some (Run.initial r) := by
    intro k
    induction k with
    | zero =>
      intro _ st hst
      obtain rfl : st₀ = st := by simpa using hst
      simp [hst₀, hi]
    | succ k ih =>
      intro hk st hst
      rw [List.range_succ, List.foldlM_append] at hst
      cases hprev : (List.range k).foldlM (fun st i => st.pushNext lay std shards i) st₀ with
      | none => simp [hprev] at hst
      | some st' =>
        have hrun := ih (by omega) st' hprev
        simp only [hprev, Option.bind_eq_bind, Option.bind_some, List.foldlM_cons,
          List.foldlM_nil, Option.pure_def, Option.bind_fun_some] at hst
        unfold MergeState.pushNext at hst
        cases hk' : st'.runs[k]? with
        | none => simp [hk'] at hst
        | some run =>
          cases hf : run.fetch lay shards with
          | none => simp [hk', hf] at hst
          | some wr =>
            obtain rfl := Option.some.inj (by simpa [hk', hf] using hst)
            rw [List.getElem?_set_ne (by omega), hrun]
  have hfail : (List.range (i + 1)).foldlM (fun st i => st.pushNext lay std shards i) st₀ =
      none := by
    rw [List.range_succ, List.foldlM_append]
    cases hprev : (List.range i).foldlM (fun st i => st.pushNext lay std shards i) st₀ with
    | none => rfl
    | some st =>
      have hrun := hkeep i (Nat.le_refl i) st hprev
      have hfetch : (Run.initial r).fetch lay shards = none := by
        simp [Run.fetch, Run.initial, File.readRecords, hnone]
      simp [MergeState.pushNext, hrun, hfetch]
  have hsplit : List.range runs.length =
      List.range (i + 1) ++ (List.range (runs.length - (i + 1))).map (i + 1 + ·) := by
    rw [← List.range_add]
    congr 1
    omega
  rw [mergeInit, hsplit, List.foldlM_append]
  show ((List.range (i + 1)).foldlM (fun st i => st.pushNext lay std shards i) st₀ >>= _) = none
  rw [hfail]
  rfl

end Sim

end De
