import DynamicExtension.Rounds
set_option autoImplicit false

namespace De

/-- What a predicate picks from a list on which it only ever becomes true is
the part from some index on. -/
theorem drop_eq_filter {α : Type} {p : α → Bool} {l : List α} {n : Nat}
    (hlt : ∀ i a, i < n → l[i]? = some a → p a = false)
    (hge : ∀ i a, n ≤ i → l[i]? = some a → p a = true) : l.drop n = l.filter p := by
  conv_rhs => rw [← List.take_append_drop n l, List.filter_append]
  have htake : (l.take n).filter p = [] := by
    rw [List.filter_eq_nil_iff]
    intro a ha
    obtain ⟨i, hi⟩ := List.mem_iff_getElem?.mp ha
    rw [List.getElem?_take] at hi
    split at hi
    · rename_i hin
      simp [hlt i a hin hi]
    · cases hi
  have hdrop : (l.drop n).filter p = l.drop n := by
    rw [List.filter_eq_self]
    intro a ha
    obtain ⟨i, hi⟩ := List.mem_iff_getElem?.mp ha
    rw [List.getElem?_drop] at hi
    exact hge (n + i) a (Nat.le_add_right n i) hi
  rw [htake, hdrop, List.nil_append]

namespace ISAMTree
variable {K V : Type} [LinearOrder K] [LinearOrder V] [Zero K] [Zero V]

section Defs
variable (lay : NodeLayout)

omit [LinearOrder K] [LinearOrder V] in
/-- Slot `i` of a data page; the bytes past its records are zero. -/
def pageSlot (recs : List (Wrapped (Record K V))) (i : Nat) : Wrapped (Record K V) :=
  recs.getD i 0

omit [LinearOrder V] in
/-- `get_lower_bound`, a byte offset into the file -/
def getLowerBound (t : ISAMTree K V) (key : K) : Option Nat := do
  let now ← descend t.lastDataPage t.fd key (t.rootPage + 1) t.rootPage
  match t.fd now with
  | some (.data recs) =>
    let offset := ((List.range lay.leafFanout).find? fun i =>
      key ≤ (pageSlot recs i).record.key).getD lay.leafFanout
    some (now * lay.nodeSz + offset * lay.recordSz)
  | _ => none

/-- `point_lookup` with a page buffer and without the filter. `past` is what
slot `LEAF_FANOUT` of the buffer reads as, which lies past the whole slots. -/
def pointLookup (past : Wrapped (Record K V)) (t : ISAMTree K V) (rec : Record K V) :
    Option (Option (Wrapped (Record K V))) := do
  let offset ← getLowerBound lay t rec.key
  if offset ≥ (t.lastDataPage + 1) * lay.nodeSz then
    return none
  match t.fd (offset / lay.nodeSz) with
  | some (.data recs) =>
    let pageOffset := offset % lay.nodeSz / lay.recordSz
    let w := if pageOffset < lay.leafFanout then pageSlot recs pageOffset else past
    return if w.record = rec then some w else none
  | _ => none

/-- `Iterator`, without the page that it keeps in memory -/
structure Iterator (K V : Type) where
  fd : File K V
  idx : Nat
  stop : Nat

omit [LinearOrder K] [LinearOrder V] in
/-- `get_current`; the inner `none` is a null pointer. -/
def Iterator.getCurrent (it : Iterator K V) : Option (Option (Wrapped (Record K V))) :=
  if it.idx ≥ it.stop then some none
  else match it.fd (it.idx / lay.leafFanout + 1) with
    | some (.data recs) => some (some (pageSlot recs (it.idx % lay.leafFanout)))
    | _ => none

omit [LinearOrder K] [LinearOrder V] [Zero K] [Zero V] in
def Iterator.getNext (it : Iterator K V) : Iterator K V := { it with idx := it.idx + 1 }

omit [LinearOrder V] in
def getIterator (t : ISAMTree K V) (lower : K) : Option (Iterator K V) :=
  if t.reccnt = 0 then some ⟨t.fd, 0, 0⟩
  else do
    let offset ← getLowerBound lay t lower
    let page := offset / lay.nodeSz
    let slot := offset % lay.nodeSz / lay.recordSz
    return ⟨t.fd, (page - 1) * lay.leafFanout + slot, t.reccnt⟩

end Defs

variable {lay : NodeLayout} {t : ISAMTree K V} {recs : List (Wrapped (Record K V))}

omit [LinearOrder K] [LinearOrder V] in
theorem pageSlot_pageOf (p j : Nat) (hj : j < lay.leafFanout) :
    pageSlot (pageOf lay.leafFanout recs p) j = recs.getD (p * lay.leafFanout + j) 0 := by
  rw [pageSlot, List.getD_eq_getElem?_getD, getElem?_pageOf_of_lt recs p j hj,
    List.getD_eq_getElem?_getD]

omit [Zero K] [Zero V] in
theorem key_mono (hs : recs.Pairwise fun a b => a.record ≤ b.record) {i j : Nat}
    {v w : Wrapped (Record K V)} (hij : i ≤ j) (hv : recs[i]? = some v) (hw : recs[j]? = some w) :
    v.record.key ≤ w.record.key := by
  rcases Nat.eq_or_lt_of_le hij with rfl | hlt
  · rw [hv, Option.some.injEq] at hw
    rw [hw]
  · obtain ⟨hi, rfl⟩ := List.getElem?_eq_some_iff.mp hv
    obtain ⟨hj, rfl⟩ := List.getElem?_eq_some_iff.mp hw
    exact Record.key_le_of_le (List.pairwise_iff_getElem.mp hs i j hi hj hlt)

/-- Where the search for a key ends: slot `off` of data page `now`, with the
smaller keys before it and the others from it on. -/
structure Found (lay : NodeLayout) (t : ISAMTree K V) (recs : List (Wrapped (Record K V)))
    (key : K) (now off : Nat) : Prop where
  one_le : 1 ≤ now
  le_last : now ≤ t.lastDataPage
  page : t.fd now = some (.data (pageOf lay.leafFanout recs (now - 1)))
  off_le : off ≤ lay.leafFanout
  below : ∀ i w, i < (now - 1) * lay.leafFanout + off → recs[i]? = some w → w.record.key < key
  above : ∀ i w, (now - 1) * lay.leafFanout + off ≤ i → recs[i]? = some w → key ≤ w.record.key
  last : recs.length ≤ (now - 1) * lay.leafFanout + off → now = t.lastDataPage
  done : off = lay.leafFanout → recs.length ≤ (now - 1) * lay.leafFanout + off
  slot : off < lay.leafFanout →
    key ≤ (recs.getD ((now - 1) * lay.leafFanout + off) 0).record.key
  full : off = lay.leafFanout → ∀ j < lay.leafFanout,
    (recs.getD ((now - 1) * lay.leafFanout + j) 0).record.key < key

omit [Zero K] [Zero V] in
theorem lands_below (hs : recs.Pairwise fun a b => a.record ≤ b.record) {key : K} {hi now : Nat}
    (hland : Lands lay recs key 1 hi now) (hin : (now - 1) * lay.leafFanout < recs.length) {i : Nat}
    {w : Wrapped (Record K V)} (hlt : i < (now - 1) * lay.leafFanout) (hw : recs[i]? = some w) :
    w.record.key < key := by
  have hpos := lay.leafFanout_pos
  have hnow : 1 < now := by
    by_contra hle
    have : now - 1 = 0 := by omega
    simp [this] at hlt
  have hprev : (now - 1) * lay.leafFanout - 1 < recs.length := by omega
  have hkey : LastKey lay recs now (recs[(now - 1) * lay.leafFanout - 1]).record.key := by
    refine ⟨_, ?_, rfl⟩
    rw [Nat.min_eq_left hin.le, List.getElem?_eq_getElem hprev]
  have hle := key_mono hs (by omega) hw (List.getElem?_eq_getElem hprev)
  exact lt_of_le_of_lt hle (hland.below _ hnow hkey)

/-- A scan of the first `n` slots ends on the first one that passes, or past all of them. -/
theorem scan_spec (p : Nat → Bool) (n : Nat) :
    ((List.range n).find? p).getD n ≤ n ∧
      (((List.range n).find? p).getD n < n → p (((List.range n).find? p).getD n) = true) ∧
      ∀ j < ((List.range n).find? p).getD n, p j = false := by
  cases hf : (List.range n).find? p with
  | none =>
    rw [List.find?_eq_none] at hf
    refine ⟨le_rfl, fun hlt => absurd hlt (lt_irrefl _), fun j hj => ?_⟩
    simpa using hf j (List.mem_range.mpr hj)
  | some j =>
    obtain ⟨hj, hlt, hbefore⟩ := List.find?_range_eq_some.mp hf
    refine ⟨(List.mem_range.mp hlt).le, fun _ => hj, fun i hi => ?_⟩
    simpa using hbefore i hi

omit [Zero K] [Zero V] in
theorem WellFormed.page_lt_iff (h : WellFormed lay t recs) {now : Nat}
    (hle : now ≤ t.lastDataPage) :
    now ≠ t.lastDataPage ↔ now * lay.leafFanout < recs.length := by
  rw [← lt_pageCount_iff lay.leafFanout_pos, ← h.lastDataPage]
  omega

/-- When all keys of the page that the descent ends on are below the search key, no record
comes after the page: the next page would start after a key that is not smaller. -/
theorem lands_done (h : WellFormed lay t recs) {key : K} {now : Nat} (h1 : 1 ≤ now)
    (hle : now ≤ t.lastDataPage) (hland : Lands lay recs key 1 (t.lastDataPage + 1) now)
    (hlow : ∀ j < lay.leafFanout,
      (recs.getD ((now - 1) * lay.leafFanout + j) 0).record.key < key) :
    recs.length ≤ now * lay.leafFanout := by
  have hpos := lay.leafFanout_pos
  by_contra hlen
  rcases hland.stop with hstop | ⟨k, ⟨v, hv, rfl⟩, hk⟩
  · exact (h.page_lt_iff hle).mpr (not_le.mp hlen) (by omega)
  · obtain ⟨m, rfl⟩ := Nat.exists_eq_add_of_le' h1
    have hprev : min ((m + 1) * lay.leafFanout) recs.length - 1 =
        m * lay.leafFanout + (lay.leafFanout - 1) := by
      rw [Nat.succ_mul] at hlen ⊢
      omega
    have hlast := hlow (lay.leafFanout - 1) (by omega)
    rw [Nat.add_sub_cancel, hprev] at hv
    rw [Nat.add_sub_cancel, List.getD_eq_getElem?_getD, hv] at hlast
    exact absurd hk (not_le_of_gt hlast)

theorem getLowerBound_spec (h : WellFormed lay t recs) (hne : recs ≠ []) (key : K) :
    ∃ now off, getLowerBound lay t key = some (now * lay.nodeSz + off * lay.recordSz) ∧
      Found lay t recs key now off := by
  have hpos := lay.leafFanout_pos
  obtain ⟨d, hd, hcov⟩ := h.index hne
  obtain ⟨now, hnow, h1, hle, hland⟩ :=
    descend_spec key (t.rootPage + 1) d t.rootPage 1 (t.lastDataPage + 1) hcov (by omega)
  have hin : (now - 1) * lay.leafFanout < recs.length := by
    rw [← lt_pageCount_iff hpos, ← h.lastDataPage]
    omega
  have hpage := h.holds (now - 1) hin
  rw [Nat.sub_add_cancel h1] at hpage
  have hslot : ∀ j < lay.leafFanout, pageSlot (pageOf lay.leafFanout recs (now - 1)) j =
      recs.getD ((now - 1) * lay.leafFanout + j) 0 := fun j hj => pageSlot_pageOf _ j hj
  set p : Nat → Bool := fun i =>
    key ≤ (pageSlot (pageOf lay.leafFanout recs (now - 1)) i).record.key with hp
  set off := ((List.range lay.leafFanout).find? p).getD lay.leafFanout with hoff
  have hrun : getLowerBound lay t key = some (now * lay.nodeSz + off * lay.recordSz) := by
    simp only [getLowerBound, hnow, Option.bind_eq_bind, Option.bind_some, hpage]
    rfl
  obtain ⟨hoff_le, hat, hbefore⟩ := scan_spec p lay.leafFanout
  rw [← hoff] at hoff_le hat hbefore
  have hslotlt : ∀ j < off, (recs.getD ((now - 1) * lay.leafFanout + j) 0).record.key < key := by
    intro j hj
    have := hbefore j hj
    simp only [hp, hslot j (by omega), decide_eq_false_iff_not, not_le] at this
    exact this
  have hslotge : off < lay.leafFanout →
      key ≤ (recs.getD ((now - 1) * lay.leafFanout + off) 0).record.key := fun hlt => by
    simpa only [hp, hslot off hlt, decide_eq_true_eq] using hat hlt
  have hsucc : now * lay.leafFanout = (now - 1) * lay.leafFanout + lay.leafFanout := by
    obtain ⟨m, rfl⟩ := Nat.exists_eq_add_of_le' h1
    rw [Nat.add_sub_cancel, Nat.succ_mul]
  have hlast : recs.length ≤ (now - 1) * lay.leafFanout + off → now = t.lastDataPage := by
    intro hlen
    by_contra hne'
    have := (h.page_lt_iff hle).mp hne'
    omega
  have hdone : off = lay.leafFanout → recs.length ≤ (now - 1) * lay.leafFanout + off := by
    intro hfull
    rw [hfull, ← hsucc]
    exact lands_done h h1 hle hland fun j hj => hslotlt j (hfull ▸ hj)
  refine ⟨now, off, hrun, h1, hle, hpage, hoff_le, fun i w hi hw => ?_, fun i w hi hw => ?_, hlast,
    hdone, hslotge, fun hfull j hj => hslotlt j (hfull ▸ hj)⟩
  · by_cases hip : i < (now - 1) * lay.leafFanout
    · exact lands_below h.sorted hland hin hip hw
    · have := hslotlt (i - (now - 1) * lay.leafFanout) (by omega)
      rwa [Nat.add_sub_cancel' (by omega), List.getD_eq_getElem?_getD, hw] at this
  · have hlen := (List.getElem?_eq_some_iff.mp hw).1
    rcases Nat.lt_or_eq_of_le hoff_le with hlt | hfull
    · have hidx : (now - 1) * lay.leafFanout + off < recs.length := by omega
      have hkey := hslotge hlt
      rw [List.getD_eq_getElem?_getD, List.getElem?_eq_getElem hidx] at hkey
      exact le_trans hkey (key_mono h.sorted hi (List.getElem?_eq_getElem hidx) hw)
    · have := hdone hfull
      omega

omit [LinearOrder V] in
theorem Found.filter_eq {key : K} {now off : Nat} (hf : Found lay t recs key now off) :
    recs.drop ((now - 1) * lay.leafFanout + off) = recs.filter fun w => key ≤ w.record.key :=
  drop_eq_filter (fun i w hi hw => by simpa using hf.below i w hi hw)
    fun i w hi hw => by simpa using hf.above i w hi hw

omit [LinearOrder V] in
theorem Found.head {key : K} {now off : Nat} (hf : Found lay t recs key now off) :
    (recs.filter fun w => key ≤ w.record.key).head? =
      recs[(now - 1) * lay.leafFanout + off]? := by
  rw [← hf.filter_eq, List.head?_drop]

theorem Found.start (h : WellFormed lay t recs) {key : K} {now off : Nat}
    (hf : Found lay t recs key now off) : (now - 1) * lay.leafFanout < recs.length := by
  have hle := hf.le_last
  have hone := hf.one_le
  rw [← lt_pageCount_iff lay.leafFanout_pos, ← h.lastDataPage]
  omega

omit [LinearOrder K] [LinearOrder V] [Zero K] [Zero V] in
theorem offset_split (lay : NodeLayout) (now : Nat) {off : Nat}
    (h : off * lay.recordSz < lay.nodeSz) :
    (now * lay.nodeSz + off * lay.recordSz) / lay.nodeSz = now ∧
      (now * lay.nodeSz + off * lay.recordSz) % lay.nodeSz / lay.recordSz = off := by
  have hpos : 0 < lay.nodeSz := by omega
  constructor
  · rw [Nat.add_comm, Nat.add_mul_div_right _ _ hpos, Nat.div_eq_of_lt h, Nat.zero_add]
  · rw [Nat.add_comm, Nat.add_mul_mod_self_right, Nat.mod_eq_of_lt h,
      Nat.mul_div_cancel _ lay.recordSz_pos]

theorem slot_lt (lay : NodeLayout) {off : Nat} (h : off < lay.leafFanout) :
    off * lay.recordSz < lay.nodeSz := by
  have hle : (off + 1) * lay.recordSz ≤ lay.nodeSz :=
    le_trans (Nat.mul_le_mul_right _ h) (Nat.div_mul_le_self _ _)
  have hpos := lay.recordSz_pos
  rw [Nat.succ_mul] at hle
  omega

theorem offset_next (lay : NodeLayout) (now : Nat) {off : Nat} (hle : off ≤ lay.leafFanout)
    (h : ¬ off * lay.recordSz < lay.nodeSz) :
    off = lay.leafFanout ∧ lay.leafFanout * lay.recordSz = lay.nodeSz ∧
      now * lay.nodeSz + off * lay.recordSz = (now + 1) * lay.nodeSz := by
  have hoff : off = lay.leafFanout :=
    (Nat.lt_or_eq_of_le hle).resolve_left fun hlt => h (slot_lt lay hlt)
  subst hoff
  have hfan : lay.leafFanout * lay.recordSz ≤ lay.nodeSz := Nat.div_mul_le_self _ _
  have heq : lay.leafFanout * lay.recordSz = lay.nodeSz := by omega
  exact ⟨rfl, heq, by rw [heq, Nat.succ_mul]⟩

def Iterator.Yields (lay : NodeLayout) (it : Iterator K V) (l : List (Wrapped (Record K V))) :
    Prop :=
  ∃ recs, Holds lay.leafFanout 1 it.fd recs ∧ it.stop = recs.length ∧ l = recs.drop it.idx

omit [LinearOrder K] [LinearOrder V] in
theorem Iterator.Yields.getCurrent {it : Iterator K V} {l : List (Wrapped (Record K V))}
    (h : it.Yields lay l) : it.getCurrent lay = some l.head? := by
  obtain ⟨recs, hholds, hstop, rfl⟩ := h
  have hpos := lay.leafFanout_pos
  rw [Iterator.getCurrent, hstop, List.head?_drop]
  split
  · rename_i hge
    rw [List.getElem?_eq_none hge]
  · rename_i hlt
    have hin : it.idx / lay.leafFanout * lay.leafFanout < recs.length :=
      Nat.lt_of_le_of_lt (Nat.div_mul_le_self _ _) (by omega)
    rw [hholds _ hin]
    simp only [pageSlot, List.getD_eq_getElem?_getD, getElem?_pageOf hpos]
    rw [List.getElem?_eq_getElem (by omega), Option.getD_some]

omit [LinearOrder K] [LinearOrder V] [Zero K] [Zero V] in
theorem Iterator.Yields.getNext {it : Iterator K V} {l : List (Wrapped (Record K V))}
    (h : it.Yields lay l) : it.getNext.Yields lay l.tail := by
  obtain ⟨recs, hholds, hstop, rfl⟩ := h
  exact ⟨recs, hholds, hstop, by simp [Iterator.getNext]⟩

theorem getIterator_spec (h : WellFormed lay t recs) (lower : K) :
    ∃ it, getIterator lay t lower = some it ∧
      it.Yields lay (recs.filter fun w => lower ≤ w.record.key) := by
  by_cases hne : recs = []
  · subst hne
    refine ⟨⟨t.fd, 0, 0⟩, ?_, [], h.holds, rfl, rfl⟩
    rw [getIterator, if_pos (by rw [h.reccnt]; rfl)]
  · obtain ⟨now, off, hrun, hf⟩ := getLowerBound_spec h hne lower
    have hcnt : t.reccnt ≠ 0 := by
      rw [h.reccnt]
      exact List.length_pos_iff.mpr hne |>.ne'
    refine ⟨⟨t.fd, (now - 1) * lay.leafFanout + off, t.reccnt⟩, ?_, recs, h.holds, h.reccnt, ?_⟩
    · simp only [getIterator, if_neg hcnt, hrun, Option.bind_eq_bind, Option.bind_some]
      by_cases hoff : off * lay.recordSz < lay.nodeSz
      · obtain ⟨hdiv, hmod⟩ := offset_split lay now hoff
        rw [hdiv, hmod]
        rfl
      · obtain ⟨hfull, -, hnext⟩ := offset_next lay now hf.off_le hoff
        have hpos : 0 < lay.nodeSz := lt_of_lt_of_le lay.recordSz_pos lay.recordSz_le
        obtain ⟨m, hm⟩ := Nat.exists_eq_add_of_le' hf.one_le
        rw [hnext, Nat.mul_div_cancel _ hpos, Nat.mul_mod_left, hfull, hm]
        simp [Nat.succ_mul]
    · exact hf.filter_eq.symm

/-- The slot that `point_lookup` compares: the first record that is not below
the key or, when there is none, what follows the last record in its page. -/
def searchSlot (lay : NodeLayout) (past : Wrapped (Record K V))
    (recs : List (Wrapped (Record K V))) (key : K) : Option (Wrapped (Record K V)) :=
  match (recs.filter fun w => key ≤ w.record.key).head? with
  | some w => some w
  | none =>
    if recs.length % lay.leafFanout ≠ 0 ∧ key ≤ 0 then some 0
    else if lay.leafFanout * lay.recordSz < lay.nodeSz then some past
    else none

theorem Found.searchSlot_lt (h : WellFormed lay t recs) {key : K} {now off : Nat}
    (hf : Found lay t recs key now off) (past : Wrapped (Record K V)) (hlt : off < lay.leafFanout) :
    searchSlot lay past recs key = some (recs.getD ((now - 1) * lay.leafFanout + off) 0) := by
  have hhead := hf.head
  rw [searchSlot, hhead]
  cases hw : recs[(now - 1) * lay.leafFanout + off]? with
  | some w => simp [List.getD_eq_getElem?_getD, hw]
  | none =>
    have hlen := List.getElem?_eq_none_iff.mp hw
    have hstart := hf.start h
    have hkey : key ≤ 0 := by
      have := hf.slot hlt
      rwa [List.getD_eq_getElem?_getD, hw] at this
    have hmod : recs.length % lay.leafFanout ≠ 0 := by
      have hsplit : recs.length =
          (recs.length - (now - 1) * lay.leafFanout) + (now - 1) * lay.leafFanout := by omega
      rw [hsplit, Nat.add_mul_mod_self_right, Nat.mod_eq_of_lt (by omega)]
      omega
    simp [List.getD_eq_getElem?_getD, hw, hmod, hkey]

theorem Found.searchSlot_full (h : WellFormed lay t recs) {key : K} {now off : Nat}
    (hf : Found lay t recs key now off) (past : Wrapped (Record K V))
    (hfull : off = lay.leafFanout) :
    searchSlot lay past recs key =
      if lay.leafFanout * lay.recordSz < lay.nodeSz then some past else none := by
  have hlen := hf.done hfull
  have hstart := hf.start h
  rw [searchSlot, hf.head, List.getElem?_eq_none hlen]
  have hno : ¬ (recs.length % lay.leafFanout ≠ 0 ∧ key ≤ 0) := by
    rintro ⟨hmod, hkey⟩
    by_cases hend : recs.length = (now - 1) * lay.leafFanout + lay.leafFanout
    · simp [hend] at hmod
    · have hlow := hf.full hfull (recs.length - (now - 1) * lay.leafFanout) (by omega)
      rw [Nat.add_sub_cancel' hstart.le, List.getD_eq_getElem?_getD,
        List.getElem?_eq_none le_rfl] at hlow
      exact absurd hkey (not_le_of_gt hlow)
  simp only [if_neg hno]

theorem pointLookup_spec (h : WellFormed lay t recs) (hne : recs ≠ [])
    (past : Wrapped (Record K V)) (rec : Record K V) :
    pointLookup lay past t rec =
      some ((searchSlot lay past recs rec.key).filter fun w => w.record = rec) := by
  obtain ⟨now, off, hrun, hf⟩ := getLowerBound_spec h hne rec.key
  have hpos : 0 < lay.nodeSz := lt_of_lt_of_le lay.recordSz_pos lay.recordSz_le
  simp only [pointLookup, hrun, Option.bind_eq_bind, Option.bind_some]
  by_cases hoff : off * lay.recordSz < lay.nodeSz
  · obtain ⟨hdiv, hmod⟩ := offset_split lay now hoff
    have hin : ¬ now * lay.nodeSz + off * lay.recordSz ≥ (t.lastDataPage + 1) * lay.nodeSz := by
      have hle : (now + 1) * lay.nodeSz ≤ (t.lastDataPage + 1) * lay.nodeSz :=
        Nat.mul_le_mul_right _ (Nat.succ_le_succ hf.le_last)
      rw [Nat.succ_mul now] at hle
      omega
    rw [if_neg hin, hdiv, hmod, hf.page]
    by_cases hlt : off < lay.leafFanout
    · simp [hf.searchSlot_lt h past hlt, hlt, pageSlot_pageOf _ off hlt, Option.filter]
    · have hfull : off = lay.leafFanout := le_antisymm hf.off_le (not_lt.mp hlt)
      rw [hfull] at hoff
      simp [hf.searchSlot_full h past hfull, hlt, hoff, Option.filter]
  · obtain ⟨hfull, heq, hnext⟩ := offset_next lay now hf.off_le hoff
    have hlast := hf.last (hf.done hfull)
    have hpast : now * lay.nodeSz + off * lay.recordSz ≥ (t.lastDataPage + 1) * lay.nodeSz := by
      rw [hnext, hlast]
    rw [if_pos hpast, hf.searchSlot_full h past hfull, if_neg (by omega)]
    rfl

section Seek

omit [LinearOrder K] [LinearOrder V] in
/-- `while (rec = it.get_current()) it.get_next()` -/
def Iterator.drain (lay : NodeLayout) :
    Nat → Iterator K V → Option (List (Wrapped (Record K V)))
  | 0, _ => none
  | fuel + 1, it => do
    match ← it.getCurrent lay with
    | none => return []
    | some w => return w :: (← drain lay fuel it.getNext)

omit [LinearOrder K] [LinearOrder V] in
theorem Iterator.Yields.drain {it : Iterator K V} {l : List (Wrapped (Record K V))}
    (h : it.Yields lay l) {fuel : Nat} (hfuel : l.length < fuel) : it.drain lay fuel = some l := by
  induction fuel generalizing it l with
  | zero => omega
  | succ fuel ih =>
    cases l with
    | nil => simp [Iterator.drain, h.getCurrent]
    | cons w l =>
      rw [List.length_cons] at hfuel
      simp [Iterator.drain, h.getCurrent, ih h.getNext (show l.length < fuel by omega)]

/-- Seeking a key and iterating gives the stored records from the key on, and then
the null pointer. -/
theorem getIterator_exact (lay : NodeLayout) (std : StdLib (Record K V)) (x : Shard lay std)
    (key : K) :
    ∃ it, getIterator lay x.1 key = some it ∧
      it.drain lay (x.1.reccnt + 1) =
        some ((x.1.records lay).filter fun w => key ≤ w.record.key) := by
  have hwf := Shard.wellFormed x
  obtain ⟨it, hit, hyields⟩ := getIterator_spec hwf key
  refine ⟨it, hit, hyields.drain ?_⟩
  rw [hwf.reccnt]
  exact Nat.lt_succ_of_le (List.length_filter_le _ _)

end Seek

section Lookup
variable {std : StdLib (Record K V)}

/-- What `point_lookup` compares when every key of a shard with `n` records is below
`key`: a zero slot of the last page, or what follows the page's slots. -/
def slotPast (lay : NodeLayout) (past : Wrapped (Record K V)) (n : Nat) (key : K) :
    Option (Wrapped (Record K V)) :=
  if n % lay.leafFanout ≠ 0 ∧ key ≤ 0 then some 0
  else if lay.leafFanout * lay.recordSz < lay.nodeSz then some past
  else none

/-- A lookup ends and returns a stored copy of the record if there is one, and
nothing otherwise. -/
def LooksUp (past : Wrapped (Record K V)) (x : Shard lay std) (rec : Record K V) : Prop :=
  ∃ answer, pointLookup lay past x.1 rec = some answer ∧
    match answer with
    | some w => w ∈ x.1.records lay ∧ w.record = rec
    | none => ∀ w ∈ x.1.records lay, w.record ≠ rec

omit [Zero K] [Zero V] in
theorem least_of_head? {recs : List (Wrapped (Record K V))}
    (hs : recs.Pairwise fun a b => a.record ≤ b.record) {key : K} {w : Wrapped (Record K V)}
    (h : (recs.filter fun w => key ≤ w.record.key).head? = some w) :
    (w ∈ recs ∧ key ≤ w.record.key) ∧
      ∀ v ∈ recs, key ≤ v.record.key → w.record ≤ v.record := by
  obtain ⟨l, hl⟩ := List.head?_eq_some_iff.mp h
  have hmem : w ∈ recs.filter fun w => key ≤ w.record.key := by
    rw [hl]
    exact List.mem_cons_self
  refine ⟨by simpa only [List.mem_filter, decide_eq_true_eq] using hmem, fun v hv hvk => ?_⟩
  have hsorted := hs.sublist (List.filter_sublist (p := fun w => decide (key ≤ w.record.key)))
  have hv' : v ∈ recs.filter fun w => key ≤ w.record.key :=
    List.mem_filter.mpr ⟨hv, by simpa using hvk⟩
  rw [hl] at hsorted hv'
  rcases List.mem_cons.mp hv' with rfl | hmem
  · exact le_rfl
  · exact (List.pairwise_cons.mp hsorted).1 v hmem

/-- A lookup is right if and only if a stored record is the least one under its key,
and a record above all keys is not what the search reads behind the last record. -/
theorem looksUp_iff (past : Wrapped (Record K V)) (x : Shard lay std)
    (hne : x.1.records lay ≠ []) (rec : Record K V) :
    LooksUp past x rec ↔
      ((∃ w ∈ x.1.records lay, w.record = rec) →
        ∀ w ∈ x.1.records lay, w.record.key = rec.key → rec ≤ w.record) ∧
      ((∀ w ∈ x.1.records lay, w.record.key < rec.key) →
        ∀ w ∈ slotPast lay past (x.1.records lay).length rec.key, w.record ≠ rec) := by
  have hwf := Shard.wellFormed x
  have hspec := pointLookup_spec hwf hne past rec
  set recs := x.1.records lay with hrecs
  rw [LooksUp, hspec, searchSlot, ← slotPast]
  cases hhead : (recs.filter fun w => rec.key ≤ w.record.key).head? with
  | some w =>
    obtain ⟨⟨hw, hkey⟩, hleast⟩ := least_of_head? hwf.sorted hhead
    have hvac : ¬ ∀ w ∈ recs, w.record.key < rec.key := fun h => absurd (h w hw) (not_lt.mpr hkey)
    by_cases hrec : w.record = rec
    · simp only [Option.filter_some, hrec, decide_true, if_true, Option.some.injEq, exists_eq_left']
      exact iff_of_true ⟨hw, trivial⟩
        ⟨fun _ v hv hvk => hrec ▸ hleast v hv hvk.ge, fun h => absurd h hvac⟩
    · simp only [Option.filter_some, hrec, decide_false, Option.some.injEq, exists_eq_left']
      constructor
      · intro hno
        exact ⟨fun ⟨v, hv, hvr⟩ => absurd hvr (hno v hv), fun h => absurd h hvac⟩
      · rintro ⟨hmin, -⟩ v hv hvr
        have hle : w.record ≤ rec := hvr ▸ hleast v hv (hvr ▸ le_rfl)
        have hge := hmin ⟨v, hv, hvr⟩ w hw (le_antisymm (Record.key_le_of_le hle) hkey)
        exact hrec (le_antisymm hle hge)
  | none =>
    have hbelow : ∀ w ∈ recs, w.record.key < rec.key := by
      have hnil := List.head?_eq_none_iff.mp hhead
      simpa using List.filter_eq_nil_iff.mp hnil
    have hstored : ¬ ∃ w ∈ recs, w.record = rec :=
      fun ⟨w, hw, hwr⟩ => absurd (hwr ▸ hbelow w hw) (lt_irrefl _)
    have hpast : (∀ w ∈ slotPast lay past recs.length rec.key, w.record ≠ rec) ↔
        (slotPast lay past recs.length rec.key).filter (fun w => w.record = rec) = none := by
      simp [Option.filter_eq_none_iff]
    simp only [hpast]
    cases hslot : (slotPast lay past recs.length rec.key).filter fun w => w.record = rec with
    | some w =>
      have hw : w.record = rec := by
        simpa using (Option.filter_eq_some_iff.mp hslot).2
      simp only [Option.some.injEq, exists_eq_left']
      exact iff_of_false (fun h => hstored ⟨w, h.1, hw⟩) fun h => absurd (h.2 hbelow) (by simp)
    | none =>
      simp only [Option.some.injEq, exists_eq_left']
      exact iff_of_true (fun w hw hwr => hstored ⟨w, hw, hwr⟩)
        ⟨fun h => absurd h hstored, fun _ => trivial⟩

/-- The shard of a view with these insertions and deletions, as the framework holds it -/
def sampleTree (l : List (Nat × Nat × Bool)) :
    Shard NodeLayout.words (StdLib.sorted (Record Nat Nat)) :=
  ⟨sampleShard l, built_bufferShard _⟩

theorem looksUp_iff_sample :
    LooksUp 0 (sampleTree [(2, 6, false), (1, 5, false), (1, 7, false)]) ⟨1, 5⟩ := by
  refine (looksUp_iff 0 _ (by decide +kernel) ⟨1, 5⟩).mpr
    ⟨fun _ => by decide +kernel, fun h => ?_⟩
  exact absurd h (by decide +kernel)

/-- A stored record with a smaller value under its key is not found. -/
theorem not_looksUp :
    (∃ w ∈ (sampleTree [(1, 5, false), (1, 7, false)]).1.records NodeLayout.words,
      w.record = ⟨1, 7⟩) ∧
    ¬ LooksUp 0 (sampleTree [(1, 5, false), (1, 7, false)]) ⟨1, 7⟩ := by
  have hstored : ∃ w ∈ (sampleTree [(1, 5, false), (1, 7, false)]).1.records NodeLayout.words,
      w.record = ⟨1, 7⟩ := by decide +kernel
  refine ⟨hstored, ?_⟩
  rintro ⟨answer, hrun, hright⟩
  have hnone : pointLookup NodeLayout.words 0
      (sampleTree [(1, 5, false), (1, 7, false)]).1 ⟨1, 7⟩ = some none := by decide +kernel
  obtain rfl : none = answer := Option.some.inj (hnone.symm.trans hrun)
  obtain ⟨w, hw, hwr⟩ := hstored
  exact hright w hw hwr

end Lookup

end ISAMTree

end De
