import DynamicExtension.UpperBound
set_option autoImplicit false

namespace De
variable {K V : Type}

section Walk
variable {lastDataPage : Nat} {next : Nat → Option (Option Nat)}

/-- The loop `while (!is_leaf(now))` with the pages that it reads as index pages. `next` is the
page that an iteration goes to; its inner `none` is the `break` out of the loop. -/
def walk (lastDataPage : Nat) (next : Nat → Option (Option Nat)) :
    Nat → Nat → Option (List Nat × Nat)
  | 0, _ => none
  | fuel + 1, now =>
    if 1 ≤ now ∧ now ≤ lastDataPage then some ([], now)
    else match next now with
      | none => none
      | some none => some ([now], now)
      | some (some p) => (walk lastDataPage next fuel p).map fun r => (now :: r.1, r.2)

theorem walk_mono {fuel fuel' now : Nat} {r : List Nat × Nat} (hle : fuel ≤ fuel')
    (h : walk lastDataPage next fuel now = some r) :
    walk lastDataPage next fuel' now = some r := by
  induction fuel generalizing fuel' now r with
  | zero => cases h
  | succ fuel ih =>
    obtain ⟨fuel', rfl⟩ := Nat.exists_eq_succ_of_ne_zero (by omega : fuel' ≠ 0)
    rw [walk] at h ⊢
    split
    · rwa [if_pos ‹_›] at h
    · rw [if_neg ‹_›] at h
      cases hnext : next now with
      | none => rw [hnext] at h; cases h
      | some p =>
        rw [hnext] at h
        cases p with
        | none => exact h
        | some p =>
          obtain ⟨r', hr', rfl⟩ := Option.map_eq_some_iff.mp h
          simp only [ih (Nat.le_of_succ_le_succ hle) hr', Option.map_some]

/-- A walk that goes down one level an iteration ends after as many pages as there are
levels. -/
theorem walk_spec (Level : Nat → Nat → Prop) {Index : Nat → Prop}
    (hleaf : ∀ p, Level 0 p → 1 ≤ p ∧ p ≤ lastDataPage)
    (hstep : ∀ d p, Level (d + 1) p → lastDataPage < p ∧ Index p ∧
      ∃ c, next p = some (some c) ∧ Level d c)
    {d fuel p : Nat} (h : Level d p) (hfuel : d < fuel) :
    ∃ reads q, walk lastDataPage next fuel p = some (reads, q) ∧ reads.length = d ∧
      ∀ p ∈ reads, Index p := by
  induction d generalizing fuel p with
  | zero =>
    obtain ⟨fuel, rfl⟩ := Nat.exists_eq_succ_of_ne_zero (by omega : fuel ≠ 0)
    exact ⟨[], p, by rw [walk, if_pos (hleaf p h)], rfl, by simp⟩
  | succ d ih =>
    obtain ⟨fuel, rfl⟩ := Nat.exists_eq_succ_of_ne_zero (by omega : fuel ≠ 0)
    obtain ⟨hlast, hindex, c, hc, hlevel⟩ := hstep d p h
    obtain ⟨reads, q, hrun, hlen, hreads⟩ := ih hlevel (by omega : d < fuel)
    refine ⟨p :: reads, q, ?_, by simp [hlen], ?_⟩
    · rw [walk, if_neg (by omega), hc]
      simp only [hrun, Option.map_some]
    · intro p' hp'
      rcases List.mem_cons.mp hp' with rfl | hmem
      · exact hindex
      · exact hreads p' hmem

end Walk

section Next
variable [LinearOrder K]

def File.IsIndex (fd : File K V) (p : Nat) : Prop := ∃ es, fd p = some (.node es)

/-- An iteration of the loop of `get_lower_bound`. Child 0 of the header page and of bytes past
the file is 0. -/
def lowerNext (fd : File K V) (key : K) (now : Nat) : Option (Option Nat) :=
  match fd now with
  | some (.node es) => some (some (pickChild key es))
  | some (.data _) => none
  | _ => some (some 0)

/-- An iteration of the loop of `get_upper_bound`, which ends when child 0 is 0. -/
def upperNext [Zero K] (lay : NodeLayout) (fd : File K V) (key : K) (now : Nat) :
    Option (Option Nat) :=
  match fd now with
  | some (.node es) =>
    let next := (es.head?.map Prod.snd).getD 0
    some (if next = 0 then none else some (nextUpper key lay.internalFanout next es))
  | some (.data _) => none
  | _ => some none

/-- `descend` is the walk of `get_lower_bound` as long as that reads index pages only. -/
theorem descend_eq_some_iff {lastDataPage : Nat} {fd : File K V} {key : K} {fuel now q : Nat} :
    descend lastDataPage fd key fuel now = some q ↔
      ∃ reads, walk lastDataPage (lowerNext fd key) fuel now = some (reads, q) ∧
        ∀ p ∈ reads, fd.IsIndex p := by
  induction fuel generalizing now with
  | zero => simp [descend, walk]
  | succ fuel ih =>
    -- a page that is no index page would be among those read
    have hskip : ∀ c, ¬ fd.IsIndex now → ¬ ∃ reads,
        (walk lastDataPage (lowerNext fd key) fuel c).map (fun r => (now :: r.1, r.2)) =
          some (reads, q) ∧ ∀ p ∈ reads, fd.IsIndex p := by
      rintro c hnot ⟨reads, hrun, hindex⟩
      obtain ⟨r, -, hr⟩ := Option.map_eq_some_iff.mp hrun
      exact hnot (hindex now (by simp [← (Prod.mk.inj hr).1]))
    rw [descend, walk]
    split
    · simp [eq_comm]
    · cases hpage : fd now with
      | none => simpa [lowerNext, hpage] using hskip 0 (by simp [File.IsIndex, hpage])
      | some page =>
        cases page with
        | data recs => simp [lowerNext, hpage]
        | header a b c n => simpa [lowerNext, hpage] using hskip 0 (by simp [File.IsIndex, hpage])
        | node es =>
          simp only [lowerNext, hpage, ih]
          constructor
          · rintro ⟨reads, hrun, hindex⟩
            refine ⟨now :: reads, by simp [hrun], fun p hp => ?_⟩
            rcases List.mem_cons.mp hp with rfl | hmem
            · exact ⟨es, hpage⟩
            · exact hindex p hmem
          · rintro ⟨reads, hrun, hindex⟩
            obtain ⟨⟨reads', q'⟩, hrun', hr⟩ := Option.map_eq_some_iff.mp hrun
            obtain ⟨rfl, rfl⟩ := Prod.mk.inj hr
            exact ⟨reads', hrun', fun p hp => hindex p (List.mem_cons_of_mem _ hp)⟩

/-- The walk of `get_upper_bound` ends on a data page or on a page it reads. -/
theorem walk_of_descendUpper [Zero K] {lay : NodeLayout} {lastDataPage : Nat} {fd : File K V}
    {key : K} {fuel now q : Nat}
    (h : descendUpper lay lastDataPage fd key fuel now = some q) :
    ∃ reads, walk lastDataPage (upperNext lay fd key) fuel now = some (reads, q) ∧
      ((1 ≤ q ∧ q ≤ lastDataPage) ∨ q ∈ reads) := by
  induction fuel generalizing now with
  | zero => cases h
  | succ fuel ih =>
    rw [descendUpper] at h
    rw [walk]
    split at h
    · rename_i hleaf
      obtain rfl := Option.some.inj h
      exact ⟨[], by rw [if_pos hleaf], .inl hleaf⟩
    · rename_i hleaf
      rw [if_neg hleaf]
      split at h
      · rename_i es hpage
        simp only [upperNext, hpage]
        simp only at h
        split at h
        · rename_i hzero
          obtain rfl := Option.some.inj h
          exact ⟨[now], by simp [hzero], .inr (by simp)⟩
        · rename_i hne
          obtain ⟨reads, hrun, hend⟩ := ih h
          refine ⟨now :: reads, by simp [hne, hrun], hend.imp_right (List.mem_cons_of_mem _)⟩
      · rename_i hpage
        obtain rfl := Option.some.inj h
        exact ⟨[now], by simp [upperNext, hpage], .inr (by simp)⟩
      · cases h

end Next

section Levels
variable {lay : NodeLayout} {recs : List (Wrapped (Record K V))} {lastDataPage : Nat}
  {fd : File K V}

/-- The number of index pages from page `p` down the first children -/
def indexLevels (lastDataPage : Nat) (fd : File K V) : Nat → Nat → Nat
  | 0, _ => 0
  | fuel + 1, p =>
    if 1 ≤ p ∧ p ≤ lastDataPage then 0
    else match fd p with
      | some (.node (e :: _)) => indexLevels lastDataPage fd fuel e.2 + 1
      | _ => 0

theorem Covers.indexLevels {d p lo hi : Nat} (h : Covers lay recs lastDataPage fd d p lo hi)
    {fuel : Nat} (hfuel : d < fuel) : indexLevels lastDataPage fd fuel p = d := by
  induction d generalizing fuel p lo hi with
  | zero =>
    obtain ⟨fuel, rfl⟩ := Nat.exists_eq_succ_of_ne_zero (by omega : fuel ≠ 0)
    obtain ⟨-, -, h1, hle⟩ := h
    rw [De.indexLevels, if_pos ⟨h1, hle⟩]
  | succ d ih =>
    obtain ⟨fuel, rfl⟩ := Nat.exists_eq_succ_of_ne_zero (by omega : fuel ≠ 0)
    obtain ⟨hlast, es, hes, hne, -, -, hc⟩ := h
    cases es with
    | nil => exact absurd rfl hne
    | cons e es =>
      obtain ⟨mid, hcov, -⟩ := hc
      rw [De.indexLevels, if_neg (by omega), hes]
      simp only [ih hcov (by omega : d < fuel)]

theorem Chain.exists_part {P : Nat → Nat → Nat → Prop} {key : Nat → K → Prop}
    {es : List (K × Nat)} {lo hi : Nat} (hc : Chain P key es lo hi) {e : K × Nat} (he : e ∈ es) :
    ∃ lo hi, P e.2 lo hi := by
  induction es generalizing lo with
  | nil => cases he
  | cons e' es ih =>
    obtain ⟨mid, hp, -, -, hc⟩ := hc
    rcases List.mem_cons.mp he with rfl | he
    · exact ⟨lo, mid, hp⟩
    · exact ih hc he

/-- Page `q` is `p` or under it. -/
inductive File.Under (fd : File K V) : Nat → Nat → Prop
  | here (p : Nat) : Under fd p p
  | child {p q : Nat} {es : List (K × Nat)} {e : K × Nat} (hes : fd p = some (.node es))
      (he : e ∈ es) (hq : Under fd e.2 q) : Under fd p q

theorem Covers.le_of_under (hf : Holds lay.leafFanout 1 fd recs)
    (hlast : lastDataPage = pageCount lay.leafFanout recs.length) {d p lo hi q : Nat}
    (h : Covers lay recs lastDataPage fd d p lo hi) (hq : fd.Under p q) : q ≤ p := by
  induction d generalizing p lo hi with
  | zero =>
    obtain ⟨-, -, h1, hle⟩ := h
    cases hq with
    | here => exact le_rfl
    | child hes =>
      have hdata := hf (p - 1) ((lt_pageCount_iff lay.leafFanout_pos).mp (by omega))
      rw [Nat.sub_add_cancel h1, hes] at hdata
      cases hdata
  | succ d ih =>
    obtain ⟨-, es, hes, -, -, hlt, hc⟩ := h
    cases hq with
    | here => exact le_rfl
    | child hes' he hq =>
      obtain rfl := Page.node.inj (Option.some.inj (hes.symm.trans hes'))
      obtain ⟨lo', hi', hcov⟩ := hc.exists_part he
      exact (ih hcov hq).trans (hlt _ he).le

variable [LinearOrder K]

theorem Covers.walkLower (key : K) {d p lo hi : Nat}
    (h : Covers lay recs lastDataPage fd d p lo hi) {fuel : Nat} (hfuel : d < fuel) :
    ∃ reads q, walk lastDataPage (lowerNext fd key) fuel p = some (reads, q) ∧
      reads.length = d ∧ ∀ p ∈ reads, fd.IsIndex p := by
  refine walk_spec (fun d p => ∃ lo hi, Covers lay recs lastDataPage fd d p lo hi)
    (fun p => ?_) (fun d p => ?_) ⟨lo, hi, h⟩ hfuel
  · rintro ⟨lo, hi, -, -, hleaf⟩
    exact hleaf
  · rintro ⟨lo, hi, hlast, es, hes, hne, -, -, hc⟩
    obtain ⟨a, b, hcov, -⟩ := pickChild_spec key hne hc
    exact ⟨hlast, ⟨es, hes⟩, _, by simp [lowerNext, hes], a, b, hcov⟩

variable [Zero K]

theorem upperNext_node {key : K} {p : Nat} {es : List (K × Nat)} (hes : fd p = some (.node es))
    (hfirst : (es.head?.map Prod.snd).getD 0 ≠ 0) :
    upperNext lay fd key p =
      some (some (nextUpper key lay.internalFanout ((es.head?.map Prod.snd).getD 0) es)) := by
  simp only [upperNext, hes, if_neg hfirst]

theorem Covers.walkUpper_of_reached {key : K} {d p lo hi : Nat}
    (h : Covers lay recs lastDataPage fd d p lo hi)
    (hreach : ∃ k, LastKey lay recs hi k ∧ key ≤ k) {fuel : Nat} (hfuel : d < fuel) :
    ∃ reads q, walk lastDataPage (upperNext lay fd key) fuel p = some (reads, q) ∧
      reads.length = d ∧ ∀ p ∈ reads, fd.IsIndex p := by
  refine walk_spec (fun d p => ∃ lo hi, Covers lay recs lastDataPage fd d p lo hi ∧
    ∃ k, LastKey lay recs hi k ∧ key ≤ k) (fun p => ?_) (fun d p => ?_) ⟨lo, hi, h, hreach⟩ hfuel
  · rintro ⟨lo, hi, ⟨-, -, hleaf⟩, -⟩
    exact hleaf
  · rintro ⟨lo, hi, ⟨hlast, es, hes, hne, hlen, -, hc⟩, hreach⟩
    obtain ⟨e, he⟩ := Option.isSome_iff_exists.mp (List.getLast?_isSome.mpr hne)
    have hfound : ∃ e ∈ es, key ≤ e.1 := by
      obtain ⟨k, hk, hle⟩ := hreach
      exact ⟨e, List.mem_of_getLast? he, (hc.lastKey he).unique hk ▸ hle⟩
    obtain ⟨a, b, hcov, -, -, -, -, -, hstop⟩ := pickChild_spec key hne hc
    refine ⟨hlast, ⟨es, hes⟩, _, upperNext_node hes (Covers.head_ne_zero hne hc), a, b, ?_, ?_⟩
    · rwa [nextUpper_eq_pickChild hfound hlen]
    · rcases hstop with rfl | hstop
      · exact hreach
      · exact hstop

theorem Covers.walkUpper_of_full {key : K} {d p lo hi : Nat}
    (h : Covers lay recs lastDataPage fd d p lo hi)
    (habove : ∀ hi k, LastKey lay recs hi k → k < key)
    (hfull : RightFull lay lastDataPage fd p) {fuel : Nat} (hfuel : d < fuel) :
    ∃ reads q, walk lastDataPage (upperNext lay fd key) fuel p = some (reads, q) ∧
      reads.length = d ∧ ∀ p ∈ reads, fd.IsIndex p := by
  refine walk_spec (fun d p => (∃ lo hi, Covers lay recs lastDataPage fd d p lo hi) ∧
    RightFull lay lastDataPage fd p) (fun p => ?_) (fun d p => ?_) ⟨⟨lo, hi, h⟩, hfull⟩ hfuel
  · rintro ⟨⟨lo, hi, -, -, hleaf⟩, -⟩
    exact hleaf
  · rintro ⟨⟨lo, hi, hlast, es, hes, hne, hlen, hlt, hc⟩, hfull⟩
    obtain ⟨e, he⟩ := Option.isSome_iff_exists.mp (List.getLast?_isSome.mpr hne)
    have hsmall : ∀ e ∈ es, e.1 < key := by
      intro e he
      obtain ⟨mid, hk⟩ := hc.exists_key he
      exact habove mid _ hk
    obtain ⟨hF, hrest⟩ := (rightFull_iff hlast hes he (hlt e (List.mem_of_getLast? he))).mp hfull
    obtain ⟨mid, hcov⟩ := hc.last he
    refine ⟨hlast, ⟨es, hes⟩, _, upperNext_node hes (Covers.head_ne_zero hne hc), ?_⟩
    rw [nextUpper_of_above hsmall hlen, if_pos hF, he, Option.map_some, Option.getD_some]
    exact ⟨⟨mid, hi, hcov⟩, hrest⟩

end Levels

namespace ISAMTree
variable [LinearOrder K] [LinearOrder V] {lay : NodeLayout} {std : StdLib (Record K V)}

def levels (t : ISAMTree K V) : Nat := indexLevels t.lastDataPage t.fd (t.rootPage + 1) t.rootPage

/-- The loop ends, after at most one iteration more than there are index levels, and reads
index pages of the file only. -/
def Descends (t : ISAMTree K V) (next : Nat → Option (Option Nat)) : Prop :=
  ∃ fuel reads now, walk t.lastDataPage next fuel t.rootPage = some (reads, now) ∧
    reads.length ≤ t.levels + 1 ∧ ∀ p ∈ reads, t.fd.IsIndex p

variable [Zero K]

def SearchesEnd (x : Shard lay std) (key : K) : Prop :=
  Descends x.1 (lowerNext x.1.fd key) ∧ Descends x.1 (upperNext lay x.1.fd key)

omit [Zero K] in
/-- On a tree without records the loop of `get_lower_bound` goes from the header page to the
header page for ever. -/
theorem walk_lower_noRecords {t : ISAMTree K V} (h : WellFormed lay t []) (key : K) (fuel : Nat) :
    walk t.lastDataPage (lowerNext t.fd key) fuel t.rootPage = none := by
  have hroot : t.rootPage = 0 := h.noRoot rfl
  have hnext : lowerNext t.fd key 0 = some (some 0) := by simp [lowerNext, h.header]
  induction fuel with
  | zero => rfl
  | succ fuel ih =>
    rw [hroot] at ih ⊢
    rw [walk, if_neg (by omega), hnext]
    simp only [ih, Option.map_none]

omit [LinearOrder K] [LinearOrder V] [Zero K] in
theorem not_descends_of_reads {t : ISAMTree K V} {next : Nat → Option (Option Nat)}
    {fuel p now : Nat} {reads : List Nat}
    (hrun : walk t.lastDataPage next fuel t.rootPage = some (reads, now)) (hp : p ∈ reads)
    (hno : ¬ t.fd.IsIndex p) : ¬ Descends t next := by
  rintro ⟨fuel', reads', now', hrun', -, hindex⟩
  have hsame := (walk_mono (le_max_left fuel fuel') hrun).symm.trans
    (walk_mono (le_max_right fuel fuel') hrun')
  obtain ⟨rfl, rfl⟩ := Prod.mk.inj (Option.some.inj hsame)
  exact hno (hindex p hp)

/-- The loops end as they should if and only if the shard has records and, when the key is above
them all, the data pages are a power of the internal fanout in number. -/
theorem searchesEnd_iff (x : Shard lay std) (key : K) :
    SearchesEnd x key ↔ x.1.records lay ≠ [] ∧ ((∃ w ∈ x.1.records lay, key ≤ w.record.key) ∨
      ∃ k, x.1.lastDataPage = lay.internalFanout ^ k) := by
  have hwf := Shard.wellFormed x
  set recs := x.1.records lay with hrecs
  by_cases hne : recs = []
  · rw [hne] at hwf ⊢
    refine iff_of_false ?_ fun h => h.1 rfl
    rintro ⟨⟨fuel, reads, now, hrun, -⟩, -⟩
    rw [walk_lower_noRecords hwf] at hrun
    cases hrun
  obtain ⟨d, hd, hcov⟩ := hwf.index hne
  have hfuel : d < x.1.rootPage + 1 := by omega
  have hlevels : x.1.levels = d := hcov.indexLevels hfuel
  have hlower : Descends x.1 (lowerNext x.1.fd key) := by
    obtain ⟨reads, q, hrun, hlen, hindex⟩ := hcov.walkLower key hfuel
    exact ⟨_, reads, q, hrun, by omega, hindex⟩
  rw [SearchesEnd, and_iff_right hlower, and_iff_right hne]
  by_cases hreach : ∃ w ∈ recs, key ≤ w.record.key
  · obtain ⟨reads, q, hrun, hlen, hindex⟩ :=
      hcov.walkUpper_of_reached (hwf.lastKey hreach) hfuel
    exact iff_of_true ⟨_, reads, q, hrun, by omega, hindex⟩ (.inl hreach)
  · have habove : ∀ hi k, LastKey lay recs hi k → k < key := by
      rintro hi k ⟨w, hw, rfl⟩
      exact lt_of_not_ge fun hle => hreach ⟨w, List.mem_of_getElem? hw, hle⟩
    have hpages : 1 ≤ x.1.lastDataPage := by
      rw [hwf.lastDataPage]
      exact (lt_pageCount_iff lay.leafFanout_pos).mpr
        (by simpa using List.length_pos_iff.mpr hne)
    rw [or_iff_right hreach, ← Built.full x.2 hpages]
    constructor
    · intro hdescends
      by_contra hnot
      -- the walk ends on the header page, which it read
      obtain ⟨q, hq, -, hzero⟩ := descendUpper_of_above habove hwf.header (x.1.rootPage + 1) d
        x.1.rootPage 1 (x.1.lastDataPage + 1) hcov hfuel
      obtain ⟨reads, hrun, hend⟩ := walk_of_descendUpper hq
      obtain rfl := hzero hnot
      refine not_descends_of_reads hrun (hend.resolve_left (by omega)) ?_ hdescends
      simp [File.IsIndex, hwf.header]
    · intro hfull
      obtain ⟨reads, q, hrun, hlen, hindex⟩ := hcov.walkUpper_of_full habove hfull hfuel
      exact ⟨_, reads, q, hrun, by omega, hindex⟩

/-- A shard whose two records cancelled, where the loop of `get_lower_bound` does not end; and a
shard of two data pages, where the loop of `get_upper_bound` reads the header page. -/
theorem not_searchesEnd :
    (∀ fuel, walk (sampleTree [(1, 5, false), (1, 5, true)]).1.lastDataPage
        (lowerNext (sampleTree [(1, 5, false), (1, 5, true)]).1.fd 1) fuel
        (sampleTree [(1, 5, false), (1, 5, true)]).1.rootPage = none) ∧
      ¬ SearchesEnd (sampleTree [(1, 5, false), (1, 5, true)]) 1 ∧
      ¬ SearchesEnd (sampleTree ((List.range 171).map fun i => (1, i, false))) 2 := by
  have hnil : (sampleTree [(1, 5, false), (1, 5, true)]).1.records NodeLayout.words = [] := by
    decide +kernel
  have hwf := Shard.wellFormed (sampleTree [(1, 5, false), (1, 5, true)])
  rw [hnil] at hwf
  have hloop := fun fuel => walk_lower_noRecords hwf 1 fuel
  refine ⟨hloop, ?_, fun h => ?_⟩
  · rintro ⟨⟨fuel, reads, now, hrun, -⟩, -⟩
    rw [hloop] at hrun
    cases hrun
  · have hrun : let t := (sampleTree ((List.range 171).map fun i => (1, i, false))).1
        walk t.lastDataPage (upperNext NodeLayout.words t.fd 2) (t.rootPage + 1) t.rootPage =
          some ([3, 0], 0) := by decide +kernel
    refine not_descends_of_reads hrun (List.mem_of_getElem? (show [3, 0][1]? = some 0 from rfl))
      ?_ h.2
    have hwf := Shard.wellFormed (sampleTree ((List.range 171).map fun i => (1, i, false)))
    simp [File.IsIndex, hwf.header]

section RecordAt
variable {K V : Type} [LinearOrder K] [LinearOrder V] [Zero K] [Zero V] {lay : NodeLayout}
  {std : StdLib (Record K V)}

omit [LinearOrder K] [LinearOrder V] in
/-- `get_record_at` with a page buffer. A `PageNum` has 32 bits. `raw` is what the slots of a
page that is no data page read as. -/
def getRecordAt (lay : NodeLayout) (raw : Nat → Nat → Wrapped (Record K V)) (t : ISAMTree K V)
    (idx : Nat) : Option (Wrapped (Record K V)) :=
  let pageNum := (idx / lay.leafFanout + 1) % 2 ^ 32
  if pageNum > t.rootPage then none
  else
    let idxInPage := idx % lay.leafFanout
    if idxInPage ≥ lay.leafFanout then none
    else match t.fd pageNum with
      | some (.data recs) => some (pageSlot recs idxInPage)
      | _ => some (raw pageNum idxInPage)

/-- Index `i` has the `i`-th of the records that an `Iterator` from index 0 on yields, and
`nullptr` past them. -/
def AgreesAt (raw : Nat → Nat → Wrapped (Record K V)) (x : Shard lay std) (i : Nat) : Prop :=
  ∃ l, (⟨x.1.fd, 0, x.1.reccnt⟩ : Iterator K V).drain lay (x.1.reccnt + 1) = some l ∧
    l.length = x.1.reccnt ∧ getRecordAt lay raw x.1 i = l[i]?

omit [LinearOrder K] [LinearOrder V] [Zero K] [Zero V] in
theorem Covers.last_le {recs : List (Wrapped (Record K V))} {fd : File K V}
    {lastDataPage d p lo : Nat} (h : Covers lay recs lastDataPage fd d p lo (lastDataPage + 1)) :
    lastDataPage ≤ p := by
  cases d with
  | zero =>
    obtain ⟨-, hhi, -⟩ := h
    omega
  | succ d => exact h.1.le

omit [Zero K] [Zero V] in
/-- Where the last page is before `2 ^ 32`, a `PageNum` holds the number of every page. -/
theorem pageNums (x : Shard lay std) (hroot : x.1.rootPage < 2 ^ 32) :
    x.1.lastDataPage < 2 ^ 32 ∧ ∀ q, x.1.fd.Under x.1.rootPage q → q < 2 ^ 32 := by
  have hwf := Shard.wellFormed x
  by_cases hne : x.1.records lay = []
  · have hlast : x.1.lastDataPage = 0 := by
      rw [hwf.lastDataPage, hne]
      exact Nat.eq_zero_of_not_pos fun h =>
        absurd ((lt_pageCount_iff lay.leafFanout_pos).mp h) (by simp)
    refine ⟨by omega, fun q hq => ?_⟩
    rw [hwf.noRoot hne] at hq
    cases hq with
    | here => decide
    | child hes => exact absurd (hwf.header.symm.trans hes) nofun
  · obtain ⟨d, -, hcov⟩ := hwf.index hne
    exact ⟨(Covers.last_le hcov).trans_lt hroot,
      fun q hq => (hcov.le_of_under hwf.holds hwf.lastDataPage hq).trans_lt hroot⟩

/-- The two ways of access agree on the stored records, and past them if and only if the page of
the index is past the root page. -/
theorem agreesAt_iff (raw : Nat → Nat → Wrapped (Record K V)) (x : Shard lay std)
    (hroot : x.1.rootPage < 2 ^ 32) (i : Nat) :
    AgreesAt raw x i ↔
      i < x.1.reccnt ∨ x.1.rootPage < (i / lay.leafFanout + 1) % 2 ^ 32 := by
  have hwf := Shard.wellFormed x
  have hpos := lay.leafFanout_pos
  set recs := x.1.records lay with hrecs
  have hdrain : (⟨x.1.fd, 0, x.1.reccnt⟩ : Iterator K V).drain lay (x.1.reccnt + 1) =
      some recs := by
    have hyields : (⟨x.1.fd, 0, x.1.reccnt⟩ : Iterator K V).Yields lay recs :=
      ⟨recs, hwf.holds, hwf.reccnt, rfl⟩
    exact hyields.drain (by rw [hwf.reccnt]; exact Nat.lt_succ_self _)
  have hagrees : AgreesAt raw x i ↔ getRecordAt lay raw x.1 i = recs[i]? := by
    rw [AgreesAt, hdrain]
    simp [hwf.reccnt]
  have hslot := Nat.mod_lt i hpos
  rw [hagrees, getRecordAt]
  simp only [if_neg (not_le.mpr hslot)]
  by_cases hi : i < x.1.reccnt
  · refine iff_of_true ?_ (.inl hi)
    rw [hwf.reccnt] at hi
    have hin : i / lay.leafFanout * lay.leafFanout < recs.length :=
      lt_of_le_of_lt (Nat.div_mul_le_self _ _) hi
    have hlast : i / lay.leafFanout < x.1.lastDataPage := by
      rw [hwf.lastDataPage]
      exact (lt_pageCount_iff hpos).mpr hin
    obtain ⟨d, -, hcov⟩ := hwf.index (List.ne_nil_of_length_pos (by omega))
    have hle := Covers.last_le hcov
    rw [Nat.mod_eq_of_lt (by omega), if_neg (by omega), hwf.holds _ hin]
    simp only [pageSlot_pageOf _ _ hslot, Nat.div_add_mod']
    rw [List.getD_eq_getElem?_getD, List.getElem?_eq_getElem hi, Option.getD_some]
  · rw [or_iff_right hi, List.getElem?_eq_none (by rw [← hwf.reccnt]; omega)]
    by_cases hpast : x.1.rootPage < (i / lay.leafFanout + 1) % 2 ^ 32
    · rw [if_pos hpast]
      exact iff_of_true rfl hpast
    · rw [if_neg hpast]
      refine iff_of_false ?_ hpast
      split <;> simp

theorem agreesAt_iff_sample :
    AgreesAt (fun _ _ => 0) (sampleTree [(2, 6, false), (1, 5, false), (1, 7, false)]) 2 :=
  (agreesAt_iff _ _ (by decide +kernel) 2).mpr (.inl (by decide +kernel))

/-- A shard of one record has a zero record at index 1. -/
theorem not_agreesAt :
    getRecordAt NodeLayout.words (fun _ _ => 0) (sampleTree [(1, 5, false)]).1 1 = some 0 ∧
      ¬ AgreesAt (fun _ _ => 0) (sampleTree [(1, 5, false)]) 1 := by
  have hrun : getRecordAt NodeLayout.words (fun _ _ => 0) (sampleTree [(1, 5, false)]).1 1 =
      some 0 := by decide +kernel
  have hcnt : (sampleTree [(1, 5, false)]).1.reccnt = 1 := by decide +kernel
  refine ⟨hrun, ?_⟩
  rintro ⟨l, -, hlen, hat⟩
  rw [hrun, List.getElem?_eq_none (by omega)] at hat
  cases hat

end RecordAt

end ISAMTree

end De
