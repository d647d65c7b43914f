import DynamicExtension.RangeScan
set_option autoImplicit false

namespace De
variable {K V : Type} [LinearOrder K] [LinearOrder V]

namespace Call

/-- The record that is live under a key after the calls -/
def liveAt (calls : List (Call (Record K V))) (key : K) : Option (Record K V) :=
  calls.foldl (fun live c =>
    if c.record.key = key then if c.tombstone then none else some c.record else live) none

/-- An insert finds no live record under its key, and an erase names the live one. -/
def Keyed (calls : List (Call (Record K V))) : Prop :=
  ∀ (i : Nat) c, calls[i]? = some c →
    liveAt (calls.take i) c.record.key = if c.tombstone then some c.record else none

instance (calls : List (Call (Record K V))) : Decidable (Keyed calls) :=
  decidable_of_iff (∀ i < calls.length, ∀ c ∈ calls[i]?,
    liveAt (calls.take i) c.record.key = if c.tombstone then some c.record else none)
    ⟨fun h i c hc => h i (List.getElem?_eq_some_iff.mp hc).1 c hc, fun h i _ c hc => h i c hc⟩

omit [LinearOrder V] in
theorem liveAt_append (calls : List (Call (Record K V))) (c : Call (Record K V)) (key : K) :
    liveAt (calls ++ [c]) key =
      if c.record.key = key then if c.tombstone then none else some c.record
      else liveAt calls key := by
  simp [liveAt, List.foldl_append]

omit [LinearOrder V] in
theorem Keyed.last {calls : List (Call (Record K V))} {c : Call (Record K V)}
    (h : Keyed (calls ++ [c])) : Keyed calls ∧
      liveAt calls c.record.key = if c.tombstone then some c.record else none := by
  constructor
  · intro i d hd
    have hlt := (List.getElem?_eq_some_iff.mp hd).1
    have hlast := h i d (by rw [List.getElem?_append_left hlt, hd])
    rwa [List.take_append_of_le_length hlt.le] at hlast
  · have hlast := h calls.length c (by simp)
    rwa [List.take_left] at hlast

/-- Under keyed calls the live record is the one that was inserted more often than
erased, and that by one. -/
theorem Keyed.count {calls : List (Call (Record K V))} (h : Keyed calls) (r : Record K V) :
    calls.count (.insert r) =
      calls.count (.erase r) + if liveAt calls r.key = some r then 1 else 0 := by
  induction calls using List.reverseRecOn with
  | nil => simp [liveAt]
  | append_singleton calls c ih =>
    obtain ⟨hinit, hlive⟩ := h.last
    have hcount := ih hinit
    rw [List.count_append, List.count_append, hcount, liveAt_append]
    cases c with
    | insert rec =>
      by_cases hr : rec = r
      · subst hr
        simp_all [record, tombstone]
      · by_cases hk : rec.key = r.key
        · have hold : liveAt calls r.key = none := by simpa [record, tombstone, hk] using hlive
          simp [record, tombstone, hk, hr, hold]
        · simp [record, hk, hr]
    | erase rec =>
      by_cases hr : rec = r
      · subst hr
        simp_all [record, tombstone]
      · by_cases hk : rec.key = r.key
        · have hold : liveAt calls r.key = some rec := by simpa [record, tombstone, hk] using hlive
          simp [record, tombstone, hk, hr, hold]
        · simp [record, hk, hr]

end Call

variable [Zero K] [Zero V] {lay : NodeLayout} {std : StdLib (Record K V)} {L : LayoutPolicy}

namespace PointLookup

section Defs

def localQueryBuffer (searchKey : K) (buffer : BufferView (Record K V)) :
    List (Wrapped (Record K V)) :=
  (buffer.records.find? fun w => w.record.key = searchKey).toList

/-- `past` is what lies behind the whole slots of the scratch page when a shard
has been read into it. -/
def localQuery (past : (ISAMTree.shardType lay std).Shard → Wrapped (Record K V)) (searchKey : K)
    (shard : (ISAMTree.shardType lay std).Shard) : Option (List (Wrapped (Record K V))) := do
  let r ← ISAMTree.pointLookup lay (past shard) shard.1 ⟨searchKey, 0⟩
  return r.toList

/-- The local queries under `EARLY_ABORT`; the results after the first with an
entry stay empty. -/
def localQueries (past : (ISAMTree.shardType lay std).Shard → Wrapped (Record K V))
    (searchKey : K) :
    List (ISAMTree.shardType lay std).Shard → Option (List (List (Wrapped (Record K V))))
  | [] => some []
  | shard :: shards => do
    let result ← localQuery past searchKey shard
    if result.length > 0 then
      return result :: shards.map fun _ => []
    else
      return result :: (← localQueries past searchKey shards)

def combine {R : Type} : List (List (Wrapped R)) → List R
  | [] => []
  | [] :: rs => combine rs
  | (w :: _) :: _ => if w.isDeleted || w.isTombstone then [] else [w.record]

/-- What `async_query` computes for a lookup of a key -/
def query (past : (ISAMTree.shardType lay std).Shard → Wrapped (Record K V)) (searchKey : K)
    (view : BufferView (Record K V)) (shards : List (ISAMTree.shardType lay std).Shard) :
    Option (List (Record K V)) := do
  let result := localQueryBuffer searchKey view
  if result.length > 0 then
    return combine (result :: shards.map fun _ => [])
  else
    return combine (result :: (← localQueries past searchKey shards))

end Defs

/-- The record that a stored copy stands for -/
def shown {R : Type} (w : Wrapped R) : Option R :=
  if w.isDeleted || w.isTombstone then none else some w.record

/-- The slot at the lower bound of a key, if it holds the key with the value 0 -/
def match? (past : (ISAMTree.shardType lay std).Shard → Wrapped (Record K V)) (searchKey : K)
    (shard : (ISAMTree.shardType lay std).Shard) : Option (Wrapped (Record K V)) :=
  (ISAMTree.searchSlot lay (past shard) ((ISAMTree.shardType lay std).records shard)
    searchKey).filter fun w => w.record = ⟨searchKey, 0⟩

/-- The shard has records, and none of them is taken for the key. -/
def Passed (past : (ISAMTree.shardType lay std).Shard → Wrapped (Record K V)) (searchKey : K)
    (shard : (ISAMTree.shardType lay std).Shard) : Prop :=
  (ISAMTree.shardType lay std).records shard ≠ [] ∧ match? past searchKey shard = none

/-- What the copy that decides a lookup stands for: the oldest copy under the key in
the buffer or, when the buffer has none, the copy in the first shard on the way that
is taken for the key. -/
inductive Answers (past : (ISAMTree.shardType lay std).Shard → Wrapped (Record K V))
    (searchKey : K) (buffer : List (Wrapped (Record K V)))
    (shards : List (ISAMTree.shardType lay std).Shard) (answer : Option (Record K V)) : Prop where
  | buffer (w : Wrapped (Record K V))
      (oldest : (buffer.find? fun w => w.record.key = searchKey) = some w)
      (shows : shown w = answer)
  | shard (w : Wrapped (Record K V)) (absent : ∀ w ∈ buffer, w.record.key ≠ searchKey)
      (pre post : List (ISAMTree.shardType lay std).Shard)
      (x : (ISAMTree.shardType lay std).Shard) (split : shards = pre ++ x :: post)
      (passed : ∀ y ∈ pre, Passed past searchKey y)
      (records : (ISAMTree.shardType lay std).records x ≠ [])
      (found : match? past searchKey x = some w) (shows : shown w = answer)
  | nowhere (absent : ∀ w ∈ buffer, w.record.key ≠ searchKey)
      (passed : ∀ y ∈ shards, Passed past searchKey y) (answer_none : answer = none)

section Spec
variable (past : (ISAMTree.shardType lay std).Shard → Wrapped (Record K V)) (searchKey : K)

theorem localQuery_nil {shard : (ISAMTree.shardType lay std).Shard}
    (hnil : (ISAMTree.shardType lay std).records shard = []) :
    localQuery past searchKey shard = none := by
  have hwf := ISAMTree.Shard.wellFormed shard
  have hnil' : ISAMTree.records lay shard.1 = [] := hnil
  have hroot := hwf.noRoot hnil'
  have hfail : ISAMTree.getLowerBound lay shard.1 searchKey = none := by
    rw [ISAMTree.getLowerBound, hroot, descend, if_neg (by omega), hwf.header]
    rfl
  simp only [localQuery, ISAMTree.pointLookup, hfail]
  rfl

theorem localQuery_eq {shard : (ISAMTree.shardType lay std).Shard}
    (hne : (ISAMTree.shardType lay std).records shard ≠ []) :
    localQuery past searchKey shard = some (match? past searchKey shard).toList := by
  have hspec := ISAMTree.pointLookup_spec (ISAMTree.Shard.wellFormed shard) hne (past shard)
    ⟨searchKey, 0⟩
  rw [localQuery, hspec]
  rfl

theorem combine_cons {R : Type} (w : Wrapped R) (l : List (Wrapped R))
    (ls : List (List (Wrapped R))) : combine ((w :: l) :: ls) = (shown w).toList := by
  rw [combine, shown]
  split <;> rfl

theorem toList_inj {α : Type} {a b : Option α} : a.toList = b.toList ↔ a = b := by
  cases a <;> cases b <;> simp

section Shards
variable {past searchKey} {buffer : List (Wrapped (Record K V))}
  {shards : List (ISAMTree.shardType lay std).Shard} {x : (ISAMTree.shardType lay std).Shard}
  {answer : Option (Record K V)}

theorem answers_cons (absent : ∀ w ∈ buffer, w.record.key ≠ searchKey) :
    Answers past searchKey buffer (x :: shards) answer ↔
      (ISAMTree.shardType lay std).records x ≠ [] ∧
        ((∃ w, match? past searchKey x = some w ∧ shown w = answer) ∨
          match? past searchKey x = none ∧ Answers past searchKey buffer shards answer) := by
  constructor
  · intro h
    cases h with
    | buffer w oldest =>
      have hkey : w.record.key = searchKey := by simpa using List.find?_some oldest
      exact absurd hkey (absent w (List.mem_of_find?_eq_some oldest))
    | shard w absent pre post y split passed records found shows =>
      cases pre with
      | nil =>
        obtain ⟨rfl, -⟩ := List.cons.inj split
        exact ⟨records, .inl ⟨w, found, shows⟩⟩
      | cons z pre =>
        obtain ⟨rfl, hrest⟩ := List.cons.inj split
        have hx := passed x List.mem_cons_self
        exact ⟨hx.1, .inr ⟨hx.2, .shard w absent pre post y hrest
          (fun z hz => passed z (List.mem_cons_of_mem _ hz)) records found shows⟩⟩
    | nowhere absent passed hnone =>
      have hx := passed x List.mem_cons_self
      exact ⟨hx.1, .inr ⟨hx.2, .nowhere absent
        (fun z hz => passed z (List.mem_cons_of_mem _ hz)) hnone⟩⟩
  · rintro ⟨hne, ⟨w, found, shows⟩ | ⟨hmiss, h⟩⟩
    · exact .shard w absent [] shards x rfl (by simp) hne found shows
    · cases h with
      | buffer w oldest shows => exact .buffer w oldest shows
      | shard w absent pre post y split passed records found shows =>
        exact .shard w absent (x :: pre) post y (by rw [split]; rfl)
          (List.forall_mem_cons.mpr ⟨⟨hne, hmiss⟩, passed⟩) records found shows
      | nowhere absent passed hnone =>
        exact .nowhere absent (List.forall_mem_cons.mpr ⟨⟨hne, hmiss⟩, passed⟩) hnone

theorem answers_nil (absent : ∀ w ∈ buffer, w.record.key ≠ searchKey) :
    Answers past searchKey buffer [] answer ↔ answer = none := by
  constructor
  · intro h
    cases h with
    | buffer w oldest =>
      have hkey : w.record.key = searchKey := by simpa using List.find?_some oldest
      exact absurd hkey (absent w (List.mem_of_find?_eq_some oldest))
    | shard w absent pre post y split => simp at split
    | nowhere absent passed hnone => exact hnone
  · exact fun hnone => .nowhere absent (by simp) hnone

end Shards

theorem localQueries_iff {buffer : List (Wrapped (Record K V))}
    (absent : ∀ w ∈ buffer, w.record.key ≠ searchKey)
    (shards : List (ISAMTree.shardType lay std).Shard) (answer : Option (Record K V)) :
    (localQueries past searchKey shards).map combine = some answer.toList ↔
      Answers past searchKey buffer shards answer := by
  induction shards with
  | nil =>
    rw [answers_nil absent, ← toList_inj, eq_comm]
    simp [localQueries, combine]
  | cons x shards ih =>
    rw [answers_cons absent, localQueries]
    by_cases hnil : (ISAMTree.shardType lay std).records x = []
    · simp [localQuery_nil past searchKey hnil, hnil]
    · rw [localQuery_eq past searchKey hnil]
      cases hfound : match? past searchKey x with
      | some w =>
        simp [combine_cons w [], hnil, toList_inj]
      | none =>
        rw [← ih]
        cases localQueries past searchKey shards <;> simp [combine, hnil]

theorem query_iff (view : BufferView (Record K V))
    (shards : List (ISAMTree.shardType lay std).Shard) (answer : Option (Record K V)) :
    query past searchKey view shards = some answer.toList ↔
      Answers past searchKey view.records shards answer := by
  cases hfind : view.records.find? fun w => w.record.key = searchKey with
  | some w =>
    have hrun : query past searchKey view shards = some (shown w).toList := by
      simp [query, localQueryBuffer, hfind, combine_cons]
    rw [hrun, Option.some.injEq, toList_inj]
    constructor
    · exact fun h => .buffer w hfind h
    · intro h
      have hmem := List.mem_of_find?_eq_some hfind
      have hkey : w.record.key = searchKey := by simpa using List.find?_some hfind
      cases h with
      | buffer w' oldest shows =>
        obtain rfl : w = w' := Option.some.inj (hfind.symm.trans oldest)
        exact shows
      | shard _ absent => exact absurd hkey (absent w hmem)
      | nowhere absent => exact absurd hkey (absent w hmem)
  | none =>
    have absent : ∀ w ∈ view.records, w.record.key ≠ searchKey := by
      simpa using List.find?_eq_none.mp hfind
    have hrun : query past searchKey view shards =
        (localQueries past searchKey shards).map combine := by
      simp only [query, localQueryBuffer, hfind]
      cases localQueries past searchKey shards <;> simp [combine]
    rw [hrun, localQueries_iff past searchKey absent]

end Spec

end PointLookup

namespace DynamicExtension

/-- After keyed calls in order, a lookup answers with the live record of its key if
and only if the copy that decides it stands for that record. -/
theorem lookup_iff (lay : NodeLayout) (std : StdLib (Record K V)) (L : LayoutPolicy)
    {lwm hwm scale : Nat} (hlwm : 1 ≤ lwm) (hle : lwm ≤ hwm) (hscale : 2 ≤ scale)
    (hbsm : L = .bsm → scale = 2) {log : Option (List (WALEntry (Record K V)))}
    (hlog : ∀ file, log = some file → file = []) (logging : Bool) :
    ∃ d₀, new (ISAMTree.shardType lay std) L lwm hwm scale none log = some d₀ ∧
      ∀ calls, Call.Keyed calls → d₀.RunOk logging calls →
        ∃ d e, d₀.run logging calls = some d ∧ d.currentEpoch.epoch = some e ∧
          ∀ past key, d.asyncQuery (PointLookup.query past key) =
              some ((Call.liveAt calls key).toList, d) ↔
            PointLookup.Answers past key d.buffer.records e.vers.getShards
              (Call.liveAt calls key) := by
  obtain ⟨d₀, e₀, hnew, h₀⟩ := tracks_new (ISAMTree.shardType lay std) L hlwm hle
    (by omega : 0 < scale) hbsm hlog
  refine ⟨d₀, hnew, fun calls _ hok => ?_⟩
  obtain ⟨d, e, hrun, h⟩ := h₀.run (ISAMTree.mergesRecords lay std) hlwm hle logging hok
  refine ⟨d, e, hrun, by rw [h.serving.idle.current], fun past key => ?_⟩
  rw [h.serving.idle.asyncQuery, ← h.serving.view_records, ← PointLookup.query_iff]
  simp

/-- A record that is still in the buffer, with another one flushed -/
theorem lookup_iff_sample :
    let calls : List (Call (Record Nat Nat)) := [.insert ⟨1, 5⟩, .insert ⟨2, 6⟩]
    ∃ d₀ d, new (ISAMTree.shardType NodeLayout.words (StdLib.sorted (Record Nat Nat))) .teiring
        1 1 2 none none = some d₀ ∧ d₀.run false calls = some d ∧
      ∀ past, d.asyncQuery (PointLookup.query past 2) = some ([⟨2, 6⟩], d) := by
  intro calls
  obtain ⟨d₀, hnew, hall⟩ := lookup_iff NodeLayout.words (StdLib.sorted (Record Nat Nat)) .teiring
    (le_refl 1) (le_refl 1) (le_refl 2) (by decide)
    (show ∀ file, none = some file → file = [] by simp) false
  have hok : ∀ d ∈ new (ISAMTree.shardType NodeLayout.words (StdLib.sorted (Record Nat Nat)))
      .teiring 1 1 2 none none, d.RunOk false calls ∧ ∀ d' ∈ d.run false calls,
        (d'.buffer.records.find? fun w => w.record.key = 2).map PointLookup.shown =
          some (some ⟨2, 6⟩) := by
    decide +kernel
  obtain ⟨d, e, hrun, -, hlookup⟩ := hall calls (by decide) (hok d₀ hnew).1
  obtain ⟨w, hw, hshown⟩ := Option.map_eq_some_iff.mp ((hok d₀ hnew).2 d hrun)
  exact ⟨d₀, d, hnew, hrun, fun past => (hlookup past 2).mpr (.buffer w hw hshown)⟩

/-- A record that was flushed is looked up with the value 0 and not found. -/
theorem not_lookup :
    let calls : List (Call (Record Nat Nat)) := [.insert ⟨1, 5⟩, .insert ⟨2, 6⟩]
    Call.Keyed calls ∧ Call.liveAt calls 1 = some ⟨1, 5⟩ ∧
    ∃ d₀ d, new (ISAMTree.shardType NodeLayout.words (StdLib.sorted (Record Nat Nat))) .teiring
        1 1 2 none none = some d₀ ∧ d₀.RunOk false calls ∧ d₀.run false calls = some d ∧
      (d.asyncQuery (PointLookup.query (fun _ => 0) 1)).map Prod.fst = some [] := by
  intro calls
  refine ⟨by decide, by decide, ?_⟩
  have hrun : (new (ISAMTree.shardType NodeLayout.words (StdLib.sorted (Record Nat Nat)))
      .teiring 1 1 2 none none).bind (fun d₀ => (d₀.run false calls).map fun d =>
        (decide (d₀.RunOk false calls),
          (d.asyncQuery (PointLookup.query (fun _ => 0) 1)).map Prod.fst)) =
      some (true, some []) := by decide +kernel
  obtain ⟨d₀, hnew, hrun⟩ := Option.bind_eq_some_iff.mp hrun
  obtain ⟨d, hd, hout⟩ := Option.map_eq_some_iff.mp hrun
  obtain ⟨hok, hlookup⟩ := Prod.mk.inj hout
  exact ⟨d₀, d, hnew, of_decide_eq_true hok, hd, hlookup⟩

end DynamicExtension

end De
