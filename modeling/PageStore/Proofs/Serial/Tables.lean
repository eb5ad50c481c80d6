import PageStore.Proofs.Interleaving.Edits

/-!
# Tables that one transaction after another changes

Here nothing happens at the same time, nothing is cached and nothing fails
halfway: tables are pages that show rows, and a change is made at once. An
insert puts its row into the lowest free slot of the first page that is not
full, or of a new page; a delete frees the slot of a record.

Tables `Trail` others if they are the same but for empty pages that the others
have at the end. That is the difference an aborted transaction leaves behind.

Results:
* `place_spec`, `place_eq`: the page that an insert goes to.
* `Trails.edit`, `Trails.edits`: edits that are legal on the longer tables can
  be made on the shorter ones, on the same pages and with the same rows.
-/
namespace PageStore

/-- The slots of a page of each table, the number of its pages, and what they show. -/
structure Tables where
  slots : TableId → Nat
  pages : TableId → Nat
  shows : Contents

/-- Whether there is a page and no slot of it is free. -/
def isFull : Option Grid → Bool
  | some g => g.all Option.isSome
  | none => false

theorem isFull_iff {g : Option Grid} : isFull g = true ↔ ∃ g', g = some g' ∧ g'.Full := by
  cases g with
  | none => simp [isFull]
  | some g => simp [isFull, Grid.Full]

namespace Tables

/-- What a new page shows. -/
def blank (s : Tables) (t : TableId) : Grid := List.replicate (s.slots t) none

/-- The number of the page that a row goes to. -/
def place (s : Tables) (t : TableId) : Nat :=
  ((List.range (s.pages t)).find? fun i => !isFull (s.shows ⟨t, i⟩)).getD (s.pages t)

/-- The page that a change is made on. -/
def target (s : Tables) : Change → PageId
  | .insert table _ => ⟨table, s.place table⟩
  | .delete record => record.page

/-- What a page shows that a change is made on; a new one is blank. -/
def opened (s : Tables) (p : PageId) : Option Grid :=
  if p.index < s.pages p.table then s.shows p else some (s.blank p.table)

/-- The tables with another content of one page. -/
def set (s : Tables) (p : PageId) (g : Grid) : Tables :=
  { s with
    pages := fun t => if t = p.table then max (s.pages t) (p.index + 1) else s.pages t
    shows := fun q => if q = p then some g else s.shows q }

/-- The tables after a change, if it can be made. -/
def change? (s : Tables) (c : Change) : Option Tables :=
  ((s.opened (s.target c)).bind c.edit?).map (s.set (s.target c))

/-- The tables after the change of an edit, if it is made on the page of the edit. -/
def edit? (s : Tables) (e : Edit) : Option Tables :=
  if s.target e.change = e.page then s.change? e.change else none

/-- The tables after edits made one after another. -/
def edits? (s : Tables) : List Edit → Option Tables
  | [] => some s
  | e :: edits => (s.edit? e).bind fun s => s.edits? edits

/-- The tables after transactions made their changes one after another. -/
def execute? (s : Tables) : List (TxnId × List Edit) → Option Tables
  | [] => some s
  | (_, edits) :: txns => (s.edits? edits).bind fun s => s.execute? txns

/-- The values of a row. -/
def row? (s : Tables) (p : PageId) (slot : Nat) : Option (List Field) :=
  (s.shows p).bind fun g => g[slot]?.join

theorem edits_append (s : Tables) (first later : List Edit) :
    s.edits? (first ++ later) = (s.edits? first).bind fun s => s.edits? later := by
  induction first generalizing s with
  | nil => rfl
  | cons e first ih =>
    rw [List.cons_append, edits?, edits?, Option.bind_assoc]
    congr 1
    funext s'
    exact ih s'

theorem execute_append (s : Tables) (first later : List (TxnId × List Edit)) :
    s.execute? (first ++ later) = (s.execute? first).bind fun s => s.execute? later := by
  induction first generalizing s with
  | nil => rfl
  | cons txn first ih =>
    rw [List.cons_append, execute?, execute?, Option.bind_assoc]
    congr 1
    funext s'
    exact ih s'

variable {s : Tables} {t : TableId} {i : Nat}

theorem opened_of_lt {p : PageId} (h : p.index < s.pages p.table) : s.opened p = s.shows p := if_pos h

theorem opened_of_le {p : PageId} (h : s.pages p.table ≤ p.index) : s.opened p = some (s.blank p.table) :=
  if_neg (Nat.not_lt_of_le h)

theorem change_eq_some {c : Change} {s' : Tables} :
    s.change? c = some s' ↔ ∃ old new, s.opened (s.target c) = some old ∧ c.edit? old = some new ∧
      s' = s.set (s.target c) new := by
  unfold change?
  rw [Option.map_eq_some_iff]
  constructor
  · rintro ⟨new, hnew, rfl⟩
    obtain ⟨old, hold, hedit⟩ := Option.bind_eq_some_iff.1 hnew
    exact ⟨old, new, hold, hedit, rfl⟩
  · rintro ⟨old, new, hold, hedit, rfl⟩
    exact ⟨new, Option.bind_eq_some_iff.2 ⟨old, hold, hedit⟩, rfl⟩

/-- Only what a page was made last counts. -/
theorem set_set (s : Tables) (p : PageId) (g g' : Grid) : (s.set p g).set p g' = s.set p g' := by
  have hpages : ((s.set p g).set p g').pages = (s.set p g').pages := by
    funext u
    simp only [set]
    split
    · omega
    · rfl
  have hshows : ((s.set p g).set p g').shows = (s.set p g').shows := by
    funext q
    simp only [set]
    split <;> rfl
  rw [Tables.mk.injEq]
  exact ⟨rfl, hpages, hshows⟩

/-- Where the tables have pages after one page was set, an old one or the next. -/
theorem lt_pages_set {p q : PageId} {g : Grid} (hle : p.index ≤ s.pages p.table) :
    q.index < (s.set p g).pages q.table ↔ q = p ∨ q.index < s.pages q.table := by
  change q.index < (if q.table = p.table then max (s.pages q.table) (p.index + 1) else _) ↔ _
  by_cases ht : q.table = p.table
  · rw [if_pos ht, ht]
    constructor
    · intro h
      by_cases hi : q.index = p.index
      · exact .inl (PageId.eq_of_index ht hi)
      · exact .inr (by omega)
    · rintro (rfl | h) <;> omega
  · rw [if_neg ht]
    refine ⟨.inr, ?_⟩
    rintro (rfl | h)
    · exact absurd rfl ht
    · exact h

/-! ## Where a row goes -/

/-- All pages before the place of a row are full; the page there is not, if there is one. -/
theorem place_spec (s : Tables) (t : TableId) :
    s.place t ≤ s.pages t ∧ (∀ j, j < s.place t → isFull (s.shows ⟨t, j⟩) = true) ∧
      (s.place t < s.pages t → isFull (s.shows ⟨t, s.place t⟩) = false) := by
  unfold place
  cases h : (List.range (s.pages t)).find? fun i => !isFull (s.shows ⟨t, i⟩) with
  | none =>
    rw [List.find?_eq_none] at h
    refine ⟨Nat.le_refl _, ?_, fun hlt => absurd hlt (Nat.lt_irrefl _)⟩
    intro j hj
    simpa using h j (List.mem_range.2 hj)
  | some i =>
    obtain ⟨hi, k, hk, hget, hbefore⟩ := List.find?_eq_some_iff_getElem.1 h
    rw [List.getElem_range] at hget
    subst hget
    rw [List.length_range] at hk
    refine ⟨Nat.le_of_lt hk, ?_, fun _ => by simpa using hi⟩
    intro j hj
    have := hbefore j hj
    rw [List.getElem_range] at this
    simpa using this

theorem place_eq (hle : i ≤ s.pages t) (hbefore : ∀ j, j < i → isFull (s.shows ⟨t, j⟩) = true)
    (hi : i < s.pages t → isFull (s.shows ⟨t, i⟩) = false) : s.place t = i := by
  obtain ⟨hle', hbefore', hi'⟩ := s.place_spec t
  rcases Nat.lt_trichotomy (s.place t) i with hlt | heq | hgt
  · have := hbefore _ hlt
    rw [hi' (Nat.lt_of_lt_of_le hlt hle)] at this
    cases this
  · exact heq
  · have := hbefore' i hgt
    rw [hi (Nat.lt_of_lt_of_le hgt hle')] at this
    cases this

/-! ## Tables that trail others -/

/-- Only pages in the file show anything, and they have slots. -/
structure Sound (s : Tables) : Prop where
  inside : ∀ p g, s.shows p = some g → p.index < s.pages p.table
  slots : ∀ p g, s.shows p = some g → s.slots p.table ≠ 0

/-- The same tables, but without empty pages at the end of `s'`. -/
structure Trails (s s' : Tables) : Prop where
  slots : s.slots = s'.slots
  pages : ∀ t, s.pages t ≤ s'.pages t
  shows : ∀ p : PageId, p.index < s.pages p.table → s.shows p = s'.shows p
  blank : ∀ p : PageId, s.pages p.table ≤ p.index → p.index < s'.pages p.table →
    s'.shows p = some (s'.blank p.table)
  beyond : ∀ p : PageId, s.pages p.table ≤ p.index → s.shows p = none

/-- The tables as they look after edits, latest first, of pages that they have. -/
def overlaid (s : Tables) (edits : List Edit) : Tables := { s with shows := overlay s.shows edits }

theorem sound_overlaid (h : s.Sound) (edits : List Edit) : (s.overlaid edits).Sound := by
  have base : ∀ p g, (s.overlaid edits).shows p = some g → ∃ g', s.shows p = some g' := by
    intro p g hg
    cases hs : s.shows p with
    | none =>
      cases (overlay_none hs).symm.trans hg
    | some g' => exact ⟨g', rfl⟩
  refine ⟨?_, ?_⟩ <;> intro p g hg <;> obtain ⟨g', hg'⟩ := base p g hg
  · exact h.inside p g' hg'
  · exact h.slots p g' hg'

theorem Trails.refl (h : s.Sound) : Trails s s := by
  refine ⟨rfl, fun _ => Nat.le_refl _, fun _ _ => rfl, ?_, ?_⟩
  · intro p h1 h2
    omega
  · intro p hp
    cases hs : s.shows p with
    | none => rfl
    | some g =>
      have := h.inside p g hs
      omega

/-- A row lies on no page that is blank. -/
theorem edit_delete_blank {record : RecordId} {n : Nat} :
    (Change.delete record).edit? (List.replicate n none) = none := by
  unfold Change.edit?
  dsimp only
  rw [List.getElem?_replicate]
  split
  · next h =>
    split at h
    · cases h
    · cases h
  · rfl

/-- A delete is made on a page that is there. -/
theorem delete_shows {record : RecordId} {s' : Tables} (h : s.change? (.delete record) = some s') :
    ∃ old new, s.shows record.page = some old ∧ (Change.delete record).edit? old = some new := by
  obtain ⟨old, new, hold, hnew, -⟩ := change_eq_some.1 h
  rcases Nat.lt_or_ge record.page.index (s.pages record.page.table) with hlt | hge
  · exact ⟨old, new, (opened_of_lt hlt).symm.trans hold, hnew⟩
  · have hblank := (opened_of_le hge).symm.trans hold
    cases hblank
    rw [blank, edit_delete_blank] at hnew
    cases hnew

theorem not_full_blank {n : Nat} (h : n ≠ 0) : isFull (some (List.replicate n none)) = false := by
  rw [isFull, List.all_replicate]
  simp [h]

theorem insert_of_not_full {tuple : Tuple} {table : TableId} {g new : Grid}
    (h : (Change.insert table tuple).edit? g = some new) : isFull (some g) = false := by
  cases hf : isFull (some g) with
  | false => rfl
  | true =>
    obtain ⟨g', hg, hfull⟩ := isFull_iff.1 hf
    cases hg
    have hn : g.insert? tuple.fields = none := Grid.full_iff_insert?.1 hfull
    have h : g.insert? tuple.fields = some new := h
    rw [hn] at h
    cases h

variable {s' : Tables} {e : Edit} {p : PageId} {old new : Grid}

/-- A page that the longer tables have shows the same on the shorter ones, once it is there. -/
theorem Trails.opened (h : Trails s s') (hs : s'.Sound) (hold : s'.shows p = some old) :
    s.opened p = some old := by
  rcases Nat.lt_or_ge p.index (s.pages p.table) with hlt | hge
  · rw [opened_of_lt hlt, h.shows p hlt, hold]
  · have hblank := h.blank p hge (hs.inside p old hold)
    rw [opened_of_le hge, ← hold, hblank, Tables.blank, Tables.blank, h.slots]

/-- No blank page at the end is full. -/
theorem Trails.lt_of_full (h : Trails s s') (hs : s'.Sound) (hfull : isFull (s'.shows p) = true) :
    p.index < s.pages p.table := by
  obtain ⟨g, hg, -⟩ := isFull_iff.1 hfull
  refine Nat.lt_of_not_le fun hle => ?_
  rw [h.blank p hle (hs.inside p g hg), Tables.blank, not_full_blank (hs.slots p g hg)] at hfull
  cases hfull

/-- So a row goes to the same page. -/
theorem Trails.place (h : Trails s s') (hs : s'.Sound) (hold : s'.shows ⟨t, i⟩ = some old)
    (hfull : ∀ j, j < i → isFull (s'.shows ⟨t, j⟩) = true) (hfree : isFull (some old) = false) :
    s.place t = i := by
  have hle : i ≤ s.pages t := by
    refine Nat.le_of_not_lt fun hlt => ?_
    have := h.lt_of_full hs (hfull _ hlt)
    exact Nat.lt_irrefl _ this
  refine place_eq hle ?_ ?_
  · intro j hj
    rw [h.shows ⟨t, j⟩ (Nat.lt_of_lt_of_le hj hle)]
    exact hfull j hj
  · intro hlt
    rw [h.shows ⟨t, i⟩ hlt, hold]
    exact hfree

theorem Trails.target (h : Trails s s') (hs : s'.Sound) (hl : e.Legal s'.blank s'.shows) :
    s.target e.change = e.page ∧ e.page.index ≤ s.pages e.page.table := by
  obtain ⟨old, new, hold, hnew⟩ := hl.edits
  have hplace := hl.place
  cases hc : e.change with
  | delete record =>
    rw [hc] at hplace hnew
    refine ⟨hplace.symm, Nat.le_of_not_lt fun hlt => ?_⟩
    have hblank := h.blank e.page (Nat.le_of_lt hlt) (hs.inside _ _ hold)
    rw [hold] at hblank
    cases hblank
    rw [Tables.blank, edit_delete_blank] at hnew
    cases hnew
  | insert table tuple =>
    rw [hc] at hplace hnew
    have hpage : (⟨table, e.page.index⟩ : PageId) = e.page := by rw [← hplace]
    have hfull : ∀ j, j < e.page.index → isFull (s'.shows ⟨table, j⟩) = true := by
      intro j hj
      refine isFull_iff.2 (hl.passed ⟨table, j⟩ (.inr ⟨table, tuple, hc, rfl, hj⟩) ?_)
      intro he
      rw [← he] at hj
      exact Nat.lt_irrefl _ hj
    have heq : s.place table = e.page.index :=
      h.place hs (hpage ▸ hold) hfull (insert_of_not_full hnew)
    refine ⟨by rw [Tables.target, heq, hpage], ?_⟩
    rw [← heq, hplace]
    exact (s.place_spec table).1

/-- Both may get the same content of a page, if the shorter tables have it or it is their next. -/
theorem Trails.set (h : Trails s s') (hin : p.index < s'.pages p.table)
    (hle : p.index ≤ s.pages p.table) {s2 : Tables} (hslots : s2.slots = s'.slots)
    (hpages : s2.pages = s'.pages)
    (hshows : ∀ q, s2.shows q = if q = p then some new else s'.shows q) : Trails (s.set p new) s2 := by
  have hblank : s2.blank = s'.blank := by
    funext t
    rw [Tables.blank, Tables.blank, hslots]
  -- a page that the shorter tables still lack
  have hlack : ∀ q : PageId, (s.set p new).pages q.table ≤ q.index →
      q ≠ p ∧ s.pages q.table ≤ q.index := by
    intro q hq
    have := Nat.not_lt_of_le hq
    rw [lt_pages_set hle, not_or, Nat.not_lt] at this
    exact this
  refine ⟨h.slots.trans hslots.symm, ?_, ?_, ?_, ?_⟩
  · intro t
    rw [hpages]
    have := h.pages t
    simp only [Tables.set]
    split
    · next ht =>
      subst ht
      omega
    · exact this
  · intro q hq
    rw [hshows]
    simp only [Tables.set]
    split
    · rfl
    · next hne => exact h.shows q (((lt_pages_set hle).1 hq).resolve_left hne)
  · intro q hq hq'
    obtain ⟨hne, hge⟩ := hlack q hq
    rw [hshows, if_neg hne, hblank]
    rw [hpages] at hq'
    exact h.blank q hge hq'
  · intro q hq
    obtain ⟨hne, hge⟩ := hlack q hq
    exact (if_neg hne).trans (h.beyond q hge)

/-- A legal edit of the longer tables can be made on the shorter ones. -/
theorem Trails.edit (h : Trails s s') (hs : s'.Sound) (hl : e.Legal s'.blank s'.shows) :
    ∃ s1, s.edit? e = some s1 ∧ Trails s1 (s'.overlaid [e]) := by
  obtain ⟨old, new, hold, hnew⟩ := hl.edits
  obtain ⟨htarget, hle⟩ := h.target hs hl
  have hedit : s.edit? e = some (s.set e.page new) := by
    rw [edit?, if_pos htarget, change_eq_some, htarget]
    exact ⟨old, new, h.opened hs hold, hnew, rfl⟩
  refine ⟨_, hedit, h.set (hs.inside _ _ hold) hle rfl rfl ?_⟩
  intro p
  simp only [overlaid, overlay]
  split
  · next hp => rw [hp, hold, Option.bind_some, hnew]
  · rfl

theorem Trails.edits (h : Trails s s') (hs : s'.Sound) {edits : List Edit}
    (hl : Lawful s'.blank s'.shows edits) :
    ∃ s1, s.edits? edits.reverse = some s1 ∧ Trails s1 (s'.overlaid edits) := by
  induction edits with
  | nil => exact ⟨s, rfl, h⟩
  | cons e rest ih =>
    obtain ⟨s1, h1, htrails⟩ := ih hl.1
    obtain ⟨s2, h2, htrails2⟩ := htrails.edit (sound_overlaid hs rest) (e := e) hl.2
    refine ⟨s2, ?_, htrails2⟩
    rw [List.reverse_cons, edits_append, h1, Option.bind_some, edits?, h2]
    rfl

/-- The longer tables may get another empty page. -/
theorem Trails.extend (h : Trails s s') (hp : p.index = s'.pages p.table) :
    Trails s (s'.set p (s'.blank p.table)) := by
  have hlt : ∀ q : PageId, q.index < (s'.set p (s'.blank p.table)).pages q.table ↔
      q = p ∨ q.index < s'.pages q.table := fun q => lt_pages_set (Nat.le_of_eq hp)
  refine ⟨h.slots, ?_, ?_, ?_, h.beyond⟩
  · intro t
    have := h.pages t
    simp only [Tables.set]
    split <;> omega
  · intro q hq
    have hne : q ≠ p := by
      rintro rfl
      have := h.pages q.table
      omega
    exact (h.shows q hq).trans (if_neg hne).symm
  · intro q hq hq'
    simp only [Tables.set]
    split
    · next he =>
      rw [he]
      rfl
    · next hne => exact h.blank q hq (((hlt q).1 hq').resolve_left hne)

/-- Tables that trail others hold the same rows. -/
theorem Trails.row (h : Trails s s') (hs : s'.Sound) (p : PageId) (slot : Nat) :
    s'.row? p slot = s.row? p slot := by
  unfold row?
  by_cases hp : p.index < s.pages p.table
  · rw [h.shows p hp]
  · rw [h.beyond p (Nat.le_of_not_lt hp)]
    cases hg : s'.shows p with
    | none => rfl
    | some g =>
      have := h.blank p (Nat.le_of_not_lt hp) (hs.inside p g hg)
      rw [hg] at this
      cases this
      rw [Option.bind_some, Tables.blank, List.getElem?_replicate]
      split <;> rfl

end Tables
end PageStore
