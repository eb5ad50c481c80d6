import PageStore.Proofs.Interleaving.World

/-!
# What a transaction has changed so far

The changes that a transaction has made, and neither kept nor dropped yet, are
a list of edits, latest first. Laid over the content of all pages they give
what the transaction sees. An edit is legal if it is what the source of the
edit would do on that view: a delete frees a slot that holds a row; an insert
fills the lowest free slot of a page, and all pages of the table before that
one are full.

Whether edits are legal depends only on the pages that they read, so whatever
happens to other pages, they stay legal.

Results:
* `overlay_congr`, `lawful_congr`: only pages that were read matter.
* `lawful_reads`: every page that was read has a content.
* `original_eq`: what a page showed before the first edit is what lies under
  all of them.
-/
namespace PageStore

/-- What a change makes of the content of its page, if it can be made there. -/
def Change.edit? : Change → Grid → Option Grid
  | .insert _ tuple, g => g.insert? tuple.fields
  | .delete record, g =>
    match g[record.slot]? with
    | some (some _) => some (g.set record.slot none)
    | _ => none

/-- Whether a change concerns a page. -/
def Change.IsOn : Change → PageId → Prop
  | .insert table _, p => p.table = table
  | .delete record, p => p = record.page

/-- A change, the page it was made on, and what that page showed just before. -/
structure Edit where
  change : Change
  page : PageId
  before : Option Grid

namespace Edit

/-- The pages that an edit looked at: its own, and for an insert the earlier ones. -/
def Reads (e : Edit) (p : PageId) : Prop :=
  p = e.page ∨ ∃ table tuple, e.change = .insert table tuple ∧ p.table = table ∧ p.index < e.page.index

/-- The edit is what its change does where pages show `v`; a page that was not
there before shows `blank` by then. -/
structure Legal (blank : TableId → Grid) (v : Contents) (e : Edit) : Prop where
  place : e.change.IsOn e.page
  edits : ∃ old new, v e.page = some old ∧ e.change.edit? old = some new
  passed : ∀ p, e.Reads p → p ≠ e.page → ∃ g, v p = some g ∧ g.Full
  before : e.before = v e.page ∨ e.before = none ∧ v e.page = some (blank e.page.table)

end Edit

/-- The pages that edits were made on. -/
def editedPages (edits : List Edit) : List PageId := edits.map Edit.page

/-- What pages show after edits, latest first. -/
def overlay (g : Contents) : List Edit → Contents
  | [], p => g p
  | e :: rest, p => if p = e.page then (overlay g rest p).bind e.change.edit? else overlay g rest p

/-- Every edit is legal on what the earlier ones made. -/
def Lawful (blank : TableId → Grid) (g : Contents) : List Edit → Prop
  | [] => True
  | e :: rest => Lawful blank g rest ∧ e.Legal blank (overlay g rest)

/-- What a page showed before the first edit of it. -/
def original? (p : PageId) : List Edit → Option (Option Grid)
  | [] => none
  | e :: rest => (original? p rest).or (if e.page = p then some e.before else none)

variable {blank : TableId → Grid} {g g' : Contents} {edits : List Edit} {p : PageId}

theorem overlay_of_not_mem (h : p ∉ editedPages edits) : overlay g edits p = g p := by
  induction edits with
  | nil => rfl
  | cons e rest ih =>
    rw [editedPages, List.map_cons, List.mem_cons, not_or] at h
    rw [overlay, if_neg h.1]
    exact ih h.2

theorem overlay_congr (h : g' p = g p) : overlay g' edits p = overlay g edits p := by
  induction edits with
  | nil => exact h
  | cons e rest ih => rw [overlay, overlay, ih]

theorem overlay_none (h : g p = none) : overlay g edits p = none := by
  induction edits with
  | nil => exact h
  | cons e rest ih =>
    rw [overlay, ih]
    split <;> rfl

theorem Edit.Legal.congr {e : Edit} (h : e.Legal blank g) (hg : ∀ p, e.Reads p → g' p = g p) :
    e.Legal blank g' := by
  have hpage := hg e.page (.inl rfl)
  refine ⟨h.place, ?_, ?_, ?_⟩
  · rw [hpage]
    exact h.edits
  · intro p hp hne
    rw [hg p hp]
    exact h.passed p hp hne
  · rw [hpage]
    exact h.before

theorem lawful_congr (h : Lawful blank g edits) (hg : ∀ e ∈ edits, ∀ p, e.Reads p → g' p = g p) :
    Lawful blank g' edits := by
  induction edits with
  | nil => trivial
  | cons e rest ih =>
    refine ⟨ih h.1 ?_, h.2.congr ?_⟩
    · intro e' he'
      exact hg e' (by simp [he'])
    · intro p hp
      exact overlay_congr (hg e (by simp) p hp)

/-- A page that an edit read shows something. -/
theorem Edit.Legal.isSome {e : Edit} (h : e.Legal blank g) (hp : e.Reads p) : ∃ old, g p = some old := by
  by_cases hpe : p = e.page
  · obtain ⟨old, new, hold, -⟩ := h.edits
    exact ⟨old, hpe ▸ hold⟩
  · obtain ⟨old, hold, -⟩ := h.passed p hp hpe
    exact ⟨old, hold⟩

theorem lawful_reads (h : Lawful blank g edits) {e : Edit} (he : e ∈ edits) (hp : e.Reads p) :
    ∃ old, g p = some old := by
  induction edits with
  | nil => simp at he
  | cons e' rest ih =>
    rcases List.mem_cons.1 he with rfl | he
    · obtain ⟨old, hold⟩ := h.2.isSome hp
      cases hg : g p with
      | none => rw [overlay_none hg] at hold; cases hold
      | some x => exact ⟨x, rfl⟩
    · exact ih h.1 he

theorem original_eq_none : original? p edits = none ↔ p ∉ editedPages edits := by
  induction edits with
  | nil => simp [original?, editedPages]
  | cons e rest ih =>
    rw [original?, Option.or_eq_none_iff, ih, editedPages, editedPages, List.map_cons, List.mem_cons,
      not_or]
    by_cases he : e.page = p
    · simp [he]
    · simp [he, Ne.symm he]

theorem original_eq (h : Lawful blank g edits) {before : Option Grid}
    (ho : original? p edits = some before) : g p = some (before.getD (blank p.table)) := by
  induction edits with
  | nil => cases ho
  | cons e rest ih =>
    rw [original?] at ho
    cases hr : original? p rest with
    | some b =>
      rw [hr, Option.some_or] at ho
      cases ho
      exact ih h.1 hr
    | none =>
      rw [hr, Option.none_or] at ho
      split at ho
      · next he =>
        cases ho
        subst he
        have hover : overlay g rest e.page = g e.page := overlay_of_not_mem (original_eq_none.1 hr)
        rcases h.2.before with hb | ⟨hn, hb⟩
        · obtain ⟨old, new, hold, -⟩ := h.2.edits
          rw [hover] at hold hb
          rw [hb, hold]
          rfl
        · rw [hn, ← hover, hb]
          rfl
      · cases ho

/-! ## Edits in a chronicle -/

/-- The changes of `t` since it last ended, latest first. -/
def pending (t : TxnId) : List Entry → List Edit
  | [] => []
  | .changed u change page before :: rest =>
    if u = t then ⟨change, page, before⟩ :: pending t rest else pending t rest
  | .ended u _ :: rest => if u = t then [] else pending t rest

/-! ## Edits of pages -/

theorem Change.edit_delete {old new : Page} {record : RecordId}
    (h : old.delete (some record) = .ok new) : (Change.delete record).edit? old.grid = some new.grid := by
  obtain ⟨r, hr, -, ⟨tuple, ht⟩, rfl⟩ := Page.delete_eq_ok h
  obtain rfl : record = r := Option.some.inj hr
  have hg : old.grid[record.slot]? = some (some tuple.fields) := by
    rw [Page.getElem?_grid, ht]
    rfl
  unfold edit?
  dsimp only
  rw [hg]
  simp [Page.grid, List.map_set]

/-- A record that lies on a page can be deleted from it. -/
theorem Change.delete_isOk {old : Page} {record : RecordId} {g : Grid} (hid : old.id = record.page)
    (h : (Change.delete record).edit? old.grid = some g) : ∃ new, old.delete (some record) = .ok new := by
  unfold edit? at h
  dsimp only at h
  rw [Page.getElem?_grid] at h
  unfold Page.delete
  dsimp only
  rw [if_neg (not_not_intro hid.symm)]
  split
  · next hs => rw [hs] at h; cases h
  · next hs => rw [hs] at h; cases h
  · exact ⟨_, rfl⟩

end PageStore
