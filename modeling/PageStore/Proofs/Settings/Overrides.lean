import PageStore.Settings

/-!
# Overrides that end in turn

An override remembers the setting that it found and puts it back when it ends. What
it found may be the size of an override that has ended since, and then a size is in
force that no living override asked for; or it may be older than another override
that still lives, and then that one is passed over. Neither happens if overrides end
in the reverse order of their making, as they do in nested scopes: each then finds
the size of the one made before it, and that one lives for longer.

Results:
* `setting_end_after`: in any order, the end of an override brings back the setting from
  before it was made.
* `stacked_afterAll`: if overrides end in turn, each living one remembers the next older.
* `Stacked.leftover`: if then one is dropped out of turn, its size can outlive them all.
* `overrides_scoped_in_turn`: as long as overrides end in turn, the page size is that of
  the living one made last, and the standard one if there is none.
* `exists_unscoped`: out of turn, the page size may be that of an override that has
  ended, or that of none although one lives.
-/
namespace PageStore.PageSizes

/-- What a thread does: it makes an override under a name, or drops the one of a name. -/
inductive Step
  | make (name : String) (size : Nat)
  | drop (name : String)
  deriving DecidableEq, Repr

def Step.name : Step → String
  | make name _ => name
  | drop name => name

def after (s : PageSizes) : Step → PageSizes
  | .make name size => s.override name size
  | .drop name => (s.drop name).1

def afterAll (s : PageSizes) (steps : List Step) : PageSizes := steps.foldl after s

/-- What overrides are for: where none lives the page size is the standard one, and where
some live it is the size of one of them. -/
structure Scoped (s : PageSizes) : Prop where
  standard : (∀ name : String, s.alive[name]? = none) → s.pageSize = standardPageSize
  living : (∃ name : String, s.alive[name]?.isSome = true) →
    ∃ (name : String) (o : Override), s.alive[name]? = some o ∧ s.pageSize = o.size

/-- No override lives, and yet the page size is this one. -/
structure Leftover (s : PageSizes) (size : Nat) : Prop where
  dead : ∀ name : String, s.alive[name]? = none
  pageSize_eq : s.pageSize = size

variable {s : PageSizes} {name other : String} {o : Override} {living : List String}

/-! ## What a step does -/

theorem alive_override (s : PageSizes) (name other : String) (size : Nat) :
    (s.override name size).alive[other]? =
      if name = other then some ⟨size, s.setting⟩ else s.alive[other]? := by
  simp only [override, Std.TreeMap.getElem?_insert, Std.LawfulEqCmp.compare_eq_iff_eq]

theorem drop_of_dead (h : s.alive[name]? = none) : (s.drop name).1 = s := by
  rw [drop, h]

/-- An override ends when it is dropped, or when another one takes its name. -/
theorem setting_end (h : s.alive[name]? = some o) {step : Step} (hstep : step.name = name) :
    (s.after step).setting = o.found := by
  cases step with
  | make taken size =>
    obtain rfl : taken = name := hstep
    simp only [after, override, h]
  | drop dropped =>
    obtain rfl : dropped = name := hstep
    simp only [after, drop, h]

theorem alive_drop (s : PageSizes) (name other : String) :
    (s.drop name).1.alive[other]? = if name = other then none else s.alive[other]? := by
  cases h : s.alive[name]? with
  | none =>
    rw [drop_of_dead h]
    split
    · next he => rw [← he, h]
    · rfl
  | some o =>
    have he : (s.drop name).1.alive = s.alive.erase name := by rw [drop, h]
    simp only [he, Std.TreeMap.getElem?_erase, Std.LawfulEqCmp.compare_eq_iff_eq]

/-- A step says nothing about overrides of other names. -/
theorem alive_after {step : Step} (h : step.name ≠ other) :
    (s.after step).alive[other]? = s.alive[other]? := by
  cases step with
  | make name size => exact (alive_override s name other size).trans (if_neg h)
  | drop name => exact (alive_drop s name other).trans (if_neg h)

/-! ## Any order -/

theorem alive_afterAll : ∀ {steps : List Step} {s : PageSizes}, (∀ step ∈ steps, step.name ≠ name) →
    (s.afterAll steps).alive[name]? = s.alive[name]?
  | [], _, _ => rfl
  | step :: steps, s, h => by
    have hrest : ((s.after step).afterAll steps).alive[name]? = (s.after step).alive[name]? :=
      alive_afterAll fun u hu => h u (List.mem_cons_of_mem _ hu)
    exact hrest.trans (alive_after (h step List.mem_cons_self))

theorem afterAll_append (s : PageSizes) (steps more : List Step) :
    s.afterAll (steps ++ more) = (s.afterAll steps).afterAll more := List.foldl_append

/-- Whatever else has changed in between, the end of an override brings back the setting
from before it was made. -/
theorem setting_end_after {between : List Step} {step : Step} (size : Nat)
    (h : ∀ step ∈ between, step.name ≠ name) (hstep : step.name = name) :
    (s.afterAll (.make name size :: between ++ [step])).setting = s.setting := by
  have halive : ((s.override name size).afterAll between).alive[name]? = some ⟨size, s.setting⟩ := by
    rw [alive_afterAll h, alive_override, if_pos rfl]
  rw [afterAll_append]
  exact setting_end halive hstep

/-! ## In turn -/

/-- The names of the living overrides after a step, the last made first. -/
def names (living : List String) : Step → List String
  | .make name _ => name :: living.erase name
  | .drop name => living.erase name

/-- The step makes an override under a name that no living one has, or it drops the last
made one, or none at all. -/
def InTurn (living : List String) : Step → Prop
  | .make name _ => name ∉ living
  | .drop name => name ∈ living → living.head? = some name

instance decidableInTurn (living : List String) : DecidablePred (InTurn living)
  | .make _ _ => inferInstanceAs (Decidable (¬_))
  | .drop _ => inferInstanceAs (Decidable (_ → _))

/-- Overrides end in the reverse order of their making. -/
def Nested : List String → List Step → Prop
  | _, [] => True
  | living, step :: steps => InTurn living step ∧ Nested (names living step) steps

instance decidableNested : ∀ (living : List String) (steps : List Step), Decidable (Nested living steps)
  | _, [] => inferInstanceAs (Decidable True)
  | living, step :: steps =>
    have : Decidable (Nested (names living step) steps) := decidableNested _ steps
    inferInstanceAs (Decidable (_ ∧ _))

/-- The overrides of these names live, and each has found the size of the next; the last
one has found none. -/
def Linked (s : PageSizes) : Option Nat → List String → Prop
  | setting, [] => setting = none
  | setting, name :: rest =>
    ∃ o, s.alive[name]? = some o ∧ setting = some o.size ∧ s.Linked o.found rest

/-- The names are those of the living overrides, and each of these remembers the next. -/
structure Stacked (s : PageSizes) (living : List String) : Prop where
  mem_iff : ∀ name, name ∈ living ↔ s.alive[name]?.isSome = true
  nodup : living.Nodup
  linked : s.Linked s.setting living

theorem Linked.congr {t : PageSizes} : ∀ {living : List String} {setting : Option Nat},
    (∀ name ∈ living, t.alive[name]? = s.alive[name]?) → s.Linked setting living →
      t.Linked setting living
  | [], _, _, h => h
  | name :: _, _, he, ⟨o, ho, hsize, hrest⟩ =>
    ⟨o, (he name List.mem_cons_self).trans ho, hsize,
      hrest.congr fun other hother => he other (List.mem_cons_of_mem _ hother)⟩

theorem stacked_initial : initial.Stacked [] :=
  ⟨fun name => by simp [initial], List.nodup_nil, rfl⟩

theorem Stacked.dead (h : s.Stacked living) (hname : name ∉ living) : s.alive[name]? = none := by
  rw [← Option.not_isSome_iff_eq_none, ← h.mem_iff]
  exact hname

theorem Stacked.make (h : s.Stacked living) (hname : name ∉ living) (size : Nat) :
    (s.override name size).Stacked (name :: living) := by
  have hdead := h.dead hname
  refine ⟨fun other => ?_, List.nodup_cons.2 ⟨hname, h.nodup⟩, ⟨size, s.setting⟩, ?_, ?_, ?_⟩
  · rw [alive_override, List.mem_cons, h.mem_iff, eq_comm]
    split <;> simp [*]
  · rw [alive_override, if_pos rfl]
  · rw [override, hdead]
  · refine h.linked.congr fun other hother => ?_
    rw [alive_override, if_neg fun he : name = other => hname (he ▸ hother)]

theorem Stacked.dropLast (h : s.Stacked (name :: living)) : (s.drop name).1.Stacked living := by
  obtain ⟨hname, hnodup⟩ := List.nodup_cons.1 h.nodup
  obtain ⟨o, ho, -, hrest⟩ := h.linked
  refine ⟨fun other => ?_, hnodup, ?_⟩
  · rw [alive_drop]
    split
    · next he => simpa [← he] using hname
    · next he => rw [← h.mem_iff, List.mem_cons, or_iff_right (Ne.symm he)]
  · have hsetting : (s.after (.drop name)).setting = o.found := setting_end ho rfl
    rw [show (s.drop name).1.setting = o.found from hsetting]
    refine hrest.congr fun other hother => ?_
    rw [alive_drop, if_neg fun he : name = other => hname (he ▸ hother)]

/-- A step in turn leaves overrides that remember each the next older. -/
theorem Stacked.after (h : s.Stacked living) {step : Step} (hturn : InTurn living step) :
    (s.after step).Stacked (names living step) := by
  cases step with
  | make name size =>
    rw [names, List.erase_of_not_mem hturn]
    exact h.make hturn size
  | drop name =>
    by_cases hname : name ∈ living
    · obtain ⟨rest, rfl⟩ := List.head?_eq_some_iff.1 (hturn hname)
      rw [names, List.erase_cons_head]
      exact h.dropLast
    · rw [names, List.erase_of_not_mem hname, PageSizes.after, drop_of_dead (h.dead hname)]
      exact h

theorem stacked_afterAll : ∀ {steps : List Step} {s : PageSizes} {living : List String},
    s.Stacked living → Nested living steps → (s.afterAll steps).Stacked (steps.foldl names living)
  | [], _, _, h, _ => h
  | step :: steps, s, living, h, hn => by
    have hrest : ((s.after step).afterAll steps).Stacked (steps.foldl names (names living step)) :=
      stacked_afterAll (h.after hn.1) hn.2
    exact hrest

theorem Stacked.pageSize_eq (h : s.Stacked (name :: living)) :
    ∃ o, s.alive[name]? = some o ∧ s.pageSize = o.size := by
  obtain ⟨o, ho, hsize, -⟩ := h.linked
  exact ⟨o, ho, by rw [pageSize, hsize, Option.getD_some]⟩

theorem Stacked.scoped (h : s.Stacked living) : s.Scoped := by
  cases living with
  | nil =>
    have hnone : s.setting = none := h.linked
    refine ⟨fun _ => by rw [pageSize, hnone, Option.getD_none], fun ⟨name, hname⟩ => ?_⟩
    cases (h.mem_iff name).2 hname
  | cons name rest =>
    obtain ⟨o, ho, hsize⟩ := h.pageSize_eq
    refine ⟨fun hdead => ?_, fun _ => ⟨name, o, ho, hsize⟩⟩
    rw [hdead name] at ho
    cases ho

/-! ## Out of turn -/

theorem alive_drops : ∀ (dropped : List String) (s : PageSizes),
    (s.afterAll (dropped.map .drop)).alive[name]? = if name ∈ dropped then none else s.alive[name]?
  | [], _ => rfl
  | first :: dropped, s => by
    have hrest : (s.afterAll ((first :: dropped).map .drop)).alive[name]? =
        if name ∈ dropped then none else (s.drop first).1.alive[name]? :=
      alive_drops dropped (s.drop first).1
    rw [hrest, alive_drop]
    by_cases hfirst : first = name
    · simp [hfirst]
    · simp [hfirst, Ne.symm hfirst]

theorem Linked.found_eq {next : String} {older : List String} :
    ∀ {younger : List String} {setting : Option Nat},
      s.Linked setting (younger ++ next :: name :: older) →
      ∃ n o, s.alive[next]? = some n ∧ s.alive[name]? = some o ∧ n.found = some o.size
  | [], _, ⟨n, hn, _, o, ho, hfound, _⟩ => ⟨n, o, hn, ho, hfound⟩
  | _ :: _, _, ⟨_, _, _, h⟩ => h.found_eq

/-- A living override that is not the last made one has a next younger one. -/
theorem exists_next (hname : name ∈ living) (hlast : living.head? ≠ some name) :
    ∃ younger next older, living = younger ++ next :: name :: older := by
  obtain ⟨before, older, rfl⟩ := List.append_of_mem hname
  obtain rfl | ⟨younger, next, rfl⟩ := before.eq_nil_or_concat
  · exact absurd rfl hlast
  · exact ⟨younger, next, older, List.concat_append⟩

/-- An override that is dropped before a younger one leaves its size to the next younger
one, which brings it back when it ends. If that is the last one to end, the size stays. -/
theorem Stacked.leftover (h : s.Stacked living) (ho : s.alive[name]? = some o)
    (hlast : living.head? ≠ some name) :
    ∃ more, Leftover (s.afterAll (.drop name :: more)) o.size := by
  have hname : name ∈ living := (h.mem_iff name).2 (by rw [ho]; rfl)
  obtain ⟨younger, next, older, hliving⟩ := exists_next hname hlast
  obtain ⟨n, o', hnext, ho', hfound⟩ := (hliving ▸ h.linked).found_eq
  cases ho.symm.trans ho'
  have hne : next ≠ name := by
    have hnodup := (List.nodup_append.1 (hliving ▸ h.nodup)).2.1
    exact fun he => (List.nodup_cons.1 hnodup).1 (he ▸ List.mem_cons_self)
  -- all but `next` are dropped first, and `next` in the end
  let dropped : List String := name :: living.filter (· ≠ next)
  have hstays : (s.afterAll (dropped.map .drop)).alive[next]? = some n := by
    rw [alive_drops, if_neg (by simp [dropped, hne]), hnext]
  have hsteps : s.afterAll (.drop name :: ((living.filter (· ≠ next)).map .drop ++ [.drop next])) =
      (s.afterAll (dropped.map .drop)).after (.drop next) :=
    afterAll_append s (dropped.map .drop) [.drop next]
  refine ⟨(living.filter (· ≠ next)).map .drop ++ [.drop next], fun other => ?_, ?_⟩
  · rw [hsteps, PageSizes.after, alive_drop, alive_drops]
    by_cases hother : next = other
    · rw [if_pos hother]
    · rw [if_neg hother]
      by_cases hmem : other ∈ living
      · rw [if_pos (by simp [dropped, hmem, Ne.symm hother])]
      · rw [h.dead hmem, ite_self]
  · have hend : ((s.afterAll (dropped.map .drop)).after (.drop next)).setting = n.found :=
      setting_end hstays rfl
    rw [hsteps, pageSize, hend, hfound, Option.getD_some]

/-- If overrides end in the reverse order of their making, the page size is that of the
living one made last, and the standard one if there is none. The first one that is
dropped out of this order can have its size in force when none lives any more. And in
whatever order they end, the end of one brings back the page size from before it was made. -/
theorem overrides_scoped_in_turn (steps : List Step) :
    (Nested [] steps → Scoped (initial.afterAll steps) ∧
      (∀ name rest, steps.foldl names [] = name :: rest →
        ∃ o, (initial.afterAll steps).alive[name]? = some o ∧
          (initial.afterAll steps).pageSize = o.size) ∧
      ∀ (name : String) (o : Override), (initial.afterAll steps).alive[name]? = some o →
        ¬InTurn (steps.foldl names []) (.drop name) →
        ∃ more, Leftover (initial.afterAll (steps ++ .drop name :: more)) o.size) ∧
    ∀ between name size last, (∀ step ∈ between, Step.name step ≠ name) → Step.name last = name →
      (initial.afterAll (steps ++ (.make name size :: between ++ [last]))).pageSize =
        (initial.afterAll steps).pageSize := by
  refine ⟨fun hn => ?_, fun between name size last h hlast => ?_⟩
  · have hs := stacked_afterAll stacked_initial hn
    refine ⟨hs.scoped, fun name rest he => ?_, fun name o ho hturn => ?_⟩
    · rw [he] at hs
      exact hs.pageSize_eq
    · simp only [afterAll_append]
      exact hs.leftover ho fun hhead => hturn fun _ => hhead
  · rw [afterAll_append, pageSize, setting_end_after size h hlast, pageSize]

/-- A scope in a scope, and another one after it. -/
def scopes : List Step := [.make "outer" 1024, .make "inner" 256, .drop "inner", .make "next" 512]

theorem overrides_scoped_in_turn_scopes :
    Nested [] scopes ∧ Scoped (initial.afterAll scopes) ∧ (initial.afterAll scopes).pageSize = 512 ∧
      (∃ more, Leftover (initial.afterAll (scopes ++ .drop "outer" :: more)) 1024) ∧
      (∀ step ∈ [Step.make "b" 256], step.name ≠ "a") ∧
      (initial.afterAll [.make "a" 1024, .make "b" 256, .drop "a"]).pageSize = standardPageSize := by
  have hnested : Nested [] scopes := by decide
  have hothers : ∀ step ∈ [Step.make "b" 256], step.name ≠ "a" := by decide
  have houter : (initial.afterAll scopes).alive["outer"]? = some ⟨1024, none⟩ := by decide +kernel
  have hnext : (initial.afterAll scopes).alive["next"]? = some ⟨512, some 1024⟩ := by decide +kernel
  obtain ⟨hturn, -⟩ := overrides_scoped_in_turn scopes
  obtain ⟨hscoped, hlast, hout⟩ := hturn hnested
  obtain ⟨-, hany⟩ := overrides_scoped_in_turn []
  obtain ⟨o, ho, hsize⟩ := hlast "next" ["outer"] (by decide)
  cases hnext.symm.trans ho
  exact ⟨hnested, hscoped, hsize, hout "outer" _ houter (by decide), hothers,
    hany [.make "b" 256] "a" 1024 (.drop "a") hothers rfl⟩

/-- The older of two overrides is dropped first. -/
def crossed : List Step := [.make "a" 1024, .make "b" 256, .drop "a"]

theorem alive_crossed (name : String) :
    (initial.afterAll crossed).alive[name]? = if "b" = name then some ⟨256, some 1024⟩ else none := by
  have hsteps : initial.afterAll crossed =
      (((initial.override "a" 1024).override "b" 256).drop "a").1 := rfl
  have hfound : (initial.override "a" 1024).setting = some 1024 := by decide +kernel
  have hnone : initial.alive[name]? = none := Std.TreeMap.getElem?_emptyc
  rw [hsteps, alive_drop, alive_override, alive_override, hfound, hnone]
  by_cases ha : "a" = name
  · subst ha
    rfl
  · rw [if_neg ha, if_neg ha]

/-- The younger override still lives, and the page size is the standard one; then nothing
lives, and it is that of the override that ended first. -/
theorem exists_unscoped :
    ¬Scoped (initial.afterAll crossed) ∧ ¬Scoped (initial.afterAll (crossed ++ [.drop "b"])) := by
  constructor
  · intro h
    have hpage : (initial.afterAll crossed).pageSize = standardPageSize := by decide +kernel
    obtain ⟨name, o, ho, hsize⟩ := h.living ⟨"b", by decide +kernel⟩
    rw [alive_crossed] at ho
    split at ho
    · cases ho
      cases hpage.symm.trans hsize
    · cases ho
  · intro h
    have hpage : (initial.afterAll (crossed ++ [.drop "b"])).pageSize = 1024 := by decide +kernel
    have hdead : ∀ name : String, (initial.afterAll (crossed ++ [.drop "b"])).alive[name]? = none := by
      intro name
      rw [afterAll_append]
      refine (alive_drop _ "b" name).trans ?_
      rw [alive_crossed]
      split <;> rfl
    cases hpage.symm.trans (h.standard hdead)

end PageStore.PageSizes
