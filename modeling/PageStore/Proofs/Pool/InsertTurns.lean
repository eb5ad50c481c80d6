import PageStore.Proofs.Interleaving.Coherence

/-!
# What a turn of an insert does to rows

Until its row is on a page, all that an insert does to the cache is to turn over clean
pages, and all it does to storage is to extend a file by an empty page. There is one
exception, and it is wanted: a table may ask for its new pages to be stored with their
row on them. Then the page is stored before it enters the cache, and if it does not get
there, the row stays, in the first slot of the new page.

Results:
* `gains_stow`: which rows an append stores.
* `rows_putPart`: an append whose write breaks off stores none.
* `Move.rows`: no turn of an insert does more than that.
* `Waiting.slept`, `Waiting.went`, `Waiting.act`: what holds between the turns.
-/
namespace PageStore

/-! ## Rows -/

namespace Grid

def row? (g : Grid) (slot : Nat) : Option (List Field) := g[slot]?.join

theorem row?_blank (n slot : Nat) : row? (List.replicate n none) slot = none := by
  rw [row?, List.getElem?_replicate]
  split <;> rfl

/-- The first row of a page goes into its first slot. -/
theorem row?_insert_blank {n : Nat} {fields : List Field} {g : Grid}
    (h : insert? (List.replicate n none) fields = some g) (slot : Nat) :
    g.row? slot = if slot = 0 then some fields else none := by
  cases n with
  | zero => cases h
  | succ n =>
    obtain rfl : some fields :: List.replicate n none = g := Option.some.inj h
    cases slot with
    | zero => rfl
    | succ slot =>
      rw [if_neg (Nat.succ_ne_zero slot)]
      exact row?_blank n slot

end Grid

/-- The values of the row that is stored in a slot. -/
def Store.storedRow? (s : Store) (r : RecordId) : Option (List Field) :=
  (s.contents r.page).bind (·.row? r.slot)

/-- A request of an insert. -/
inductive Purpose.Inserts (job : Placement) : Purpose → Prop
  | place {limit : Nat} : Inserts job (.place job limit)
  | append : Inserts job (.append job)

namespace Engine

/-- The values of the row that a reader finds in a slot. -/
def visibleRow? (e : Engine) (r : RecordId) : Option (List Field) :=
  (e.content? r.page).bind (·.row? r.slot)

variable {e e' : Engine} {t : TxnId} {p : PageId} {r : LockRequest Purpose} {job : Placement}
  {new : RecordId → Option (List Field)}

/-- There are these new rows, to be seen and stored, and all others are as before.
Files of no registered table keep their bytes. -/
structure Gains (new : RecordId → Option (List Field)) (e e' : Engine) : Prop where
  visible : ∀ r, e'.visibleRow? r = (new r).or (e.visibleRow? r)
  stored : ∀ r, e'.store.storedRow? r = (new r).or (e.store.storedRow? r)
  files : ∀ name : String, (∀ t f, e.store.file? t = some f → f.name ≠ name) →
    e'.store.volume.fileOf name = e.store.volume.fileOf name

/-- All rows that are to be seen, and all that are stored, are as before. -/
def SameRows (e e' : Engine) : Prop := Gains (fun _ => none) e e'

theorem SameRows.refl (e : Engine) : SameRows e e := ⟨fun _ => rfl, fun _ => rfl, fun _ _ => rfl⟩

theorem SameRows.visible (h : SameRows e e') (r : RecordId) : e'.visibleRow? r = e.visibleRow? r :=
  Gains.visible h r

theorem SameRows.stored (h : SameRows e e') (r : RecordId) :
    e'.store.storedRow? r = e.store.storedRow? r :=
  Gains.stored h r

/-- It does not matter who holds which locks before. -/
theorem Gains.unlocked {locks : LockTable Purpose} (h : Gains new (e.withLocks locks) e') :
    Gains new e e' := ⟨h.visible, h.stored, h.files⟩

theorem sameRows_withLocks (e : Engine) (locks : LockTable Purpose) :
    SameRows e (e.withLocks locks) := ⟨fun _ => rfl, fun _ => rfl, fun _ _ => rfl⟩

theorem Turnover.sameRows (hb : Backed e) (h : Turnover e e') : SameRows e e' := by
  refine ⟨fun r => ?_, fun r => ?_, fun name _ => ?_⟩
  · rw [visibleRow?, content_turnover hb h]
    rfl
  · rw [h.store]
    rfl
  · rw [h.store]

/-! ## Storing a new page -/

/-- A row in the first slot of a page. -/
def only (p : PageId) (row : List Field) (r : RecordId) : Option (List Field) :=
  if r = ⟨p, 0⟩ then some row else none

theorem rows_of_page {content content' : PageId → Option Grid} {g : Grid}
    (h : ∀ q, content' q = if q = p then some g else content q) (hn : content p = none)
    (r : RecordId) : (content' r.page).bind (·.row? r.slot) =
      (if r.page = p then g.row? r.slot else none).or ((content r.page).bind (·.row? r.slot)) := by
  rw [h]
  split
  · next hp =>
    rw [hp, hn]
    exact Option.or_none.symm
  · exact Option.none_or.symm

section
variable (hb : Backed e) {m : Mount} {filled : Page} {record : RecordId}
  (hm : e.store.catalog[p.table]? = some m) (ht : job.tuple.Sound)
  (hf : (Page.empty p m.file.layout m.file.pageSize).insert job.tuple = .ok (filled, record))
  (hi : p.index = e.store.pages p.table)

include hm in
/-- A write to the file of a registered table is not seen in files of no table. -/
theorem fileOf_put_of_unregistered {name : String}
    (hn : ∀ t f, e.store.file? t = some f → f.name ≠ name) (start : Nat) (bytes : List UInt8) :
    (m.file.put e.store.volume start bytes).fileOf name = e.store.volume.fileOf name := by
  have hfile : e.store.file? p.table = some m.file := by
    rw [Store.file?, hm]
    rfl
  rw [HeapFile.fileOf_put, if_neg fun he => hn _ _ hfile he.symm]

include hf

/-- The page that an append stores has no row, or the row in its first slot. -/
theorem rows_firstImage (r : RecordId) :
    (if r.page = p then (firstImage m.file p filled).grid.row? r.slot else none) =
      match m.file.append with
      | .extendEmpty => none
      | .writeThrough => only p job.tuple.fields r := by
  have hblank := Page.grid_empty p m.file.layout m.file.pageSize
  unfold firstImage
  cases m.file.append with
  | extendEmpty =>
    dsimp only
    rw [hblank, Grid.row?_blank, ite_self]
  | writeThrough =>
    have hfilled := Page.grid_insert hf
    rw [hblank] at hfilled
    dsimp only
    rw [Grid.row?_insert_blank hfilled, only]
    obtain ⟨q, slot⟩ := r
    simp only [RecordId.mk.injEq]
    split
    · next hq => simp only [hq, true_and]
    · next hq => simp only [hq, false_and, if_false]

include hb hm ht hi

/-- The new page shows what was stored, and all others what they did. -/
theorem content_stow (q : PageId) : (e.stow m (firstImage m.file p filled)).content? q =
    if q = p then some (firstImage m.file p filled).grid else e.content? q := by
  obtain ⟨-, hstored⟩ := hb.stow hm ht hf hi
  obtain ⟨hcached, -⟩ := hb.not_cached (Nat.le_of_eq hi.symm)
  split
  · next hq =>
    subst hq
    rw [content?, visible_of_not_cached (e := e.stow m (firstImage m.file q filled)) hcached, hstored,
      if_pos rfl, Option.map_some, Page.grid_asStored]
  · next hq =>
    rw [content?, content?, visible?, visible?, hstored, if_neg hq]
    rfl

theorem gains_stow : Gains (fun r => match m.file.append with
    | .extendEmpty => none
    | .writeThrough => only p job.tuple.fields r) e (e.stow m (firstImage m.file p filled)) := by
  obtain ⟨-, hstored⟩ := hb.stow hm ht hf hi
  obtain ⟨hcached, hnone⟩ := hb.not_cached (Nat.le_of_eq hi.symm)
  have hcontents : ∀ q, (e.stow m (firstImage m.file p filled)).store.contents q =
      if q = p then some (firstImage m.file p filled).grid else e.store.contents q := by
    intro q
    rw [Store.contents, hstored]
    split
    · rw [Option.map_some, Page.grid_asStored]
    · rfl
  refine ⟨fun r => ?_, fun r => ?_, fun name hn => ?_⟩
  · rw [← rows_firstImage hf]
    refine rows_of_page (content_stow hb hm ht hf hi) ?_ r
    rw [content?, visible_of_not_cached hcached, hnone]
    rfl
  · rw [← rows_firstImage hf]
    refine rows_of_page hcontents ?_ r
    rw [Store.contents, hnone]
    rfl
  · exact fileOf_put_of_unregistered hm hn _ _

/-- A write that breaks off before the whole page is written leaves no trace. -/
theorem rows_putPart (n : Nat) :
    let e' : Engine := { e with store := e.store.putPart m (firstImage m.file p filled) n }
    SameRows e e' ∨ e' = e.stow m (firstImage m.file p filled) := by
  intro e'
  obtain ⟨-, hid, hs, -, hsize⟩ := new_page ht hf
  have hm' : e.store.catalog[(firstImage m.file p filled).id.table]? = some m := hid.symm ▸ hm
  rcases Nat.lt_or_ge n m.file.pageSize with hn | hn
  · refine .inl ?_
    have hpage := Store.page?_putPart hb.catalog hm' hs hsize (hid.symm ▸ hi) hn
    refine ⟨fun r => ?_, fun r => ?_, fun name hname => ?_⟩
    · rw [visibleRow?, content?, visible?, hpage]
      rfl
    · rw [Store.storedRow?, Store.contents, hpage]
      rfl
    · exact fileOf_put_of_unregistered hm hname _ _
  · refine .inr ?_
    have hlen := Store.length_image_of_mount hb.catalog hm' hs hsize
    exact congrArg (Engine.mk · e.pool) (Store.putPart_of_le (hlen ▸ hn))

end

/-! ## Turns -/

/-- The row was stored as the first of a new page of its table, as the table asks for,
and the call failed all the same. -/
structure Stranded (table : TableId) (row : List Field) (x : Error) (e e' : Engine) : Prop where
  policy : ∃ f, e.store.file? table = some f ∧ f.append = .writeThrough
  cause : (∃ n, x = .noEvictablePage n) ∨ ∃ fault, x = .io fault
  gains : Gains (only ⟨table, e.store.pages table⟩ row) e e'

theorem Stranded.unlocked {table : TableId} {row : List Field} {x : Error}
    {locks : LockTable Purpose} (h : Stranded table row x (e.withLocks locks) e') :
    Stranded table row x e e' := ⟨h.policy, h.cause, h.gains.unlocked⟩

/-- What a turn of an insert may do to rows: nothing, unless the insert succeeds, or fails
after its row was stored. -/
def Harmless (job : Placement) (e e' : Engine) (progress : Progress) : Prop :=
  SameRows e e' ∨ (∃ outcome, progress = .done (.ok outcome)) ∨
    ∃ x, progress = .done (.error x) ∧ Stranded job.file.id job.tuple.fields x e e'

theorem Harmless.unlocked {progress : Progress} {locks : LockTable Purpose}
    (h : Harmless job (e.withLocks locks) e' progress) : Harmless job e e' progress := by
  rcases h with h | h | ⟨x, hx, h⟩
  · exact .inl h.unlocked
  · exact .inr (.inl h)
  · exact .inr (.inr ⟨x, hx, h.unlocked⟩)

/-- A new page was stored, and that was all. -/
theorem harmless_stow (hb : Backed e) (hj : job.Proper e.store) (hp : p.table = job.file.id)
    {m : Mount} (hm : e.store.catalog[p.table]? = some m) (hmf : m.file = job.file) {filled : Page}
    {record : RecordId}
    (hf : (Page.empty p m.file.layout m.file.pageSize).insert job.tuple = .ok (filled, record))
    (hi : p.index = e.store.pages p.table) {x : Error}
    (hx : (∃ n, x = .noEvictablePage n) ∨ ∃ fault, x = .io fault) :
    Harmless job e (e.stow m (firstImage m.file p filled)) (.done (.error x)) := by
  have hgains := gains_stow hb hm hj.tuple hf hi
  have hlast : p = ⟨job.file.id, e.store.pages job.file.id⟩ := by
    rw [← hp, ← hi]
  cases happend : m.file.append with
  | extendEmpty =>
    simp only [happend] at hgains
    exact .inl hgains
  | writeThrough =>
    simp only [happend] at hgains
    refine .inr (.inr ⟨x, rfl, ⟨job.file, hj.file, hmf ▸ happend⟩, hx, ?_⟩)
    rw [← hlast]
    exact hgains

theorem Served.harmless {mode : LockMode} {purpose : Purpose} {a : Advance}
    (h : Served e t p purpose e' a) (hb : Backed e)
    (hr : LockRequest.Proper ⟨t, p, mode, purpose⟩ e.store) (hi : purpose.Inserts job) :
    Harmless job e e' (progressOf t a) := by
  cases h with
  | held => cases hi
  | failed h => exact .inl (h.sameRows hb)
  | fetched => cases hi
  | passed h => exact .inl (h.sameRows hb)
  | changed => exact .inr (.inl ⟨_, rfl⟩)
  | overtaken => exact .inl (.refl e)
  | stranded hm hj hlast hf =>
    cases hi
    exact harmless_stow hb hr.1 hr.2.1 hm hj hf hlast (.inl ⟨_, rfl⟩)
  | appended => exact .inr (.inl ⟨_, rfl⟩)

/-- A turn of a request: as the engine takes it, or one in which the write of the page to
be appended breaks off after `n` bytes. -/
inductive Move (e : Engine) (r : LockRequest Purpose) : Engine → Progress → Prop
  | turn {ticket : Ticket} {which : Turn} {e' : Engine} {progress : Progress}
      (h : e.turn ticket r which = (e', progress)) : Move e r e' progress
  | broken {ticket : Ticket} {which : Turn} {locks : LockTable Purpose} {job : Placement}
      {m : Mount} {filled : Page} {record : RecordId} {n : Nat} {fault : StorageFault}
      (hg : e.pool.locks.request ticket r which = (locks, .granted)) (hp : r.purpose = .append job)
      (hm : e.store.catalog[r.page.table]? = some m) (hi : r.page.index = e.store.pages r.page.table)
      (hf : (Page.empty r.page m.file.layout m.file.pageSize).insert job.tuple = .ok (filled, record)) :
      Move e r
        { e.withLocks locks with store := e.store.putPart m (firstImage m.file r.page filled) n }
        (.done (.error (.io fault)))

/-- No turn of an insert does harm. -/
theorem Move.rows {progress : Progress} (h : Move e r e' progress) (hb : Backed e)
    (hr : r.Proper e.store) (hi : r.purpose.Inserts job) : Harmless job e e' progress := by
  cases h with
  | @turn ticket which _ _ h =>
    have hg := hb.withLocks (e.pool.locks.request ticket r which).1
    rcases turn_cases e ticket r which with ⟨-, he⟩ | ⟨-, he⟩ | ⟨-, he⟩
    · obtain ⟨rfl, rfl⟩ := Prod.mk.inj (h.symm.trans he)
      exact ((serve_spec hg hr).harmless hg hr hi).unlocked
    · obtain ⟨rfl, -⟩ := Prod.mk.inj (h.symm.trans he)
      exact .inl (sameRows_withLocks e _)
    · obtain ⟨rfl, -⟩ := Prod.mk.inj (h.symm.trans he)
      exact .inl ⟨fun _ => rfl, fun _ => rfl, fun _ _ => rfl⟩
  | @broken _ _ locks job' m filled _ n fault hg hp hm hlast hf =>
    rw [hp] at hi
    cases hi
    obtain ⟨t, p, mode, purpose⟩ := r
    cases hp
    have hmf : m.file = job.file := by
      have hfile := hr.1.file
      rw [← hr.2.1, Store.file?, hm] at hfile
      exact Option.some.inj hfile
    have hl := hb.withLocks locks
    have hharmless : Harmless job (e.withLocks locks)
        { e.withLocks locks with store := e.store.putPart m (firstImage m.file p filled) n }
        (.done (.error (.io fault))) := by
      rcases rows_putPart hl hm hr.1.tuple hf hlast n with hsame | hwhole
      · exact .inl hsame
      · rw [← store_withLocks e locks, hwhole]
        exact harmless_stow hl hr.1 hr.2.1 hm hmf hf hlast (.inr ⟨fault, rfl⟩)
    exact hharmless.unlocked

/-! ## From turn to turn -/

theorem inserts_nextPlace {page count : Nat}
    (h : progressOf t (HeapFile.nextPlace job page count) = .next r) : r.purpose.Inserts job := by
  unfold HeapFile.nextPlace at h
  split at h
  · cases h
    exact .place
  · cases h
    exact .append

/-- A request that comes next is for the same row. -/
theorem Served.inserts {purpose : Purpose} {a : Advance} (h : Served e t p purpose e' a)
    (hi : purpose.Inserts job) (hn : progressOf t a = .next r) : r.purpose.Inserts job := by
  cases h with
  | passed =>
    cases hi
    exact inserts_nextPlace hn
  | overtaken =>
    cases hi
    exact inserts_nextPlace hn
  | _ => cases hn

/-- What holds between the turns of an insert. -/
structure Waiting (job : Placement) (e : Engine) (r : LockRequest Purpose) : Prop where
  backed : Backed e
  proper : r.Proper e.store
  inserts : r.purpose.Inserts job

theorem Waiting.slept (h : Waiting job e r) (hm : Move e r e' .asleep) : Waiting job e' r := by
  cases hm with
  | @turn ticket which _ _ ht =>
    have hb := h.backed.turn h.proper ticket which
    have hk := keeps_turn h.backed h.proper ticket which
    rw [ht] at hb hk
    exact ⟨hb, proper_of_files hk h.proper, h.inserts⟩

theorem Waiting.went {r' : LockRequest Purpose} (h : Waiting job e r) (hm : Move e r e' (.next r')) :
    Waiting job e' r' := by
  cases hm with
  | @turn ticket which _ _ ht =>
    have hg := h.backed.withLocks (e.pool.locks.request ticket r which).1
    have hb := h.backed.turn h.proper ticket which
    rw [ht] at hb
    rcases turn_cases e ticket r which with ⟨-, he⟩ | ⟨-, he⟩ | ⟨-, he⟩
    · obtain ⟨rfl, hn⟩ := Prod.mk.inj (ht.symm.trans he)
      have hserved := serve_spec hg h.proper
      exact ⟨hb, (hserved.proper h.proper hn.symm).2, hserved.inserts h.inserts hn.symm⟩
    · cases ht.symm.trans he
    · cases ht.symm.trans he

theorem Waiting.act (h : Waiting job e r) {a : Act} (ha : a.Orderly e) : Waiting job (e.act a) r :=
  ⟨h.backed.act ha, proper_of_files (keeps_act h.backed ha) h.proper, h.inserts⟩

end Engine
end PageStore
