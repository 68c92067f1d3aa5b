import SymbolIndex.Proofs.Landing

/-!
# One builder per header

A table of precompiled headers is shared by those who build headers, those who wait for them and
those who move or drop finished ones. Slots, tickets and marks of buffers are three views of it, and
every operation changes some of them.

A `SharedTable` is a table together with what its users have in hand, the reservations and the
tickets, and with notes of how reservations ended and which keys were taken out. `SharedTable.act`
is one operation by one user; the users take turns in any order. `SharedTable.Kept` says how the
three views follow from what is in hand and from the notes. `one_builder_per_key` reads it after any
list of operations.
-/

namespace SymbolIndex

open List Nat PchTable SortedMap

namespace Pch

/-! ## Users of a table -/

namespace Ending

def status : Ending → Status
  | .completed entry _ => .ready entry
  | .released => .failed
  | .abandoned => .abandoned

def entry? : Ending → Option PchEntry
  | .completed entry _ => some entry
  | .released | .abandoned => none

def fromUnsaved : Ending → Bool
  | .completed _ fromUnsaved => fromUnsaved
  | .released | .abandoned => false

end Ending

/-- Who has got a ticket, and what was learned from it. -/
structure Waiter where
  ticket : Nat
  during : Option Reservation
  answer : Option (Option PchEntry) := none

def Waiter.look (t : PchTable) (w : Waiter) : Waiter :=
  match w.answer with
  | some _ => w
  | none => if t.settled w.ticket then { w with answer := some (t.outcome? w.ticket) } else w

/-- What was last known of a key. -/
inductive Note where
  | ended (r : Reservation) (how : Ending)
  | gone (key : String)

namespace Note

def key : Note → String
  | .ended r _ => r.key
  | .gone key => key

def origin? : Note → Option Path
  | .ended _ how => how.entry?.map PchEntry.originHeader
  | .gone _ => none

def fromUnsaved : Note → Bool
  | .ended _ how => how.fromUnsaved
  | .gone _ => false

/-- The last note about a key. -/
def latest? (notes : List Note) (key : String) : Option Note :=
  notes.find? (fun note => note.key = key)

end Note

/-- What one user does to a table. -/
inductive TableOperation where
  | reserve (key : String)
  | finish (r : Reservation) (how : Ending)
  | watch (key : String)
  | look (n : Nat)
  | lookUp (disk : Disk) (key : String)
  | relocate (disk : Disk) (db : Path)
  | remove (key : String)

/-- A table with what its users have in hand and what they noted. -/
structure SharedTable where
  table : PchTable := {}
  held : List Reservation := []
  waiters : List Waiter := []
  notes : List Note := []

namespace SharedTable

/-- Somebody gets the ticket of a key. -/
def join (d : SharedTable) (key : String) (ticket : Nat) : SharedTable :=
  { d with waiters :=
      d.waiters ++ [{ ticket := ticket, during := d.held.find? (fun r => r.key = key) }] }

/-- One operation. A reservation is finished only by the one who has it in hand, and a key is
removed only while nobody has a reservation for it; else nothing happens. -/
def act (d : SharedTable) : TableOperation → SharedTable
  | .reserve key =>
    match d.table.reserve key with
    | (.ready _, table) => { d with table := table }
    | (.wait ticket, table) => { d with table := table }.join key ticket
    | (.reserved r, table) => { d with table := table, held := r :: d.held }
  | .finish r how =>
    if r ∈ d.held then
      { d with
        table := how.conclude d.table r
        held := d.held.filter (fun other => other ≠ r)
        notes := .ended r how :: d.notes }
    else d
  | .watch key =>
    match d.table.inFlight? key with
    | some ticket => d.join key ticket
    | none => d
  | .look n => { d with waiters := d.waiters.modify n (Waiter.look d.table) }
  | .lookUp disk key =>
    let found := d.table.lookupForInclude disk key
    let dropped := if (d.table.origin? key).isSome ∧ found.1 = none then [key] else []
    { d with table := found.2, notes := dropped.map .gone ++ d.notes }
  | .relocate disk db =>
    let moved := d.table.relocateAll disk db
    { d with table := moved.table, notes := moved.report.dropped.map .gone ++ d.notes }
  | .remove key =>
    if ∀ r ∈ d.held, r.key ≠ key then
      { d with table := d.table.remove key, notes := .gone key :: d.notes }
    else d

end SharedTable

end Pch

namespace PchTable

open Pch

variable {t t' t'' : PchTable} {key : String} {r : Reservation} {ticket : Nat}

theorem origin?_ne_none :
    t.origin? key ≠ none ↔ ∃ entry, t.slots.get? key = some (.ready entry) := by
  unfold origin?
  split
  · next entry hentry => simp [hentry]
  · next hnone =>
    simp only [ne_eq, not_true, false_iff, not_exists]
    exact hnone

/-! ## Taking keys out -/

/-- Some keys are gone from a table, and the rest stays. -/
structure Drops (t t' : PchTable) (gone : List String) : Prop where
  tickets : t'.tickets = t.tickets
  building : ∀ key ticket, t'.slots.get? key = some (.building ticket)
    ↔ t.slots.get? key = some (.building ticket) ∧ key ∉ gone
  origin : ∀ key, t'.origin? key = if key ∈ gone then none else t.origin? key
  marks : ∀ key, t'.isFromUnsaved key = true ↔ t.isFromUnsaved key = true ∧ key ∉ gone

theorem Drops.refl (t : PchTable) : Drops t t [] := by
  constructor <;> simp

theorem Drops.trans {gone gone' : List String} (h : Drops t t' gone) (h' : Drops t' t'' gone') :
    Drops t t'' (gone ++ gone') where
  tickets := h'.tickets.trans h.tickets
  building := by
    intro key ticket
    rw [h'.building, h.building, mem_append, not_or, and_assoc]
  origin := by
    intro key
    rw [h'.origin, h.origin]
    by_cases hkey : key ∈ gone <;> by_cases hkey' : key ∈ gone' <;> simp [hkey, hkey']
  marks := by
    intro key
    rw [h'.marks, h.marks, mem_append, not_or, and_assoc]

theorem drops_remove (t : PchTable) (key : String) : Drops t (t.remove key) [key] where
  tickets := rfl
  building := by
    intro k ticket
    unfold remove
    by_cases hk : k = key <;> simp [get?_erase, hk]
  origin := by
    intro k
    unfold origin? remove
    by_cases hk : k = key <;> simp [get?_erase, hk]
  marks := by
    intro k
    unfold isFromUnsaved remove
    by_cases hk : k = key <;> simp [hk]

theorem drops_replace {entry entry' : PchEntry} (hget : t.slots.get? key = some (.ready entry))
    (horigin : entry'.originHeader = entry.originHeader) :
    Drops t { t with slots := t.slots.insert key (.ready entry') } [] where
  tickets := rfl
  building := by
    intro k ticket
    by_cases hk : k = key <;> simp [hk, hget]
  origin := by
    intro k
    unfold origin?
    by_cases hk : k = key <;> simp [hk, hget, horigin]
  marks := by simp [isFromUnsaved]

/-- Only finished headers are gone. -/
structure Loses (t t' : PchTable) (gone : List String) : Prop extends Drops t t' gone where
  ready : ∀ key ∈ gone, t.origin? key ≠ none

theorem Loses.relocateOne {r : Relocation} (h : Loses t r.table r.report.dropped) (db : Path)
    (key : String) :
    Loses t (relocateOne db r key).table (relocateOne db r key).report.dropped := by
  unfold PchTable.relocateOne
  split
  · next entry hentry =>
    simp only
    split
    · exact h
    · split
      · have hmoved : Drops r.table { r.table with
              slots := r.table.slots.insert key
                (.ready { entry with artifactPath := destination db key }) } [] :=
          drops_replace hentry rfl
        exact ⟨by simpa using h.toDrops.trans hmoved, h.ready⟩
      · refine ⟨h.toDrops.trans (drops_remove r.table key), ?_⟩
        intro k hk
        rcases mem_append.mp hk with hk | hk
        · exact h.ready k hk
        · -- The key is ready now, and nothing becomes ready on the way.
          obtain rfl : k = key := by simpa using hk
          have hready : r.table.origin? k = some entry.originHeader := by
            unfold origin?
            rw [hentry]
          rw [h.origin k] at hready
          intro hnone
          simp [hnone] at hready
  · exact h

theorem loses_relocateAll (t : PchTable) (disk : Disk) (db : Path) :
    Loses t (t.relocateAll disk db).table (t.relocateAll disk db).report.dropped := by
  have hfold : ∀ (keys : List String) (r : Relocation), Loses t r.table r.report.dropped →
      Loses t (keys.foldl (PchTable.relocateOne db) r).table
        (keys.foldl (PchTable.relocateOne db) r).report.dropped := by
    intro keys
    induction keys with
    | nil => exact fun r h => h
    | cons key _ ih => exact fun r h => ih _ (h.relocateOne db key)
  have hstart : Loses t t [] := ⟨.refl t, by simp⟩
  unfold relocateAll
  split
  · exact hstart
  · refine hfold _ _ ?_
    split <;> exact hstart

theorem drops_lookupForInclude (t : PchTable) (disk : Disk) (key : String) :
    Drops t (t.lookupForInclude disk key).2
      (if (t.origin? key).isSome ∧ (t.lookupForInclude disk key).1 = none then [key] else []) := by
  unfold lookupForInclude
  split
  · next entry hentry =>
    have hready : (t.origin? key).isSome = true := by
      unfold origin?
      rw [hentry]
      rfl
    split
    · simpa using Drops.refl t
    · simpa [hready] using t.drops_remove key
  · next hnone =>
    have hready : t.origin? key = none := by
      unfold origin?
      split
      · next entry hentry => exact absurd hentry (hnone entry)
      · rfl
    simpa [hready] using Drops.refl t

/-! ## Tickets -/

theorem lt_of_status_building (h : t.status ticket = .building) : ticket < t.tickets.length := by
  rcases Nat.lt_or_ge ticket t.tickets.length with hlt | hge
  · exact hlt
  · unfold status at h
    rw [getD_eq_getElem?_getD, getElem?_eq_none hge] at h
    cases h

theorem status_book (t : PchTable) (key : String) (ticket : Nat) : (t.book key).2.status ticket
      = if ticket = t.tickets.length then .building else t.status ticket := by
  unfold status book
  simp only [getD_eq_getElem?_getD, getElem?_append]
  by_cases hlt : ticket < t.tickets.length
  · simp [hlt, Nat.ne_of_lt hlt]
  · by_cases heq : ticket = t.tickets.length
    · simp [heq]
    · -- No ticket of this number was given out, before or after.
      have hbeyond : 1 ≤ ticket - t.tickets.length := by omega
      rw [if_neg hlt, if_neg heq, getElem?_eq_none (by simpa using hbeyond),
        getElem?_eq_none (by omega)]

theorem status_conclude (how : Ending) (hlt : r.ticket < t.tickets.length) (ticket : Nat) :
    (how.conclude t r).status ticket
      = if ticket = r.ticket then how.status else t.status ticket := by
  have hset : (how.conclude t r).tickets = t.tickets.set r.ticket how.status := by
    cases how <;> rfl
  unfold status
  simp only [hset, getD_eq_getElem?_getD, getElem?_set]
  by_cases heq : ticket = r.ticket
  · simp [heq, hlt]
  · simp [heq, Ne.symm heq]

theorem length_conclude (how : Ending) (t : PchTable) (r : Reservation) :
    (how.conclude t r).tickets.length = t.tickets.length := by
  cases how <;> exact length_set

theorem building_book (t : PchTable) (key k : String) (ticket : Nat) :
    (t.book key).2.slots.get? k = some (.building ticket)
      ↔ if k = key then ticket = t.tickets.length
        else t.slots.get? k = some (.building ticket) := by
  unfold book
  by_cases hk : k = key
  · simp [hk, eq_comm]
  · simp [hk]

theorem origin?_book (h : t.origin? key = none) (k : String) :
    (t.book key).2.origin? k = t.origin? k := by
  by_cases hk : k = key
  · rw [hk, h]
    simp [origin?, book]
  · simp [origin?, book, hk]

/-! ## Ending a reservation -/

theorem building_conclude (how : Ending) (t : PchTable) (r : Reservation) {k : String}
    (hk : k ≠ r.key) : (how.conclude t r).slots.get? k = t.slots.get? k := by
  cases how with
  | completed => simp [Ending.conclude, complete, setStatus, hk]
  | released => simp [Ending.conclude, release, setStatus, get?_erase, hk]
  | abandoned => rfl

theorem slot_conclude (how : Ending) (hget : t.slots.get? r.key = some (.building r.ticket))
    (h : (how.conclude t r).slots.get? r.key = some (.building ticket)) : ticket = r.ticket := by
  cases how with
  | completed => simp [Ending.conclude, complete, setStatus] at h
  | released => simp [Ending.conclude, release, setStatus, get?_erase] at h
  | abandoned =>
    have hsame : t.slots.get? r.key = some (.building ticket) := h
    rw [hget] at hsame
    simpa using hsame.symm

theorem origin?_conclude (how : Ending) (hget : t.slots.get? r.key = some (.building r.ticket))
    (k : String) :
    (how.conclude t r).origin? k
      = if k = r.key then how.entry?.map PchEntry.originHeader else t.origin? k := by
  by_cases hk : k = r.key
  · subst hk
    cases how with
    | completed => simp [Ending.conclude, Ending.entry?, origin?_complete]
    | released =>
      simp [Ending.conclude, Ending.entry?, origin?, release, setStatus, get?_erase]
    | abandoned => simp [Ending.conclude, Ending.entry?, origin?, abandon, setStatus, hget]
  · unfold origin?
    rw [building_conclude how t r hk, if_neg hk]

theorem marks_conclude (how : Ending) (hmark : t.isFromUnsaved r.key = false) (k : String) :
    (how.conclude t r).isFromUnsaved k
      = if k = r.key then how.fromUnsaved else t.isFromUnsaved k := by
  unfold isFromUnsaved at hmark ⊢
  cases how with
  | completed _ fromUnsaved =>
    cases fromUnsaved <;> by_cases hk : k = r.key <;>
      simp [Ending.conclude, Ending.fromUnsaved, complete, setStatus, hk]
  | released =>
    by_cases hk : k = r.key <;> simp [Ending.conclude, Ending.fromUnsaved, release, setStatus, hk]
  | abandoned =>
    by_cases hk : k = r.key
    · simp [Ending.conclude, Ending.fromUnsaved, abandon, setStatus, hk, hmark]
    · simp [Ending.conclude, abandon, setStatus, hk]

end PchTable

namespace Pch

variable {note : Note}

theorem Note.latest?_cons (note : Note) (notes : List Note) (key : String) :
    latest? (note :: notes) key = if key = note.key then some note else latest? notes key := by
  unfold latest?
  rw [find?_cons]
  by_cases hkey : key = note.key
  · simp [hkey]
  · simp [hkey, Ne.symm hkey]

theorem Note.latest?_gone (gone : List String) (notes : List Note) (key : String) :
    latest? (gone.map .gone ++ notes) key
      = if key ∈ gone then some (.gone key) else latest? notes key := by
  induction gone with
  | nil => simp
  | cons first rest ih =>
    rw [map_cons, cons_append, latest?_cons, ih]
    by_cases hfirst : key = first <;> by_cases hrest : key ∈ rest <;>
      simp [Note.key, hfirst, hrest]

theorem Note.origin?_ne_none : note.origin? ≠ none
      ↔ ∃ r entry fromUnsaved, note = .ended r (.completed entry fromUnsaved) := by
  cases note with
  | gone => simp [Note.origin?]
  | ended r how => cases how <;> simp [Note.origin?, Ending.entry?]

theorem Note.fromUnsaved_eq_true :
    note.fromUnsaved = true ↔ ∃ r entry, note = .ended r (.completed entry true) := by
  cases note with
  | gone => simp [Note.fromUnsaved]
  | ended r how => cases how <;> simp [Note.fromUnsaved, Ending.fromUnsaved]

theorem Waiter.during_look (t : PchTable) (w : Waiter) : (w.look t).during = w.during := by
  unfold Waiter.look
  split
  · rfl
  · split <;> rfl

theorem Waiter.ticket_look (t : PchTable) (w : Waiter) : (w.look t).ticket = w.ticket := by
  unfold Waiter.look
  split
  · rfl
  · split <;> rfl

namespace SharedTable

variable {d : SharedTable} {r : Reservation} {key : String}

/-! ## What the three views have in common -/

/-- Slots, tickets and marks are what the reservations in hand and the notes say. -/
structure Kept (d : SharedTable) : Prop where
  slot : ∀ r ∈ d.held, d.table.slots.get? r.key = some (.building r.ticket)
  pending : ∀ r ∈ d.held, d.table.status r.ticket = .building
  holder : ∀ key ticket, d.table.slots.get? key = some (.building ticket) →
    d.table.status ticket = .building → { key := key, ticket := ticket } ∈ d.held
  given : ∀ key ticket, d.table.slots.get? key = some (.building ticket) →
    ticket < d.table.tickets.length
  apart : (d.held.map Reservation.key).Nodup
  unlike : ∀ r ∈ d.held, ∀ r' ∈ d.held, r.ticket = r'.ticket → r = r'
  ended : ∀ r how, .ended r how ∈ d.notes →
    r.ticket < d.table.tickets.length ∧ d.table.status r.ticket = how.status
  once : ∀ r how how', .ended r how ∈ d.notes → .ended r how' ∈ d.notes → how = how'
  origin : ∀ key, d.table.origin? key = (Note.latest? d.notes key).bind Note.origin?
  marks : ∀ key, d.table.isFromUnsaved key
    = ((Note.latest? d.notes key).map Note.fromUnsaved).getD false
  waits : ∀ w ∈ d.waiters, ∀ r, w.during = some r → w.ticket = r.ticket
    ∧ (r ∈ d.held ∨ ∃ how, .ended r how ∈ d.notes)
    ∧ ∀ answer, w.answer = some answer → ∃ how, .ended r how ∈ d.notes ∧ answer = how.entry?

theorem kept_start : Kept {} := by
  constructor <;> simp [Note.latest?, PchTable.origin?, PchTable.isFromUnsaved]

section

variable (h : d.Kept)

include h

theorem Kept.settled {how : Ending} (hended : .ended r how ∈ d.notes) :
    d.table.settled r.ticket = true ∧ d.table.outcome? r.ticket = how.entry? := by
  unfold PchTable.settled PchTable.outcome?
  rw [(h.ended r how hended).2]
  cases how <;> simp [Ending.status, Ending.entry?]

theorem Kept.not_ended (hr : r ∈ d.held) (how : Ending) : .ended r how ∉ d.notes := by
  intro hended
  have hstatus := (h.ended r how hended).2
  rw [h.pending r hr] at hstatus
  cases how <;> simp [Ending.status] at hstatus

theorem Kept.not_ready (hr : r ∈ d.held) : d.table.origin? r.key = none := by
  unfold PchTable.origin?
  rw [h.slot r hr]

theorem Kept.ready_iff (key : String) : d.table.origin? key ≠ none ↔ ∃ r entry fromUnsaved,
        Note.latest? d.notes key = some (.ended r (.completed entry fromUnsaved)) := by
  rw [h.origin key]
  cases hlatest : Note.latest? d.notes key with
  | none => simp
  | some => simpa using Note.origin?_ne_none

theorem Kept.marked_iff (key : String) : d.table.isFromUnsaved key = true ↔
      ∃ r entry, Note.latest? d.notes key = some (.ended r (.completed entry true)) := by
  rw [h.marks key]
  cases hlatest : Note.latest? d.notes key with
  | none => simp
  | some => simpa using Note.fromUnsaved_eq_true

theorem Kept.unmarked (hr : r ∈ d.held) : d.table.isFromUnsaved r.key = false := by
  rw [← Bool.not_eq_true]
  intro hmark
  obtain ⟨r', entry, hlatest⟩ := (h.marked_iff r.key).mp hmark
  exact (h.ready_iff r.key).mpr ⟨r', entry, true, hlatest⟩ (h.not_ready hr)

/-- Another reservation in hand is for another key and has another ticket. -/
theorem Kept.other {r' : Reservation} (hr : r ∈ d.held) (hr' : r' ∈ d.held) (hne : r' ≠ r) :
    r'.key ≠ r.key ∧ r'.ticket ≠ r.ticket := by
  refine ⟨fun heq => ?_, fun heq => hne (h.unlike r' hr' r hr heq)⟩
  have hslot := h.slot r' hr'
  rw [heq, h.slot r hr] at hslot
  exact hne (h.unlike r' hr' r hr (by simpa [eq_comm] using hslot))

/-! ## One operation -/

theorem Kept.book (hready : d.table.origin? key = none)
    (hfree : ∀ ticket, d.table.slots.get? key = some (.building ticket) →
      d.table.status ticket ≠ .building) :
    Kept { d with
      table := (d.table.book key).2
      held := { key := key, ticket := d.table.tickets.length } :: d.held } := by
  -- Nobody holds a reservation for the key, and the new ticket is nobody else's.
  have hkey : ∀ r ∈ d.held, r.key ≠ key := by
    intro r hr heq
    have hslot := h.slot r hr
    rw [heq] at hslot
    exact hfree r.ticket hslot (h.pending r hr)
  have hticket : ∀ r ∈ d.held, r.ticket ≠ d.table.tickets.length :=
    fun r hr => Nat.ne_of_lt (lt_of_status_building (h.pending r hr))
  constructor
  case slot =>
    intro r hr
    rw [building_book]
    rcases mem_cons.mp hr with rfl | hr
    · simp
    · rw [if_neg (hkey r hr)]
      exact h.slot r hr
  case pending =>
    intro r hr
    rw [status_book]
    rcases mem_cons.mp hr with rfl | hr
    · simp
    · rw [if_neg (hticket r hr)]
      exact h.pending r hr
  case holder =>
    intro k ticket hget hopen
    rw [building_book] at hget
    by_cases hk : k = key
    · rw [if_pos hk] at hget
      rw [hk, hget]
      exact mem_cons_self
    · rw [if_neg hk] at hget
      rw [status_book, if_neg (Nat.ne_of_lt (h.given k ticket hget))] at hopen
      exact mem_cons_of_mem _ (h.holder k ticket hget hopen)
  case given =>
    intro k ticket hget
    rw [building_book] at hget
    have hlength : (d.table.book key).2.tickets.length = d.table.tickets.length + 1 := by
      simp [PchTable.book]
    rw [hlength]
    split at hget
    · omega
    · have hlt := h.given k ticket hget
      omega
  case apart =>
    rw [map_cons, nodup_cons]
    refine ⟨?_, h.apart⟩
    rintro hmem
    obtain ⟨r, hr, heq⟩ := mem_map.mp hmem
    exact hkey r hr heq
  case unlike =>
    intro r hr r' hr' heq
    rcases mem_cons.mp hr with rfl | hr
    · rcases mem_cons.mp hr' with rfl | hr'
      · rfl
      · exact absurd heq.symm (hticket r' hr')
    · rcases mem_cons.mp hr' with rfl | hr'
      · exact absurd heq (hticket r hr)
      · exact h.unlike r hr r' hr' heq
  case ended =>
    intro r how hended
    obtain ⟨hlt, hstatus⟩ := h.ended r how hended
    refine ⟨by simpa [PchTable.book] using lt_succ_of_lt hlt, ?_⟩
    rw [status_book, if_neg (Nat.ne_of_lt hlt)]
    exact hstatus
  case once => exact h.once
  case origin => exact fun k => (origin?_book hready k).trans (h.origin k)
  case marks => exact h.marks
  case waits =>
    intro w hw r hr
    obtain ⟨hticket, hplace, hanswer⟩ := h.waits w hw r hr
    exact ⟨hticket, hplace.imp_left (mem_cons_of_mem _), hanswer⟩

theorem Kept.finish (hr : r ∈ d.held) (how : Ending) : Kept { d with
      table := how.conclude d.table r
      held := d.held.filter (fun other => other ≠ r)
      notes := .ended r how :: d.notes } := by
  have hget := h.slot r hr
  have hlt := lt_of_status_building (h.pending r hr)
  have hclosed : how.status ≠ .building := by cases how <;> simp [Ending.status]
  constructor
  case slot =>
    intro r' hr'
    obtain ⟨hr', hne⟩ := by simpa using hr'
    rw [building_conclude how _ _ (h.other hr hr' hne).1]
    exact h.slot r' hr'
  case pending =>
    intro r' hr'
    obtain ⟨hr', hne⟩ := by simpa using hr'
    rw [status_conclude how hlt, if_neg (h.other hr hr' hne).2]
    exact h.pending r' hr'
  case holder =>
    intro k ticket hslot hopen
    rw [status_conclude how hlt] at hopen
    by_cases hticket : ticket = r.ticket
    · rw [if_pos hticket] at hopen
      exact absurd hopen hclosed
    · rw [if_neg hticket] at hopen
      have hk : k ≠ r.key := by
        intro hk
        rw [hk] at hslot
        exact hticket (slot_conclude how hget hslot)
      rw [building_conclude how _ _ hk] at hslot
      refine mem_filter.mpr ⟨h.holder k ticket hslot hopen, ?_⟩
      have hne : ({ key := k, ticket := ticket } : Reservation) ≠ r := by
        rintro rfl
        exact hk rfl
      simpa using hne
  case given =>
    intro k ticket hslot
    rw [length_conclude]
    by_cases hk : k = r.key
    · rw [hk] at hslot
      rw [slot_conclude how hget hslot]
      exact hlt
    · rw [building_conclude how _ _ hk] at hslot
      exact h.given k ticket hslot
  case apart => exact h.apart.sublist (filter_sublist.map _)
  case unlike =>
    exact fun r' hr' r'' hr'' =>
      h.unlike r' (mem_filter.mp hr').1 r'' (mem_filter.mp hr'').1
  case ended =>
    intro r' how' hended
    rw [length_conclude, status_conclude how hlt]
    rcases mem_cons.mp hended with heq | hended
    · obtain ⟨rfl, rfl⟩ := by simpa using heq
      exact ⟨hlt, if_pos rfl⟩
    · obtain ⟨hlt', hstatus⟩ := h.ended r' how' hended
      refine ⟨hlt', ?_⟩
      have hne : r'.ticket ≠ r.ticket := by
        intro heq
        rw [heq, h.pending r hr] at hstatus
        cases how' <;> simp [Ending.status] at hstatus
      rw [if_neg hne]
      exact hstatus
  case once =>
    intro r' how₁ how₂ hmem₁ hmem₂
    rcases mem_cons.mp hmem₁ with heq | hold₁
    · obtain ⟨rfl, rfl⟩ := by simpa using heq
      rcases mem_cons.mp hmem₂ with heq | hold₂
      · simpa using heq.symm
      · exact absurd hold₂ (h.not_ended hr how₂)
    · rcases mem_cons.mp hmem₂ with heq | hold₂
      · obtain ⟨rfl, rfl⟩ := by simpa using heq
        exact absurd hold₁ (h.not_ended hr how₁)
      · exact h.once r' how₁ how₂ hold₁ hold₂
  case origin =>
    intro k
    rw [origin?_conclude how hget, Note.latest?_cons, h.origin k]
    by_cases hk : k = r.key <;> simp [Note.key, Note.origin?, hk]
  case marks =>
    intro k
    rw [marks_conclude how (h.unmarked hr), Note.latest?_cons, h.marks k]
    by_cases hk : k = r.key <;> simp [Note.key, Note.fromUnsaved, hk]
  case waits =>
    intro w hw r' hduring
    obtain ⟨hticket, hplace, hanswer⟩ := h.waits w hw r' hduring
    refine ⟨hticket, ?_, ?_⟩
    · by_cases heq : r' = r
      · exact .inr ⟨how, heq ▸ mem_cons_self⟩
      · rcases hplace with hheld | ⟨how', hended⟩
        · exact .inl (mem_filter.mpr ⟨hheld, by simpa using heq⟩)
        · exact .inr ⟨how', mem_cons_of_mem _ hended⟩
    · intro answer hanswered
      obtain ⟨how', hended, heq⟩ := hanswer answer hanswered
      exact ⟨how', mem_cons_of_mem _ hended, heq⟩

theorem Kept.drop {table : PchTable} {gone : List String}
    (hdrops : d.table.Drops table gone) (hfree : ∀ r ∈ d.held, r.key ∉ gone) :
    Kept { d with table := table, notes := gone.map .gone ++ d.notes } := by
  have hstatus : ∀ ticket, table.status ticket = d.table.status ticket := by
    intro ticket
    unfold PchTable.status
    rw [hdrops.tickets]
  have hended : ∀ r how, .ended r how ∈ gone.map .gone ++ d.notes ↔ .ended r how ∈ d.notes := by
    intro r how
    simp
  constructor
  case slot => exact fun r hr => (hdrops.building _ _).mpr ⟨h.slot r hr, hfree r hr⟩
  case pending => exact fun r hr => (hstatus _).trans (h.pending r hr)
  case holder =>
    intro key ticket hget hopen
    exact h.holder key ticket ((hdrops.building _ _).mp hget).1 ((hstatus _).symm.trans hopen)
  case given =>
    intro key ticket hget
    rw [hdrops.tickets]
    exact h.given key ticket ((hdrops.building _ _).mp hget).1
  case apart => exact h.apart
  case unlike => exact h.unlike
  case ended =>
    intro r how hmem
    rw [hdrops.tickets, hstatus]
    exact h.ended r how ((hended r how).mp hmem)
  case once =>
    intro r how how' hmem hmem'
    exact h.once r how how' ((hended r how).mp hmem) ((hended r how').mp hmem')
  case origin =>
    intro key
    rw [hdrops.origin, Note.latest?_gone, h.origin key]
    by_cases hkey : key ∈ gone <;> simp [hkey, Note.origin?]
  case marks =>
    intro key
    rw [Note.latest?_gone, Bool.eq_iff_iff, hdrops.marks, h.marks key]
    by_cases hkey : key ∈ gone <;> simp [hkey, Note.fromUnsaved]
  case waits =>
    intro w hw r hr
    obtain ⟨hticket, hplace, hanswer⟩ := h.waits w hw r hr
    refine ⟨hticket, hplace.imp_right ?_, ?_⟩
    · rintro ⟨how, hmem⟩
      exact ⟨how, (hended r how).mpr hmem⟩
    · intro answer hanswered
      obtain ⟨how, hmem, heq⟩ := hanswer answer hanswered
      exact ⟨how, (hended r how).mpr hmem, heq⟩

theorem Kept.join {ticket : Nat}
    (hget : d.table.slots.get? key = some (.building ticket)) : (d.join key ticket).Kept := by
  refine { h with waits := ?_ }
  intro w hw r hr
  rcases mem_append.mp hw with hw | hw
  · exact h.waits w hw r hr
  · -- The reservation that was in hand is the one of the slot.
    obtain rfl := mem_singleton.mp hw
    have hheld := mem_of_find?_eq_some hr
    have hkey : r.key = key := by simpa using find?_some hr
    have hslot := h.slot r hheld
    rw [hkey, hget] at hslot
    exact ⟨by simpa using hslot, .inl hheld, by simp⟩

theorem Kept.answer_look {w : Waiter} (hw : w ∈ d.waiters) (hr : w.during = some r) :
    (r ∈ d.held ∧ (w.look d.table).answer = none) ∨ (r ∉ d.held ∧ ∃ how, .ended r how ∈ d.notes
        ∧ (w.look d.table).answer = some how.entry?) := by
  obtain ⟨hticket, hplace, hanswer⟩ := h.waits w hw r hr
  rcases hplace with hheld | ⟨how, hended⟩
  · have hopen : d.table.settled w.ticket = false := by
      simp [PchTable.settled, hticket, h.pending r hheld]
    have hnone : w.answer = none := by
      refine Option.eq_none_iff_forall_ne_some.mpr (fun answer hanswered => ?_)
      obtain ⟨how, hended, -⟩ := hanswer answer hanswered
      exact h.not_ended hheld how hended
    exact .inl ⟨hheld, by simp [Waiter.look, hnone, hopen]⟩
  · refine .inr ⟨fun hheld => h.not_ended hheld how hended, how, hended, ?_⟩
    obtain ⟨hsettled, houtcome⟩ := h.settled hended
    cases hanswered : w.answer with
    | none => simp [Waiter.look, hanswered, hticket, hsettled, houtcome]
    | some answer =>
      obtain ⟨how', hended', heq⟩ := hanswer answer hanswered
      simp [Waiter.look, hanswered, heq, h.once r how' how hended' hended]

omit h in
theorem mem_modify {α : Type} {l : List α} {n : Nat} {f : α → α} {a : α} (h : a ∈ l.modify n f) :
    a ∈ l ∨ ∃ b ∈ l, a = f b := by
  obtain ⟨i, hi⟩ := mem_iff_getElem?.mp h
  rw [getElem?_modify] at hi
  obtain ⟨b, hb, heq⟩ := Option.map_eq_some_iff.mp hi
  have hmem := mem_of_getElem? hb
  split at heq
  · exact .inr ⟨b, hmem, heq.symm⟩
  · exact .inl (heq ▸ hmem)

theorem Kept.look (n : Nat) :
    Kept { d with waiters := d.waiters.modify n (Waiter.look d.table) } := by
  refine { h with waits := ?_ }
  intro w hw r hr
  rcases mem_modify hw with hw | ⟨v, hv, rfl⟩
  · exact h.waits w hw r hr
  · rw [Waiter.during_look] at hr
    obtain ⟨hticket, hplace, -⟩ := h.waits v hv r hr
    refine ⟨(Waiter.ticket_look _ v).trans hticket, hplace, ?_⟩
    intro answer hanswered
    rcases h.answer_look hv hr with ⟨-, hnone⟩ | ⟨-, how, hended, hsome⟩
    · rw [hnone] at hanswered
      cases hanswered
    · rw [hsome] at hanswered
      exact ⟨how, hended, (Option.some.inj hanswered).symm⟩

/-- **Every operation keeps the three views in step.** -/
theorem Kept.act (op : TableOperation) : (d.act op).Kept := by
  cases op with
  | reserve key =>
    rcases d.table.reserve_cases key with
      ⟨entry, heq, -⟩ | ⟨ticket, heq, hget, -⟩ | ⟨heq, hready, hfree⟩
    · simp only [SharedTable.act, heq]
      exact h
    · simp only [SharedTable.act, heq]
      exact h.join hget
    · simp only [SharedTable.act, heq]
      exact h.book hready hfree
  | finish r how =>
    by_cases hr : r ∈ d.held
    · simp only [SharedTable.act, if_pos hr]
      exact h.finish hr how
    · simp only [SharedTable.act, if_neg hr]
      exact h
  | watch key =>
    cases hflight : d.table.inFlight? key with
    | none =>
      simp only [SharedTable.act, hflight]
      exact h
    | some ticket =>
      simp only [SharedTable.act, hflight]
      unfold PchTable.inFlight? at hflight
      split at hflight
      · next hget => exact h.join (Option.some.inj hflight ▸ hget)
      · cases hflight
  | look n => exact h.look n
  | lookUp disk key =>
    refine h.drop (d.table.drops_lookupForInclude disk key) ?_
    intro r hr hmem
    -- A key that is dropped was ready.
    split at hmem
    · next hdropped =>
      have hnone := h.not_ready hr
      rw [mem_singleton.mp hmem] at hnone
      rw [hnone] at hdropped
      cases hdropped.1
    · cases hmem
  | relocate disk db =>
    have hloses := d.table.loses_relocateAll disk db
    refine h.drop hloses.toDrops ?_
    intro r hr hmem
    exact hloses.ready r.key hmem (h.not_ready hr)
  | remove key =>
    by_cases hfree : ∀ r ∈ d.held, r.key ≠ key
    · simp only [SharedTable.act, if_pos hfree]
      refine h.drop (d.table.drops_remove key) ?_
      intro r hr hmem
      exact hfree r hr (mem_singleton.mp hmem)
    · simp only [SharedTable.act, if_neg hfree]
      exact h

end

theorem kept_acts (ops : List TableOperation) : (ops.foldl SharedTable.act {}).Kept := by
  suffices key : ∀ d : SharedTable, d.Kept → (ops.foldl SharedTable.act d).Kept from
    key {} kept_start
  induction ops with
  | nil => exact fun d h => h
  | cons op _ ih => exact fun d h => ih _ (h.act op)

/-- **One builder per header.** However the users of an empty table take turns: a key has at most
one reservation in hand; it is ready exactly when the last that is known of it is a reservation that
was completed; one who got the ticket of a key while a reservation was in hand learns nothing until
that reservation ends, and then what it led to; and a key is marked exactly when it is ready and was
completed from a buffer. -/
theorem one_builder_per_key (ops : List TableOperation) :
    let d := ops.foldl SharedTable.act {}
    (d.held.map Reservation.key).Nodup
      ∧ (∀ key, (∃ entry, d.table.slots.get? key = some (.ready entry)) ↔ ∃ r entry fromUnsaved,
          Note.latest? d.notes key = some (.ended r (.completed entry fromUnsaved)))
      ∧ (∀ w ∈ d.waiters, ∀ r, w.during = some r → (r ∈ d.held ∧ (w.look d.table).answer = none)
          ∨ (r ∉ d.held ∧ ∃ how, (∀ how', .ended r how' ∈ d.notes ↔ how' = how)
            ∧ (w.look d.table).answer = some how.entry?))
      ∧ ∀ key, d.table.isFromUnsaved key = true
        ↔ ∃ r entry, Note.latest? d.notes key = some (.ended r (.completed entry true)) := by
  intro d
  have h : d.Kept := kept_acts ops
  refine ⟨h.apart, fun key => ?_, fun w hw r hr => ?_, h.marked_iff⟩
  · rw [← h.ready_iff key, origin?_ne_none]
  · rcases h.answer_look hw hr with hheld | ⟨hnot, how, hended, hanswer⟩
    · exact .inl hheld
    · refine .inr ⟨hnot, how, fun how' => ⟨fun hended' => ?_, fun heq => heq ▸ hended⟩, hanswer⟩
      exact h.once r how' how hended' hended

end SharedTable

end Pch

end SymbolIndex
