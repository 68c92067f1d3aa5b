import SymbolIndex.Proofs.Moves
import SymbolIndex.Proofs.Reservations
import SymbolIndex.Proofs.Sessions
import SymbolIndex.Proofs.StaleHeaders

/-!
# Artifacts on their way into a database

The artifacts of finished headers are moved into one directory of a database, each to a name made of
its key, while the table is changed that is gone through. A move may put away a file that stands at
such a name, and may fail. `Underway` says what holds between two moves: an artifact whose turn has
not come is where it was or is gone, and one that has been moved is at its place.
-/

namespace SymbolIndex

open List
open Digest (sha256Hex)

theorem Digest.isName_sha256Hex (key : String) : Disk.IsName (sha256Hex key) := by
  have hne : ∀ name : String, name.toList.length < 64 → sha256Hex key ≠ name := by
    rintro name hlt rfl
    rw [length_sha256Hex] at hlt
    cases Nat.lt_irrefl _ hlt
  exact ⟨hne _ (by decide), hne _ (by decide), hne _ (by decide), Store.slash_not_mem_hex _⟩

namespace PchTable

open Pch Disk

variable {t : PchTable} {made d d' : Disk} {db : Path} {key : String} {rest : List String}
  {r r' : Relocation} {entry : PchEntry} {l : LastStep}

/-! ## Where artifacts go -/

theorem text_destination (db : Path) (key : String) :
    (directoryIn db).text ≠ ""
      ∧ (destination db key).text = (directoryIn db).text ++ ("/" ++ sha256Hex key) := by
  have hlast : (directoryIn db).text.toList.getLast? = some 'h' := by
    have hrelative : (Path.mk "pch").isAbsolute = false := by decide
    unfold directoryIn Path.child Path.join
    rw [hrelative]
    simp only [Bool.false_eq_true, if_false]
    split <;> simp
  have hrelative : (Path.mk (sha256Hex key)).isAbsolute = false := by
    have hslash := (Digest.isName_sha256Hex key).slash
    unfold Path.isAbsolute
    cases htext : (sha256Hex key).toList with
    | nil => rfl
    | cons =>
      rw [htext, mem_cons, not_or] at hslash
      simpa using fun heq => hslash.1 heq.symm
  constructor
  · intro hempty
    rw [hempty] at hlast
    cases hlast
  · unfold destination Path.child Path.join
    rw [hrelative, hlast]
    exact String.append_assoc ..

theorem lastStep_destination (hl : d.lastStep (destination db key) = .ok l) :
    d.resolve true (directoryIn db) = .ok l.directory ∧ l.name = sha256Hex key
      ∧ l.slashes = false := by
  obtain ⟨hne, htext⟩ := text_destination db key
  have hname := Digest.isName_sha256Hex key
  have hsegments : segmentsOf (d.workingDirectory.join (destination db key))
      = segmentsOf (d.workingDirectory.join (directoryIn db)) ++ [sha256Hex key] := by
    unfold segmentsOf
    rw [Path.text_join_append htext (fun h => absurd h hne)]
    simp only [String.toList_append]
    show (Path.segments (_ ++ '/' :: (sha256Hex key).toList)).map _ = _
    rw [Path.segments_append_slash, Path.segments_of_no_slash hname.slash]
    simp
  obtain ⟨segments, hroute, hl⟩ := bind_eq_ok_iff.mp hl
  unfold route at hroute
  split at hroute
  · cases hroute
  split at hroute
  · cases hroute
  next hnul =>
  split at hroute
  · cases hroute
  next hlong =>
  obtain rfl := (Except.ok.inj hroute).symm.trans hsegments
  have hdirectory : d.route (directoryIn db)
      = .ok (segmentsOf (d.workingDirectory.join (directoryIn db))) := by
    rw [htext] at hnul hlong
    unfold route
    rw [if_neg hne, if_neg, if_neg]
    · rw [String.utf8ByteSize_append] at hlong
      omega
    · simp only [String.toList_append, contains_eq_mem, mem_append, decide_eq_true_eq,
        not_or] at hnul ⊢
      exact hnul.1
  obtain ⟨hway, -, hlast, -, hslashes⟩ := lastStepFrom_eq_ok_iff.mp hl
  have hsteps : steps (segmentsOf (d.workingDirectory.join (directoryIn db))
      ++ [sha256Hex key]) = sha256Hex key
        :: (segmentsOf (d.workingDirectory.join (directoryIn db))).reverse := by
    simp [steps, hname.nonempty]
  rw [hsteps] at hway hlast
  refine ⟨?_, hlast, by simpa [hname.nonempty] using hslashes⟩
  exact bind_eq_ok_iff.mpr ⟨_, hdirectory, by simpa using hway⟩

/-- The spot for the artifact of a key. -/
def Home (made : Disk) (db : Path) (key : String) (s : Spot) : Prop :=
  ∃ top, made.resolve true (directoryIn db) = .ok top ∧ s = top ++ [sha256Hex key]

theorem home_of_lastStep (hl : made.lastStep (destination db key) = .ok l) :
    Home made db key l.spot ∧ l.isSpecial = false := by
  obtain ⟨hresolve, hname, -⟩ := lastStep_destination hl
  have his := Digest.isName_sha256Hex key
  refine ⟨⟨l.directory, hresolve, by rw [LastStep.spot, hname]⟩, ?_⟩
  simp [LastStep.isSpecial, hname, his.nonempty, his.current, his.above]

theorem mem_keys_toMap : key ∈ t.toMap.keys ↔ ∃ entry, t.slots.get? key = some (.ready entry) := by
  simp only [SortedMap.mem_keys_iff, SortedMap.mem_toList_iff, get?_toMap]

/-- Different keys have different digests. The artifacts to be moved are files outside of the
directory they are moved to, and no link there has a name that they get. -/
def Movable (t : PchTable) (made : Disk) (db : Path) : Prop :=
  (∀ key ∈ t.toMap.keys, ∀ key' ∈ t.toMap.keys,
      sha256Hex key = sha256Hex key' → key = key')
    ∧ (∀ e ∈ t.toMap.toList, e.2.artifactPath.same (destination db e.1) = false →
      ∀ l ∈ (made.lastStep e.2.artifactPath).toOption,
        (made.resolve true (directoryIn db)).toOption ≠ some l.directory
          ∧ ∀ entry ∈ made.entryAt? l.spot, ¬ Passable (some entry))
    ∧ ∀ top ∈ (made.resolve true (directoryIn db)).toOption, ∀ key ∈ t.toMap.keys,
      ∀ entry ∈ made.entryAt? (top ++ [sha256Hex key]),
        Passable (some entry) → entry = .directory

instance : DecidablePred Passable
  | some .directory | some (.link _) => isTrue trivial
  | some (.file ..) | none => isFalse id

instance : Decidable (Movable t made db) := inferInstanceAs (Decidable (_ ∧ _ ∧ _))

namespace Movable

theorem outside (h : Movable t made db) (hentry : t.slots.get? key = some (.ready entry))
    (hsame : entry.artifactPath.same (destination db key) = false)
    (hl : made.lastStep entry.artifactPath = .ok l) :
    (∀ key', ¬ Home made db key' l.spot)
      ∧ ∀ e, made.entryAt? l.spot = some e → ¬ Passable (some e) := by
  have hmem := SortedMap.mem_toList_iff.mpr ((get?_toMap t key entry).mpr hentry)
  obtain ⟨houtside, hfile⟩ := h.2.1 _ hmem hsame l (by rw [hl]; rfl)
  refine ⟨fun key' ⟨top, htop, heq⟩ => houtside ?_, hfile⟩
  rw [htop, (append_inj' heq rfl).1]
  rfl

theorem home_unique (h : Movable t made db) {key' : String} {s : Spot} (hkey : key ∈ t.toMap.keys)
    (hkey' : key' ∈ t.toMap.keys) (hhome : Home made db key s) (hhome' : Home made db key' s) :
    key = key' := by
  obtain ⟨top, htop, rfl⟩ := hhome
  obtain ⟨top', htop', heq⟩ := hhome'
  obtain rfl := Except.ok.inj (htop.symm.trans htop')
  exact h.1 key hkey key' hkey' (by simpa using heq)

/-- At its place a key finds a directory, or nothing that a way goes through. -/
theorem free (h : Movable t made db) (hready : key ∈ t.toMap.keys)
    (hshifts : Shifts (fun _ => True) made d) (hl : d.lastStep (destination db key) = .ok l)
    (hdirectory : d.entryAt? l.spot ≠ some .directory) :
    made.lastStep (destination db key) = .ok l ∧ Home made db key l.spot
      ∧ ¬ Passable (d.entryAt? l.spot) := by
  obtain ⟨hmade, hstanding⟩ := hshifts.symm.lastStep hl
  have hhome := (home_of_lastStep hmade).1
  refine ⟨hmade, hhome, fun hpass => ?_⟩
  have hsame := hshifts.symm.keeps l.spot hstanding hpass
  obtain ⟨top, htop, hspot⟩ := hhome
  cases hentry : d.entryAt? l.spot with
  | none => rw [hentry] at hpass; exact hpass
  | some e =>
    rw [hentry] at hpass hsame
    rw [hspot] at hsame
    have he := h.2.2 top (by rw [htop]; rfl) key hready e hsame hpass
    exact hdirectory (by rw [hentry, he])

end Movable

/-! ## Moving one artifact -/

def Holds (made d : Disk) (db : Path) (key : String) (old : PchEntry) : Prop :=
  ∃ l content modified executable, made.lastStep (destination db key) = .ok l
    ∧ made.read old.artifactPath = .ok content
    ∧ d.entryAt? l.spot = some (.file content modified executable)

/-- An entry stays, or its artifact was moved. -/
def Arrived (t : PchTable) (made d : Disk) (db : Path) (key : String) (entry : PchEntry) : Prop :=
  ∃ old, t.slots.get? key = some (.ready old)
    ∧ (entry = old ∧ old.artifactPath.same (destination db key) = true
      ∨ entry = { old with artifactPath := destination db key } ∧ Holds made d db key old)

/-- What holds while artifacts are moved, with the keys whose turn has not come. -/
structure Underway (t : PchTable) (made : Disk) (db : Path) (rest : List String)
    (r : Relocation) : Prop where
  shifts : Shifts (fun _ => True) made r.disk
  elsewhere : ∀ s, Standing made s → (∀ key, key ∈ t.toMap.keys → ¬ Home made db key s) →
    r.disk.entryAt? s = made.entryAt? s ∨ r.disk.entryAt? s = none
  waiting : ∀ key ∈ rest, r.table.slots.get? key = t.slots.get? key
  moved : ∀ key entry, key ∉ rest → r.table.slots.get? key = some (.ready entry) →
    Arrived t made r.disk db key entry

def Vacated (t : PchTable) (made d : Disk) (db : Path) (s : Spot) : Prop :=
  (∀ key, key ∈ t.toMap.keys → ¬ Home made db key s) ∧ d.entryAt? s = none

theorem Underway.advance (h : Underway t made db (key :: rest) r) (hm : Movable t made db)
    (hready : key ∈ t.toMap.keys) (hkey : key ∉ rest)
    (hshifts : Shifts (fun s => Home made db key s ∨ Vacated t made r'.disk db s) r.disk r'.disk)
    (htable : ∀ k, k ≠ key → r'.table.slots.get? k = r.table.slots.get? k)
    (hown : ∀ entry, r'.table.slots.get? key = some (.ready entry) →
      Arrived t made r'.disk db key entry) :
    Underway t made db rest r' where
  shifts := h.shifts.trans (hshifts.mono fun _ _ => trivial)
  elsewhere := by
    intro s hs hnot
    rcases hshifts.entries s ((h.shifts.standing_iff s).mpr hs) with heq | ⟨hhome | hgone, -⟩
    · rw [heq]
      exact h.elsewhere s hs hnot
    · exact absurd hhome (hnot key hready)
    · exact .inr hgone.2
  waiting := by
    intro k hk
    rw [htable k (fun heq => hkey (heq ▸ hk))]
    exact h.waiting k (mem_cons_of_mem _ hk)
  moved := by
    intro k entry hk hget
    by_cases hne : k = key
    · subst hne
      exact hown entry hget
    · rw [htable k hne] at hget
      obtain ⟨old, hold, hmoved⟩ := h.moved k entry (not_mem_cons_of_ne_of_not_mem hne hk) hget
      refine ⟨old, hold, hmoved.imp_right fun ⟨hentry, hholds⟩ => ⟨hentry, ?_⟩⟩
      obtain ⟨l, content, modified, executable, hl, hread, hfile⟩ := hholds
      refine ⟨l, content, modified, executable, hl, hread, ?_⟩
      -- what has its place already is not in the way of another
      have hhome := (home_of_lastStep hl).1
      have hk := mem_keys_toMap.mpr ⟨old, hold⟩
      have hstanding := (h.shifts.standing_iff _).mpr (h.shifts.lastStep hl).2
      rcases hshifts.entries l.spot hstanding with heq | ⟨hother | hgone, -⟩
      · rw [heq, hfile]
      · exact absurd (hm.home_unique hk hready hhome hother) hne
      · exact absurd hhome (hgone.1 k hk)

theorem shifts_clear (hm : Movable t made db) (hready : key ∈ t.toMap.keys)
    (hshifts : Shifts (fun _ => True) made d)
    (hclear : d' = d ∨ d.removeFile (destination db key) = .ok d') :
    Shifts (Home made db key) d d' := by
  rcases hclear with rfl | hremove
  · exact .refl _ _
  · obtain ⟨l, e, hl, hentry, hne, rfl⟩ := removeFile_eq_ok hremove
    have hdirectory : d.entryAt? l.spot ≠ some .directory := by
      rw [hentry]
      exact fun heq => hne (Option.some.inj heq)
    obtain ⟨-, hhome, hfree⟩ := hm.free hready hshifts hl hdirectory
    refine (shifts_removeAt hfree).mono fun s hs => ?_
    rw [hs]
    exact hhome

theorem shifts_rename (hm : Movable t made db) (hentry : t.slots.get? key = some (.ready entry))
    (hsame : entry.artifactPath.same (destination db key) = false)
    (hshifts : Shifts (fun _ => True) made d)
    (helsewhere : ∀ s, Standing made s → (∀ key, key ∈ t.toMap.keys → ¬ Home made db key s) →
      d.entryAt? s = made.entryAt? s ∨ d.entryAt? s = none)
    (hrename : d.rename entry.artifactPath (destination db key) = .ok d') :
    Shifts (fun s => Home made db key s ∨ Vacated t made d' db s) d d'
      ∧ Holds made d' db key entry := by
  obtain ⟨from_, to_, e, hfrom, hto, hspecial, he, hslashes, hmove⟩ := rename_eq_ok hrename
  have hready := mem_keys_toMap.mpr ⟨entry, hentry⟩
  obtain ⟨hfrom', hstanding⟩ := hshifts.symm.lastStep hfrom
  obtain ⟨houtside, hfile⟩ := hm.outside hentry hsame hfrom'
  have hnot : ∀ k, k ∈ t.toMap.keys → ¬ Home made db k from_.spot := fun k _ => houtside k
  -- nothing has come to a place outside, so what is there has been there from the start
  have hmade : made.entryAt? from_.spot = some e := by
    rcases helsewhere _ ((hshifts.standing_iff _).mp hstanding) hnot with heq | hnone
    · rw [← heq, he]
    · rw [hnone] at he
      cases he
  have hfile := hfile e hmade
  have hne : e ≠ .directory := by
    rintro rfl
    exact hfile trivial
  rcases hmove with heq | ⟨hapart, hreplace, rfl⟩
  · have hhome := (home_of_lastStep (hshifts.symm.lastStep hto).1).1
    rw [← heq] at hhome
    exact absurd hhome (hnot key hready)
  -- a file takes the place of no directory
  have hdirectory : d.entryAt? to_.spot ≠ some .directory := by
    intro hdirectory
    unfold replaceError? at hreplace
    rw [hdirectory] at hreplace
    cases e with
    | directory => exact hne rfl
    | file | link => cases hreplace
  obtain ⟨hto', hhome, hfree⟩ := hm.free hready hshifts hto hdirectory
  have hnew := ne_nil_of_not_passable hfree
  have hgone : (d.move from_.spot to_.spot).entryAt? from_.spot = none := by
    rw [entryAt?_move_of_elsewhere hnew hapart, entryAt?_removeAt _ (by simp [LastStep.spot]),
      if_pos (prefix_refl _)]
  refine ⟨(shifts_move he hfile hfree).mono ?_, ?_⟩
  · rintro s (rfl | rfl)
    · exact .inr ⟨hnot, hgone⟩
    · exact .inl hhome
  · cases e with
    | directory | link => exact absurd trivial hfile
    | file content modified executable =>
      exact ⟨to_, content, modified, executable, hto',
        read_of_lastStep hfrom' hspecial (hslashes hne) hmade,
        entryAt?_move he (by simp [LastStep.spot]) hnew⟩

theorem Underway.relocateOne (h : Underway t made db (key :: rest) r) (hm : Movable t made db)
    (hready : key ∈ t.toMap.keys) (hkey : key ∉ rest) :
    Underway t made db rest (relocateOne db r key) := by
  obtain ⟨entry, hentry⟩ := mem_keys_toMap.mp hready
  have hget := (h.waiting key mem_cons_self).trans hentry
  unfold PchTable.relocateOne
  rw [hget]
  dsimp only
  -- it is at its place already, or it is moved, or it is dropped
  split
  · next hsame =>
    refine h.advance hm hready hkey (.refl _ _) (fun _ _ => rfl) fun entry' hget' => ?_
    obtain rfl : entry = entry' := by simpa [hget] using hget'
    exact ⟨entry, hentry, .inl ⟨rfl, hsame⟩⟩
  · next hsame =>
    rw [Bool.not_eq_true] at hsame
    generalize hcleared : (if r.disk.exists (destination db key) = true then
      (r.disk.removeFile (destination db key)).toOption.getD r.disk else r.disk) = d
    have hclear : d = r.disk ∨ r.disk.removeFile (destination db key) = .ok d := by
      split at hcleared
      · cases hremove : r.disk.removeFile (destination db key) with
        | error => exact .inl (by rw [← hcleared, hremove]; rfl)
        | ok d' => exact .inr (by rw [← hcleared, hremove]; rfl)
      · exact .inl hcleared.symm
    have hshifts := shifts_clear hm hready h.shifts hclear
    split
    · next d' hrename =>
      have hmade := h.shifts.trans (hshifts.mono fun _ _ => trivial)
      obtain ⟨hmoves, hholds⟩ := shifts_rename hm hentry hsame hmade (fun s hs hnot => by
        rcases hshifts.entries s ((h.shifts.standing_iff s).mpr hs) with heq | ⟨hhome, -⟩
        · rw [heq]
          exact h.elsewhere s hs hnot
        · exact absurd hhome (hnot key hready)) hrename
      refine h.advance hm hready hkey ((hshifts.mono fun _ hs => .inl hs).trans hmoves)
        (fun k hk => by simp [hk]) fun entry' hget' => ⟨entry, hentry, .inr ⟨?_, hholds⟩⟩
      simpa using hget'.symm
    · refine h.advance hm hready hkey (hshifts.mono fun _ hs => .inl hs)
        (fun k hk => by simp [PchTable.remove, SortedMap.get?_erase, hk]) fun entry' hget' => ?_
      simp [PchTable.remove, SortedMap.get?_erase] at hget'

/-! ## Moving all artifacts -/

theorem Underway.foldl {keys : List String} (h : Underway t made db keys r) (hm : Movable t made db)
    (hready : ∀ key ∈ keys, key ∈ t.toMap.keys) (hnodup : keys.Nodup) :
    Underway t made db [] (keys.foldl (PchTable.relocateOne db) r) := by
  induction keys generalizing r with
  | nil => exact h
  | cons key keys ih =>
    obtain ⟨hkey, hnodup⟩ := nodup_cons.mp hnodup
    exact ih (h.relocateOne hm (hready key mem_cons_self) hkey)
      (fun k hk => hready k (mem_cons_of_mem _ hk)) hnodup

theorem relocateAll_cases (t : PchTable) (disk : Disk) (db : Path) :
    t.toMap.keys = [] ∧ t.relocateAll disk db = { table := t, disk := disk }
      ∨ ∃ log, t.relocateAll disk db = t.toMap.keys.foldl (relocateOne db)
        { table := t, disk := disk.tryDirectories (directoryIn db), log := log } := by
  unfold relocateAll
  split
  · next hnone => exact .inl ⟨hnone, rfl⟩
  · refine .inr ?_
    unfold createDirectories tryDirectories
    generalize disk.createChain _ = chain
    obtain ⟨d, failure⟩ := chain
    cases failure with
    | none => exact ⟨[], rfl⟩
    | some => exact ⟨_, rfl⟩

section Arrival

variable {disk : Disk} (hm : Movable t (disk.tryDirectories (directoryIn db)) db)
  (hget : (t.relocateAll disk db).table.slots.get? key = some (.ready entry))

include hm hget

theorem arrived_relocateAll :
    Shifts (fun _ => True) (disk.tryDirectories (directoryIn db)) (t.relocateAll disk db).disk
      ∧ Arrived t (disk.tryDirectories (directoryIn db)) (t.relocateAll disk db).disk db key
        entry := by
  rcases relocateAll_cases t disk db with ⟨hnone, hall⟩ | ⟨log, hall⟩
  · rw [hall] at hget
    have hmem := mem_keys_toMap.mpr ⟨entry, hget⟩
    rw [hnone] at hmem
    cases hmem
  · have hstart : Underway t (disk.tryDirectories (directoryIn db)) db t.toMap.keys
        { table := t, disk := disk.tryDirectories (directoryIn db), log := log } :=
      ⟨.refl _ _, fun _ _ _ => .inl rfl, fun _ _ => rfl,
        fun _ e hk hk' => absurd (mem_keys_toMap.mpr ⟨e, hk'⟩) hk⟩
    have hend := hstart.foldl hm (fun _ hk => hk) t.toMap.nodup_keys
    rw [← hall] at hend
    exact ⟨hend.shifts, hend.moved key entry not_mem_nil hget⟩

theorem settled_relocateAll : entry.artifactPath.same (destination db key) = true := by
  obtain ⟨-, old, -, ⟨rfl, hsame⟩ | ⟨rfl, -⟩⟩ := arrived_relocateAll hm hget
  · exact hsame
  · exact beq_self_eq_true _

theorem read_relocateAll :
    ∃ old, t.slots.get? key = some (.ready old) ∧ entry.originHeader = old.originHeader
      ∧ (old.artifactPath.same (destination db key) = false →
        ∃ content, (t.relocateAll disk db).disk.read (destination db key) = .ok content
          ∧ (disk.tryDirectories (directoryIn db)).read old.artifactPath = .ok content) := by
  obtain ⟨hshifts, old, hold, ⟨rfl, hsame⟩ | ⟨rfl, l, content, _, _, hl, hmade, hfile⟩⟩ :=
    arrived_relocateAll hm hget
  · exact ⟨entry, hold, rfl, fun hnot => absurd hsame (by rw [hnot]; decide)⟩
  · have hread := read_of_lastStep (hshifts.lastStep hl).1 (home_of_lastStep hl).2
      (lastStep_destination hl).2.2 hfile
    exact ⟨old, hold, rfl, fun _ => ⟨content, hread, hmade⟩⟩

end Arrival

theorem get?_relocateOne (r : Relocation) {k : String} (hk : k ≠ key) :
    (relocateOne db r key).table.slots.get? k = r.table.slots.get? k := by
  unfold relocateOne
  split
  · dsimp only
    split
    · rfl
    · split <;> simp [remove, SortedMap.get?_erase, hk]
  · rfl

theorem count_relocateOne (hget : r.table.slots.get? key = some (.ready entry)) :
    (relocateOne db r key).report.relocated + (relocateOne db r key).report.dropped.length
      = r.report.relocated + r.report.dropped.length + 1 := by
  unfold relocateOne
  rw [hget]
  dsimp only
  split
  · exact Nat.add_right_comm ..
  · split
    · exact Nat.add_right_comm ..
    · simp only [length_append, length_singleton]
      omega

theorem count_foldl {keys : List String} (hnodup : keys.Nodup)
    (hready : ∀ key ∈ keys, ∃ entry, r.table.slots.get? key = some (.ready entry)) :
    (keys.foldl (relocateOne db) r).report.relocated
        + (keys.foldl (relocateOne db) r).report.dropped.length
      = r.report.relocated + r.report.dropped.length + keys.length := by
  induction keys generalizing r with
  | nil => rfl
  | cons key keys ih =>
    obtain ⟨hkey, hnodup⟩ := nodup_cons.mp hnodup
    obtain ⟨entry, hget⟩ := hready key mem_cons_self
    rw [foldl_cons, ih hnodup, count_relocateOne hget, length_cons]
    · omega
    · intro k hk
      rw [get?_relocateOne r (ne_of_mem_of_not_mem hk hkey)]
      exact hready k (mem_cons_of_mem _ hk)

theorem count_relocateAll (t : PchTable) (disk : Disk) (db : Path) :
    (t.relocateAll disk db).report.relocated + (t.relocateAll disk db).report.dropped.length
      = t.toMap.size := by
  have hlength : t.toMap.size = t.toMap.keys.length := (length_map _).symm
  rcases relocateAll_cases t disk db with ⟨hnone, hall⟩ | ⟨log, hall⟩
  · rw [hall, hlength, hnone]
    rfl
  · rw [hall, count_foldl (t.toMap.nodup_keys), hlength]
    · exact Nat.zero_add _
    · exact fun key hkey => mem_keys_toMap.mp hkey

theorem foldl_settled (keys : List String)
    (h : ∀ key entry, r.table.slots.get? key = some (.ready entry) →
      entry.artifactPath.same (destination db key) = true) :
    (keys.foldl (relocateOne db) r).table = r.table
      ∧ (keys.foldl (relocateOne db) r).disk = r.disk
      ∧ (keys.foldl (relocateOne db) r).report.dropped = r.report.dropped := by
  induction keys generalizing r with
  | nil => exact ⟨rfl, rfl, rfl⟩
  | cons key keys ih =>
    have hone : (relocateOne db r key).table = r.table ∧ (relocateOne db r key).disk = r.disk
        ∧ (relocateOne db r key).report.dropped = r.report.dropped := by
      unfold relocateOne
      split
      · next entry hget =>
        dsimp only
        rw [if_pos (h key entry hget)]
        exact ⟨rfl, rfl, rfl⟩
      · exact ⟨rfl, rfl, rfl⟩
    have hrest := ih (r := relocateOne db r key) (by rw [hone.1]; exact h)
    rw [foldl_cons, hrest.1, hrest.2.1, hrest.2.2]
    exact hone

theorem relocateAll_of_settled (disk : Disk)
    (h : ∀ key entry, t.slots.get? key = some (.ready entry) →
      entry.artifactPath.same (destination db key) = true) :
    (t.relocateAll disk db).table = t
      ∧ (t.relocateAll disk db).report = { relocated := t.toMap.size }
      ∧ ((t.relocateAll disk db).disk = disk ∨ disk.isDirectory (directoryIn db) = false
        ∧ (t.relocateAll disk db).disk = disk.tryDirectories (directoryIn db)) := by
  have hcount := count_relocateAll t disk db
  rcases relocateAll_cases t disk db with ⟨-, hall⟩ | ⟨log, hall⟩
  · rw [hall] at hcount ⊢
    exact ⟨rfl, congrArg (RelocationReport.mk · []) hcount, .inl rfl⟩
  · obtain ⟨htable, hdisk, hdropped⟩ := foldl_settled
      (r := ⟨t, disk.tryDirectories (directoryIn db), {}, log⟩) t.toMap.keys h
    rw [← hall] at htable hdisk hdropped
    rw [show (t.relocateAll disk db).report.dropped = [] from hdropped] at hcount
    refine ⟨htable, ?_, ?_⟩
    · show RelocationReport.mk _ (t.relocateAll disk db).report.dropped = _
      rw [hdropped]
      exact congrArg (RelocationReport.mk · []) hcount
    · cases hd : disk.isDirectory (directoryIn db) with
      | true => exact .inl (hdisk.trans (tryDirectories_of_isDirectory hd))
      | false => exact .inr ⟨rfl, hdisk⟩

theorem mem_dropped_iff (t : PchTable) (disk : Disk) (db : Path) (key : String) :
    key ∈ (t.relocateAll disk db).report.dropped
      ↔ t.slots.get? key ≠ none ∧ (t.relocateAll disk db).table.slots.get? key = none := by
  have hloses := loses_relocateAll t disk db
  have hready := hloses.ready key
  have horigin := hloses.origin key
  have hbuilding := hloses.building key
  unfold origin? at hready horigin
  cases ht : t.slots.get? key with
  | none => grind
  | some slot =>
    cases hr : (t.relocateAll disk db).table.slots.get? key with
    | none => cases slot <;> grind
    | some slot' => cases slot <;> cases slot' <;> grind

/-- **Artifacts are neither lost nor mixed up when they are moved.** -/
theorem relocateAll_keeps_artifacts {disk : Disk}
    (hm : Movable t (disk.tryDirectories (directoryIn db)) db) :
    let r := t.relocateAll disk db
    let again := r.table.relocateAll r.disk db
    (∀ key entry, r.table.slots.get? key = some (.ready entry) →
      entry.artifactPath.same (destination db key) = true
      ∧ ∃ old, t.slots.get? key = some (.ready old) ∧ entry.originHeader = old.originHeader
        ∧ (old.artifactPath.same (destination db key) = false →
          (∃ content, r.disk.read (destination db key) = .ok content
            ∧ (disk.tryDirectories (directoryIn db)).read old.artifactPath = .ok content)
          ∧ ∀ content, disk.read old.artifactPath = .ok content →
            r.disk.read (destination db key) = .ok content))
    ∧ r.report.relocated + r.report.dropped.length = t.toMap.size
    ∧ (∀ key, key ∈ r.report.dropped ↔ t.slots.get? key ≠ none ∧ r.table.slots.get? key = none)
    ∧ (∀ key ticket, r.table.slots.get? key = some (.building ticket)
        ↔ t.slots.get? key = some (.building ticket))
    ∧ r.table.tickets = t.tickets
    ∧ again.table = r.table ∧ again.report = { relocated := r.table.toMap.size }
    ∧ (again.disk = r.disk ∨ r.disk.isDirectory (directoryIn db) = false
      ∧ again.disk = r.disk.tryDirectories (directoryIn db)) := by
  intro r again
  have hsettled : ∀ key entry, r.table.slots.get? key = some (.ready entry) →
      entry.artifactPath.same (destination db key) = true :=
    fun _ _ hget => settled_relocateAll hm hget
  have hloses := loses_relocateAll t disk db
  refine ⟨fun key entry hget => ⟨hsettled key entry hget, ?_⟩, count_relocateAll t disk db,
    mem_dropped_iff t disk db, fun key ticket => ?_, hloses.tickets,
    relocateAll_of_settled r.disk hsettled⟩
  · obtain ⟨old, hold, horigin, hread⟩ := read_relocateAll hm hget
    refine ⟨old, hold, horigin, fun hsame => ?_⟩
    obtain ⟨content, hthere, hmade⟩ := hread hsame
    refine ⟨⟨content, hthere, hmade⟩, fun content' hbefore => ?_⟩
    -- making directories takes no file away
    have hkept : (disk.tryDirectories (directoryIn db)).read old.artifactPath = .ok content' :=
      (Grown.createChain _ disk).read hbefore
    rw [← Except.ok.inj (hmade.symm.trans hkept)]
    exact hthere
  · rw [hloses.building]
    refine and_iff_left_of_imp fun hbuilding hdropped => ?_
    obtain ⟨entry, hentry⟩ := origin?_ne_none.mp (hloses.ready key hdropped)
    cases hentry.symm.trans hbuilding

/-- A finished header, one whose artifact is gone, and one that is being built. -/
def threeHeaders : PchTable where
  slots := SortedMap.ofList [("a", .ready ⟨⟨"/s/a"⟩, ⟨"/a.h"⟩⟩), ("b", .building 0),
    ("c", .ready ⟨⟨"/s/c"⟩, ⟨"/c.h"⟩⟩)]
  tickets := [.building]

def linkedFile : Disk where
  entries := SortedMap.ofList [(["s"], .directory), (["s", "a"], .file ⟨#[1]⟩ 0 false),
    (["s", "l"], .link ⟨"a"⟩)]

theorem relocateAll_keeps_artifacts_threeHeaders :
    Movable threeHeaders (linkedFile.tryDirectories (directoryIn ⟨"/db"⟩)) ⟨"/db"⟩
      ∧ (threeHeaders.relocateAll linkedFile ⟨"/db"⟩).report = { relocated := 1, dropped := ["c"] }
      ∧ ∃ content, (threeHeaders.relocateAll linkedFile ⟨"/db"⟩).disk.read
        (destination ⟨"/db"⟩ "a") = .ok content := by
  have hm : Movable threeHeaders (linkedFile.tryDirectories (directoryIn ⟨"/db"⟩)) ⟨"/db"⟩ := by
    decide +kernel
  have hreport : (threeHeaders.relocateAll linkedFile ⟨"/db"⟩).report
      = { relocated := 1, dropped := ["c"] } := by
    decide +kernel
  have horigin := (loses_relocateAll threeHeaders linkedFile ⟨"/db"⟩).origin "a"
  rw [hreport, if_neg (by decide)] at horigin
  obtain ⟨entry, hget⟩ := origin?_ne_none.mp (ne_of_eq_of_ne horigin (by decide))
  have hready : threeHeaders.slots.get? "a" = some (.ready ⟨⟨"/s/a"⟩, ⟨"/a.h"⟩⟩) := by decide
  obtain ⟨-, old, hold, -, hmoved⟩ := (relocateAll_keeps_artifacts hm).1 _ _ hget
  cases hold.symm.trans hready
  obtain ⟨⟨content, hread, -⟩, -⟩ := hmoved (by decide +kernel)
  exact ⟨hm, hreport, content, hread⟩

/-- A link is moved as such, and leads nowhere from its new place. -/
theorem relocateAll_breaks_link :
    (linkedFile.read ⟨"/s/l"⟩).toOption = some ⟨#[1]⟩
      ∧ ((ofMap (SortedMap.ofList [("k", ⟨⟨"/s/l"⟩, ⟨"/h.h"⟩⟩)])).relocateAll linkedFile
        ⟨"/db"⟩).report = { relocated := 1 }
      ∧ (((ofMap (SortedMap.ofList [("k", ⟨⟨"/s/l"⟩, ⟨"/h.h"⟩⟩)])).relocateAll linkedFile
        ⟨"/db"⟩).disk.read (destination ⟨"/db"⟩ "k")).toOption = none := by
  decide +kernel

end PchTable

end SymbolIndex
