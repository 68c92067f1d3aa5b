import Mathlib.Data.List.Induction
import SymbolIndex.Proofs.ReservationOwners
import SymbolIndex.Proofs.Endings

/-!
# Which submitted units become jobs

A unit becomes a job when no unit of its signature was submitted before. A header becomes one when
headers are precompiled at all, when it has a key, and when nobody else builds that key.

`Skipped` says of a header in a list of submissions that it may not become a job, and
`Trace.admits` that of units with different signatures all others do, each once.
-/

namespace SymbolIndex

open List Scheduler SortedMap

variable {a b : Signature} {i j : Invocation} {setup : RunSetup} {is : List Invocation}

/-! ## Signatures -/

theorem Signature.same_trans {c : Signature} (hab : a.same b = true) (hbc : b.same c = true) :
    a.same c = true := by
  simp only [same, Path.same, Bool.and_eq_true, beq_iff_eq] at hab hbc ⊢
  exact ⟨⟨hab.1.1.trans hbc.1.1, hab.1.2.trans hbc.1.2⟩, hab.2.trans hbc.2⟩

theorem Signature.same_symm (h : a.same b = true) : b.same a = true := by
  simp only [same, Path.same, Bool.and_eq_true, beq_iff_eq] at h ⊢
  exact ⟨⟨h.1.1.symm, h.1.2.symm⟩, h.2.symm⟩

theorem Signature.same_refl (a : Signature) : a.same a = true := by
  simp only [same, Path.same, Bool.and_eq_true, beq_iff_eq, and_self]

/-- The signatures differ. -/
def Invocation.Apart (i j : Invocation) : Prop := ¬ i.signature.same j.signature = true

theorem Invocation.Apart.symm (h : i.Apart j) : j.Apart i :=
  fun hsame => h (Signature.same_symm hsame)

theorem Invocation.Apart.ne (h : i.Apart j) : i ≠ j := by
  rintro rfl
  exact h (Signature.same_refl _)

/-! ## What becomes a job -/

/-- A header that need not be precompiled when it is submitted after others: headers are not
precompiled at all, or it makes none, or one of the others makes the same. -/
def Skipped (setup : RunSetup) (before : List Invocation) (i : Invocation) : Prop :=
  i.language.isHeader = true
    ∧ (setup.config.flags.disablePch = true ∨ setup.config.flags.dontIndex = true
      ∨ i.headerKey? = none
      ∨ ∃ j ∈ before, j.language.isHeader = true ∧ j.headerKey? = i.headerKey?)

theorem split_concat {front back : List Invocation} (h : is ++ [i] = front ++ j :: back) :
    (∃ back', is = front ++ j :: back') ∨ (is = front ∧ i = j) := by
  rcases eq_nil_or_concat back with rfl | ⟨back', last, rfl⟩
  · obtain ⟨hfront, hlast⟩ := append_inj' h rfl
    exact .inr ⟨hfront, singleton_inj.mp hlast⟩
  · rw [concat_eq_append, ← cons_append, ← append_assoc] at h
    exact .inl ⟨back', (append_inj' h rfl).1⟩

theorem PchTable.get?_book_eq_none (t : PchTable) (key k : String) :
    (t.book key).2.slots.get? k = none ↔ t.slots.get? k = none ∧ k ≠ key := by
  show (t.slots.insert key (.building t.tickets.length)).get? k = none ↔ _
  simp only [get?_insert, Std.compare_eq_iff_eq]
  split
  · next heq => simp [heq]
  · next hne => simp [hne]

/-- A key that is taken was taken before, or a task has it in hand before or after. -/
theorem Scheduler.Keeping.taken {s s' : Scheduler} {key : String} (h : Keeping s s')
    (htaken : s'.state.pch.slots.get? key ≠ none) :
    s.state.pch.slots.get? key ≠ none
      ∨ ∃ n r, (s.hand n = some r ∨ s'.hand n = some r) ∧ r.key = key := by
  cases h with
  | keeps _ hthins =>
    refine .inl fun hnone => htaken ?_
    rcases hthins.slots key with hsame | ⟨hgone, -⟩
    · rw [hsame, hnone]
    · exact hgone
  | books n k _ hhand _ htable =>
    by_cases hkey : key = k
    · exact .inr ⟨n, _, .inr ((hhand n).trans (if_pos rfl)), hkey.symm⟩
    · refine .inl fun hnone => htaken ?_
      rw [htable]
      exact (PchTable.get?_book_eq_none _ k key).mpr ⟨hnone, hkey⟩
  | ends n how _ htable =>
    cases hn : s.hand n with
    | none =>
      rw [htable, hn] at htaken
      exact .inl htaken
    | some r =>
      by_cases hkey : key = r.key
      · exact .inr ⟨n, r, .inl hn, hkey.symm⟩
      · rw [htable, hn] at htaken
        exact .inl (PchTable.building_conclude how _ r hkey ▸ htaken)

section Taken

variable {world : World} {state : IndexState} {ls : List Landing} {s : Scheduler}

/-- What a task has in hand is the key of a header that was submitted. -/
theorem Trace.header_of_hand (h : Trace setup (Scheduler.start setup world state) is ls s)
    (hsize : is.length < UInt64.size) {n : Nat} {r : Pch.Reservation} (hhand : s.hand n = some r) :
    ∃ j ∈ is, j.language.isHeader = true ∧ j.headerKey? = some r.key := by
  obtain ⟨t, ht, hreservation, -⟩ := exists_task_of_hand hhand
  obtain ⟨g, -, horderly⟩ := h.orderly hsize
  obtain ⟨job, hjob, -⟩ := horderly.staffed ht ((h.posted hsize).job? ht)
  have hinvocation : s.invocation? (jobOf n) = some job.invocation := by
    unfold Scheduler.invocation?
    rw [hjob]
    rfl
  obtain ⟨hholds, -⟩ := h.carried hsize (fun _ _ s' _ _ _ => TaskInvariant.own_kept setup s')
  obtain ⟨hfits, -⟩ := hholds n t _ ht hinvocation
  refine ⟨job.invocation, (h.filed hsize).1 _ _ hinvocation, ?_⟩
  cases herrand : t.errand with
  | header =>
    rw [herrand] at hfits hreservation
    cases hreservation
    exact hfits
  | unit =>
    rw [herrand] at hreservation
    cases hreservation
  | remote | request =>
    rw [herrand] at hfits
    exact hfits.elim

/-- The keys that are taken are those of the table from before and those of submitted headers. -/
def Taken (table : PchTable) (is : List Invocation) (s : Scheduler) : Prop :=
  ∀ key, s.state.pch.slots.get? key ≠ none → table.slots.get? key ≠ none
    ∨ ∃ j ∈ is, j.language.isHeader = true ∧ j.headerKey? = some key

theorem Taken.transition {table : PchTable} {s' : Scheduler} {who : Option Nat}
    {is' : List Invocation} {ls' : List Landing} (htaken : Taken table is s) (hplain : Plain s)
    (h : Trace setup (Scheduler.start setup world state) is ls s)
    (h' : Trace setup (Scheduler.start setup world state) is' ls' s')
    (hmore : is ⊆ is') (hsize : is.length < UInt64.size) (hsize' : is'.length < UInt64.size)
    (htransition : Transition setup s who s') : Taken table is' s' ∧ Plain s' := by
  have hline := h.line hsize
  refine ⟨fun key hkey => ?_, hplain.paced (htransition.paced hline)⟩
  rcases (htransition.keeping hline hplain).taken hkey with hold | ⟨n, r, hhand | hhand, rfl⟩
  · exact (htaken key hold).imp_right fun ⟨j, hj, hheader⟩ => ⟨j, hmore hj, hheader⟩
  · obtain ⟨j, hj, hheader⟩ := h.header_of_hand hsize hhand
    exact .inr ⟨j, hmore hj, hheader⟩
  · exact .inr (h'.header_of_hand hsize' hhand)

theorem Trace.taken (h : Trace setup (Scheduler.start setup world state) is ls s)
    (hsize : is.length < UInt64.size) : Taken state.pch is s ∧ Plain s := by
  induction h with
  | start => exact ⟨fun key hkey => .inl hkey, fun n t ht => absurd ht (by simp [Scheduler.start])⟩
  | @submit is ls s i h ih =>
    have hlonger := hsize
    rw [length_append, length_singleton] at hsize
    obtain ⟨htaken, hplain⟩ := ih (by omega)
    obtain ⟨g, -, horderly⟩ := h.orderly (by omega)
    exact htaken.transition hplain h (h.submit i) (subset_append_left _ _) (by omega) hlonger
      (transition_act (a := .submit i) horderly.staffed rfl)
  | @recount is ls s f h ih =>
    obtain ⟨htaken, hplain⟩ := ih hsize
    obtain ⟨g, -, horderly⟩ := h.orderly hsize
    exact htaken.transition hplain h (h.recount f) (Subset.refl _) hsize hsize
      (transition_act (a := .recount f) horderly.staffed rfl)
  | step h hstep ih =>
    obtain ⟨htaken, hplain⟩ := ih hsize
    exact htaken.transition hplain h (h.step hstep) (Subset.refl _) hsize hsize
      (h.transition_step hsize hstep)
  | parse h hend ih =>
    obtain ⟨htaken, hplain⟩ := ih hsize
    exact htaken.transition hplain h (h.parse hend) (Subset.refl _) hsize hsize
      (transition_endParse hend)

end Taken

theorem Scheduler.queued_mapCompletion (s : Scheduler) (f : Completion → Completion) :
    (s.mapCompletion f).queued = s.queued := by
  unfold mapCompletion
  simp only
  split <;> rfl

theorem Scheduler.queued_of_backdrop {s s' : Scheduler} (h : s'.backdrop = s.backdrop) :
    s'.queued = s.queued :=
  congrArg (fun b => b.2.1) h

/-- What is known of a run to which units of different signatures were submitted: what is in the
queue, that a unit without a job was skipped, and that no unit has two jobs. -/
structure Admits (setup : RunSetup) (is : List Invocation) (s : Scheduler) : Prop where
  queued : ∀ q ∈ s.queued, ∃ j ∈ is, j.signature = q
  skipped : ∀ front i back, is = front ++ i :: back → (∀ id, s.invocation? id ≠ some i) →
    Skipped setup front i
  single : ∀ id id' i, s.invocation? id = some i → s.invocation? id' = some i → id = id'

namespace Admits

variable {s s' : Scheduler} {table : PchTable}

theorem congr (h : Admits setup is s) (hqueued : s'.queued = s.queued)
    (hjobs : ∀ id, s'.invocation? id = s.invocation? id) : Admits setup is s' := by
  obtain ⟨hold, hskipped, hsingle⟩ := h
  refine ⟨by rwa [hqueued], ?_, ?_⟩
  · simpa only [hjobs] using hskipped
  · simpa only [hjobs] using hsingle

/-- **What is not accepted is skipped.** -/
theorem skipped_of_accept (h : Admits setup is s) (htaken : Taken table is s)
    (hapart : ∀ j ∈ is, i.Apart j)
    (hfree : i.language.isHeader = true → ∀ key, i.headerKey? = some key →
      table.slots.get? key = none) (hnone : (s.accept setup i).1 = none) :
    Skipped setup is i := by
  have haccepts := s.accepts setup i
  generalize s.accept setup i = answer at haccepts hnone
  cases haccepts with
  | unwanted hheader hwhy => exact ⟨hheader, hwhy.imp_right fun hwhy => hwhy.imp_right .inl⟩
  | @requested key log hwanted hkey hget =>
    obtain ⟨j, hj, hjheader, hjkey⟩ :=
      (htaken key hget).resolve_left (absurd (hfree hwanted.1 key hkey))
    exact ⟨hwanted.1, .inr (.inr (.inr ⟨j, hj, hjheader, hjkey.trans hkey.symm⟩))⟩
  | repeated _ hany =>
    obtain ⟨q, hq, hsame⟩ := any_eq_true.mp hany
    obtain ⟨j, hj, rfl⟩ := h.queued q hq
    exact absurd hsame (hapart j hj).symm
  | unit | header => cases hnone

theorem queued_accept (h : Admits setup is s) (i : Invocation) :
    ∀ q ∈ (s.accept setup i).2.queued, ∃ j ∈ is ++ [i], j.signature = q := by
  intro q hq
  have hold (hq : q ∈ s.queued) : ∃ j ∈ is ++ [i], j.signature = q := by
    obtain ⟨j, hj, hsignature⟩ := h.queued q hq
    exact ⟨j, mem_append_left _ hj, hsignature⟩
  have haccepts := s.accepts setup i
  generalize s.accept setup i = answer at haccepts hq
  cases haccepts with
  | unit =>
    rcases mem_append.mp hq with hq | hq
    · exact hold hq
    · exact ⟨i, by simp, (mem_singleton.mp hq).symm⟩
  | _ => exact hold hq

/-- **One more submission.** -/
theorem submit {g : Ledger} (h : Admits setup is s) (htaken : Taken table is s)
    (horderly : Orderly g s) (hroom : s.jobs.size < UInt64.size) (hapart : ∀ j ∈ is, i.Apart j)
    (hfiled : ∀ id j, s.invocation? id = some j → j ∈ is)
    (hfree : i.language.isHeader = true → ∀ key, i.headerKey? = some key →
      table.slots.get? key = none) : Admits setup (is ++ [i]) (s.submit setup i).2 := by
  have hqueued := queued_of_backdrop (s.submit_eq_accept setup i).2
  refine ⟨by rw [hqueued]; exact h.queued_accept i, fun front j back hsplit hnone => ?_, ?_⟩
  all_goals
    rcases invocation?_submit horderly hroom setup i with
      ⟨haccept, hsame⟩ | ⟨haccept, new, hnew, hnext⟩
  · simp only [hsame] at hnone
    rcases split_concat hsplit with ⟨back', rfl⟩ | ⟨rfl, rfl⟩
    · exact h.skipped front j back' rfl hnone
    · exact h.skipped_of_accept htaken hapart hfree haccept
  · simp only [hnext] at hnone
    rcases split_concat hsplit with ⟨back', rfl⟩ | ⟨rfl, rfl⟩
    · refine h.skipped front j back' rfl fun id hid => hnone id ?_
      rw [if_neg]
      · exact hid
      · rintro rfl
        cases hnew.symm.trans hid
    · exact absurd (if_pos rfl) (hnone new)
  · simpa only [hsame] using h.single
  · -- The new job is for a unit of its own.
    have hown : ∀ id, s.invocation? id ≠ some i := fun id hid =>
      (hapart i (hfiled id i hid)).ne rfl
    intro id id' j hid hid'
    rw [hnext] at hid hid'
    split at hid <;> split at hid'
    · next heq heq' => exact heq.trans heq'.symm
    · cases hid
      exact absurd hid' (hown id')
    · cases hid'
      exact absurd hid (hown id)
    · exact h.single id id' j hid hid'

end Admits

/-- **Which submitted units become jobs**, whatever else happens in between. -/
theorem Trace.admits {world : World} {state : IndexState} {ls : List Landing} {s : Scheduler}
    (h : Trace setup (Scheduler.start setup world state) is ls s)
    (hsize : is.length < UInt64.size) (hapart : is.Pairwise Invocation.Apart)
    (hfree : ∀ i ∈ is, i.language.isHeader = true → ∀ key, i.headerKey? = some key →
      state.pch.slots.get? key = none) : Admits setup is s := by
  induction h with
  | start =>
    refine ⟨fun q hq => absurd hq not_mem_nil, fun front i back hsplit => by simp at hsplit, ?_⟩
    exact fun id id' i hid => absurd hid (by simp [Scheduler.invocation?, Scheduler.start])
  | @submit is ls s i h ih =>
    rw [length_append, length_singleton] at hsize
    obtain ⟨hbefore, -, hlast⟩ := pairwise_append.mp hapart
    have hadmits := ih (by omega) hbefore fun j hj => hfree j (mem_append_left _ hj)
    obtain ⟨g, -, horderly⟩ := h.orderly (by omega)
    have hjobs := h.size_jobs (by omega)
    exact hadmits.submit (h.taken (by omega)).1 horderly (by omega)
      (fun j hj => (hlast j hj i (mem_singleton.mpr rfl)).symm) (h.filed (by omega)).1
      (hfree i (mem_append_right _ (mem_singleton.mpr rfl)))
  | @recount is ls s f h ih =>
    refine (ih hsize hapart hfree).congr (s.queued_mapCompletion f) fun id => ?_
    unfold Scheduler.invocation?
    rw [(s.core_recounted f).2.2]
  | step h hstep ih =>
    exact (ih hsize hapart hfree).congr (queued_of_backdrop (lands_step hstep).2)
      (h.invocation?_step hsize hstep)
  | parse h hend ih =>
    exact (ih hsize hapart hfree).congr (queued_of_backdrop (spares_endParse hend).2)
      (h.invocation?_parse hsize hend)

/-! ## Units of one signature -/

theorem not_precompiles (hunits : ∀ i ∈ is, i.language.isHeader = false) :
    ∀ i ∈ is, ¬setup.config.Precompiles i :=
  fun i hi h => absurd ((hunits i hi).symm.trans h.1) (by simp)

/-- The first unit of each signature, headers left out. -/
def firsts (is : List Invocation) : List Invocation :=
  (is.filter (fun i => !i.language.isHeader)).eraseDupsBy (fun i j => j.signature.same i.signature)

theorem firsts_concat (is : List Invocation) (i : Invocation) :
    firsts (is ++ [i])
      = if i.language.isHeader ∨ (firsts is).any (fun j => j.signature.same i.signature)
        then firsts is else firsts is ++ [i] := by
  have hloop : ∀ (r : Invocation → Invocation → Bool) (is kept : List Invocation),
      List.eraseDupsBy.loop r (is ++ [i]) kept
        = if (List.eraseDupsBy.loop r is kept).any (r i) then List.eraseDupsBy.loop r is kept
          else List.eraseDupsBy.loop r is kept ++ [i] := by
    intro r is
    induction is with
    | nil =>
      intro kept
      rw [nil_append, List.eraseDupsBy.loop, List.eraseDupsBy.loop, List.eraseDupsBy.loop,
        any_reverse]
      cases kept.any (r i) <;> simp [List.eraseDupsBy.loop]
    | cons j is ih =>
      intro kept
      rw [cons_append, List.eraseDupsBy.loop, List.eraseDupsBy.loop]
      cases kept.any (r j) <;> exact ih _
  unfold firsts
  rw [filter_append]
  cases hheader : i.language.isHeader with
  | true => simp [hheader]
  | false =>
    rw [filter_cons_of_pos (by simp [hheader]), filter_nil]
    simp only [Bool.false_eq_true, false_or]
    exact hloop _ _ []

theorem pairwise_firsts (is : List Invocation) : (firsts is).Pairwise Invocation.Apart := by
  induction is using List.reverseRecOn with
  | nil => exact .nil
  | append_singleton is i ih =>
    rw [firsts_concat]
    split
    · exact ih
    · next hnew =>
      refine pairwise_append.mpr ⟨ih, pairwise_singleton _ _, fun j hj k hk hsame => ?_⟩
      rw [mem_singleton.mp hk] at hsame
      exact hnew (.inr (any_eq_true.mpr ⟨j, hj, hsame⟩))

theorem any_firsts (is : List Invocation) (i : Invocation) :
    (firsts is).any (fun j => j.signature.same i.signature) = true
      ↔ ∃ j ∈ is, j.language.isHeader = false ∧ ¬i.Apart j := by
  have hnot (j : Invocation) : ¬i.Apart j ↔ j.signature.same i.signature = true :=
    Classical.not_not.trans ⟨Signature.same_symm, Signature.same_symm⟩
  simp only [hnot]
  induction is using List.reverseRecOn with
  | nil => simp [firsts]
  | append_singleton is k ih =>
    simp only [mem_append, mem_singleton, or_and_right, exists_or, exists_eq_left, ← ih]
    rw [firsts_concat]
    split
    · next hnone =>
      refine ⟨.inl, fun h => h.elim id fun ⟨hunit, hsame⟩ => ?_⟩
      obtain ⟨j, hj, hjk⟩ := any_eq_true.mp (hnone.resolve_left (by simp [hunit]))
      exact any_eq_true.mpr ⟨j, hj, Signature.same_trans hjk hsame⟩
    · next hnew =>
      have hunit : k.language.isHeader = false := by simpa using fun hheader => hnew (.inl hheader)
      simp [hunit]

/-- What a submission that precompiles nothing does to what is remembered of submissions, and to the
jobs. -/
theorem Scheduler.submit_plain (s : Scheduler) (hplain : ¬setup.config.Precompiles i) :
    ((s.submit setup i).2.backdrop, (s.submit setup i).2.jobs)
      = if i.language.isHeader ∨ s.queued.any (fun q => q.same i.signature) then
          ((s.world.stamps, s.queued, s.counters.duplicates + (!i.language.isHeader).toNat), s.jobs)
        else ((s.world.stamps, s.queued ++ [i.signature], s.counters.duplicates),
          s.jobs.insert (jobOf s.jobs.size) (Job.make (jobOf s.jobs.size) setup.kind i false)) := by
  have haccepts := s.accepts setup i
  rw [submit_eq]
  generalize s.accept setup i = answer at haccepts ⊢
  cases haccepts with
  | unwanted hheader =>
    rw [if_pos (.inl hheader), hheader]
    rfl
  | requested hwanted | header hwanted => exact absurd hwanted hplain
  | repeated hunit hany =>
    rw [if_pos (.inr hany), hunit]
    rfl
  | unit hunit hnone =>
    obtain ⟨log, hcounts⟩ := mapCompletion_eq { s with queued := s.queued ++ [i.signature] }
      Completion.countJob
    rw [if_neg (by simp [hunit, hnone])]
    simp only [hcounts]
    rfl

/-- What is known of a run to which units were submitted: its jobs, in the order of their numbers,
and how many of the units made none. -/
structure Registered (is : List Invocation) (s : Scheduler) : Prop where
  queued : s.queued = (firsts is).map Invocation.signature
  duplicates : s.counters.duplicates + (firsts is).length
    = is.countP (fun i => !i.language.isHeader)
  size : s.jobs.size = (firsts is).length
  jobs : ∀ n < UInt64.size, s.invocation? (jobOf n) = (firsts is)[n]?

theorem exists_jobOf (id : JobId) : ∃ n < UInt64.size, jobOf n = id := by
  refine ⟨(id.val - 1).toNat, (id.val - 1).toNat_lt_size, ?_⟩
  unfold jobOf
  rw [UInt64.ofNat_add, UInt64.ofNat_toNat, show UInt64.ofNat 1 = 1 from rfl, UInt64.sub_add_cancel]

namespace Registered

variable {s s' : Scheduler} {world : World} {state : IndexState} {ls : List Landing}

theorem of_backdrop (h : Registered is s) (hbackdrop : s'.backdrop = s.backdrop)
    (hsize : s'.jobs.size = s.jobs.size) (hjobs : ∀ id, s'.invocation? id = s.invocation? id) :
    Registered is s' := by
  simp only [Scheduler.backdrop, Prod.mk.injEq] at hbackdrop
  obtain ⟨-, hqueued, hduplicates⟩ := hbackdrop
  exact ⟨hqueued.trans h.queued, by rw [hduplicates]; exact h.duplicates, hsize.trans h.size,
    fun n hn => (hjobs _).trans (h.jobs n hn)⟩

theorem submit (h : Registered is s) (hplain : ¬setup.config.Precompiles i)
    (hroom : s.jobs.size < UInt64.size) (hnext : s.jobs.get? (jobOf s.jobs.size) = none) :
    Registered (is ++ [i]) (s.submit setup i).2 := by
  have hsubmit := s.submit_plain hplain
  have hany : s.queued.any (fun q => q.same i.signature)
      = (firsts is).any (fun j => j.signature.same i.signature) := by
    rw [h.queued, any_map]
    rfl
  have hfirsts := firsts_concat is i
  have hbefore := h.duplicates
  rw [hany] at hsubmit
  generalize (s.submit setup i).2 = s' at hsubmit ⊢
  split at hsubmit
  · next hnone =>
    rw [if_pos hnone] at hfirsts
    simp only [Scheduler.backdrop, Prod.mk.injEq] at hsubmit
    obtain ⟨⟨-, hqueued, hduplicates⟩, hjobs⟩ := hsubmit
    refine ⟨?_, ?_, ?_, fun n hn => ?_⟩ <;> rw [hfirsts]
    · exact hqueued.trans h.queued
    · rw [hduplicates, countP_append, ← hbefore]
      cases hheader : i.language.isHeader <;> simp [hheader, Nat.add_right_comm]
    · rw [hjobs, h.size]
    · rw [← h.jobs n hn]
      unfold Scheduler.invocation?
      rw [hjobs]
  · next hnew =>
    rw [if_neg hnew] at hfirsts
    simp only [Scheduler.backdrop, Prod.mk.injEq] at hsubmit
    obtain ⟨⟨-, hqueued, hduplicates⟩, hjobs⟩ := hsubmit
    refine ⟨?_, ?_, ?_, fun n hn => ?_⟩ <;> rw [hfirsts]
    · rw [hqueued, h.queued, map_append, map_singleton]
    · have hunit : i.language.isHeader = false := by simpa using fun hheader => hnew (.inl hheader)
      simp [hduplicates, ← hbefore, hunit, Nat.add_assoc]
    · rw [hjobs, size_insert, if_neg (by simp [SortedMap.contains, hnext]), h.size,
        length_append, length_singleton]
    · have hold := h.jobs n hn
      unfold Scheduler.invocation? at hold ⊢
      simp only [hjobs, get?_insert, Std.compare_eq_iff_eq]
      rw [h.size] at hroom ⊢
      by_cases heq : n = (firsts is).length
      · subst heq
        simp [Job.make]
      · rw [if_neg fun hjob => heq (jobOf_inj hn hroom hjob), hold]
        rcases Nat.lt_or_gt_of_ne heq with hlt | hgt
        · rw [List.getElem?_append_left hlt]
        · rw [getElem?_eq_none (by omega), getElem?_eq_none (by simp; omega)]

theorem apart (h : Registered is s) {id id' : JobId} {j : Invocation}
    (hi : s.invocation? id = some i) (hj : s.invocation? id' = some j) (hne : id ≠ id') :
    i.Apart j := by
  obtain ⟨n, hn, rfl⟩ := exists_jobOf id
  obtain ⟨m, hm, rfl⟩ := exists_jobOf id'
  rw [h.jobs n hn] at hi
  rw [h.jobs m hm] at hj
  obtain ⟨hn, rfl⟩ := List.getElem?_eq_some_iff.mp hi
  obtain ⟨hm, rfl⟩ := List.getElem?_eq_some_iff.mp hj
  have hpairwise := pairwise_iff_getElem.mp (pairwise_firsts is)
  rcases Nat.lt_trichotomy n m with hlt | rfl | hlt
  · exact hpairwise n m hn hm hlt
  · exact absurd rfl hne
  · exact (hpairwise m n hm hn hlt).symm

theorem exists_job_iff (h : Registered is s) (hsize : is.length < UInt64.size) :
    (∃ id, s.invocation? id = some i) ↔ i ∈ firsts is := by
  constructor
  · rintro ⟨id, hid⟩
    obtain ⟨n, hn, rfl⟩ := exists_jobOf id
    exact mem_of_getElem? ((h.jobs n hn).symm.trans hid)
  · intro hi
    obtain ⟨n, hn, rfl⟩ := mem_iff_getElem.mp hi
    have hcount := countP_le_length (p := fun i : Invocation => !i.language.isHeader) (l := is)
    have hfew := h.duplicates
    exact ⟨jobOf n, (h.jobs n (by omega)).trans (getElem?_eq_getElem hn)⟩

end Registered

/-- **The first submission of each unit becomes a job, in the order of submission**, and all others
are counted. -/
theorem Trace.registered {s : Scheduler} {world : World} {state : IndexState} {ls : List Landing}
    (h : Trace setup (Scheduler.start setup world state) is ls s)
    (hsize : is.length < UInt64.size) (hplain : ∀ i ∈ is, ¬setup.config.Precompiles i) :
    Registered is s := by
  induction h with
  | start => exact ⟨rfl, rfl, rfl, fun n _ => rfl⟩
  | @submit is ls s₁ i h ih =>
    rw [length_append, length_singleton] at hsize
    obtain ⟨g, -, horderly⟩ := h.orderly (by omega)
    have hroom := h.size_jobs (by omega)
    exact (ih (by omega) fun j hj => hplain j (mem_append_left _ hj)).submit
      (hplain i (mem_append_right _ (mem_singleton.mpr rfl))) (by omega)
      (horderly.get?_next (by omega))
  | @recount is ls s₁ f h ih =>
    have hjobs := (s₁.core_recounted f).2.2
    refine (ih hsize hplain).of_backdrop ((Scheduler.Spares.refl s₁).mapCompletion f).backdrop
      (by rw [hjobs]) fun id => ?_
    unfold Scheduler.invocation?
    rw [hjobs]
  | step h hstep ih =>
    exact (ih hsize hplain).of_backdrop (lands_step hstep).2
      ((h.transition_step hsize hstep).jobMoves (h.posted hsize)).2 (h.invocation?_step hsize hstep)
  | parse h hend ih =>
    exact (ih hsize hplain).of_backdrop (spares_endParse hend).2
      ((transition_endParse hend).jobMoves (h.posted hsize)).2
      (h.invocation?_parse hsize hend)

end SymbolIndex
