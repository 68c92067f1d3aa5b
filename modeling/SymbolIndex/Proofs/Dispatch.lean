import SymbolIndex.Proofs.Turns

/-!
# Dispatches as their jobs see them

The turns of a job are the tasks that are for it. This module says what the moves of tasks do to
turns, jobs and the line for permits: a task that starts its job or finds that it is not to
(`startLocal?_eq_some`, `startLocal?_eq_none`), and a permit that is given back
(`Asleep.releasePermit`).
-/

namespace SymbolIndex

open List SortedMap

/-! ## The turns of a job in a scheduler -/

/-- The dispatch that a task is. -/
def Task.turn (t : Task) : Turn := ⟨t.errand.attempt, t.errand.answers, t.phase.progress⟩

namespace Scheduler

def cards (s : Scheduler) : List (Option JobId × Turn) :=
  s.tasks.map (fun t => (t.errand.job?, t.turn))

/-- The dispatches of a job. -/
def turnsOf (s : Scheduler) (id : JobId) : List Turn :=
  (s.cards.filter (fun c => c.1 = some id)).map Prod.snd

variable {s s' : Scheduler} {n : Nat} {t t' : Task} {id : JobId} {job : Job} {attempt : UInt32}

theorem turnsOf_congr (h : s'.cards = s.cards) (id : JobId) : s'.turnsOf id = s.turnsOf id := by
  unfold turnsOf
  rw [h]

theorem getElem?_cards (ht : s.tasks[n]? = some t) :
    s.cards[n]? = some (t.errand.job?, t.turn) := by
  unfold cards
  rw [getElem?_map, ht]
  rfl

theorem mem_turnsOf (ht : s.tasks[n]? = some t) (hid : t.errand.job? = some id) :
    t.turn ∈ s.turnsOf id := by
  refine mem_map.mpr ⟨(some id, t.turn), mem_filter.mpr ⟨?_, by simp⟩, rfl⟩
  rw [← hid]
  exact mem_of_getElem? (getElem?_cards ht)

theorem turnsOf_split {c c' : Option JobId × Turn} (hcard : s.cards[n]? = some c)
    (hcards : s'.cards = s.cards.set n c') (id : JobId) :
    ∃ l l', s.turnsOf id = l ++ (if c.1 = some id then [c.2] else []) ++ l'
      ∧ s'.turnsOf id = l ++ (if c'.1 = some id then [c'.2] else []) ++ l' := by
  obtain ⟨hn, hget⟩ := List.getElem?_eq_some_iff.mp hcard
  obtain ⟨l, l', hbefore, hafter⟩ : ∃ l l', s.cards = l ++ c :: l' ∧ s'.cards = l ++ c' :: l' := by
    refine ⟨s.cards.take n, s.cards.drop (n + 1), ?_, ?_⟩
    · rw [← hget, getElem_cons_drop, take_append_drop]
    · rw [hcards, set_eq_take_append_cons_drop, if_pos hn]
  unfold turnsOf
  rw [hbefore, hafter]
  refine ⟨(l.filter (fun c => c.1 = some id)).map Prod.snd,
    (l'.filter (fun c => c.1 = some id)).map Prod.snd, ?_, ?_⟩
  · by_cases hc : c.1 = some id <;> simp [hc]
  · by_cases hc : c'.1 = some id <;> simp [hc]

theorem turnsOf_set_ne {j : Option JobId} {turn turn' : Turn} (hcard : s.cards[n]? = some (j, turn))
    (hcards : s'.cards = s.cards.set n (j, turn')) (hne : j ≠ some id) :
    s'.turnsOf id = s.turnsOf id := by
  obtain ⟨l, l', hbefore, hafter⟩ := turnsOf_split hcard hcards id
  rw [hbefore, hafter, if_neg hne, if_neg hne]

theorem turnsOf_append {more : List Task} (htasks : s'.tasks = s.tasks ++ more) (id : JobId) :
    s'.turnsOf id
      = s.turnsOf id ++ (more.filter (fun t => t.errand.job? = some id)).map Task.turn := by
  unfold turnsOf cards
  rw [htasks, map_append, filter_append, map_append, filter_map, filter_map, map_map, map_map]
  rfl

theorem cards_set (htasks : s'.tasks = s.tasks.set n t') (herrand : t'.errand = t.errand) :
    s'.cards = s.cards.set n (t.errand.job?, t.turn.moved t'.phase.progress) := by
  unfold cards
  rw [htasks, List.map_set]
  unfold Task.turn
  rw [herrand]
  rfl

theorem countP_tasks (ht : s.tasks[n]? = some t) (htasks : s'.tasks = s.tasks.set n t')
    (p : Task → Bool) : s'.tasks.countP p + (p t).toNat = s.tasks.countP p + (p t').toNat := by
  obtain ⟨hn, hget⟩ := List.getElem?_eq_some_iff.mp ht
  have hsplit : s.tasks = s.tasks.take n ++ t :: s.tasks.drop (n + 1) := by
    rw [← hget, getElem_cons_drop, take_append_drop]
  rw [htasks, set_eq_take_append_cons_drop, if_pos hn]
  conv => rhs; rw [hsplit]
  simp only [countP_append, countP_cons]
  cases p t <;> cases p t' <;> simp <;> omega

theorem turnsOf_of_tasks (h : s'.tasks = s.tasks) (id : JobId) : s'.turnsOf id = s.turnsOf id := by
  refine turnsOf_congr ?_ id
  unfold cards
  rw [h]

/-! ## The line for permits -/

/-- Who is in the line for permits is there once, and sleeps. -/
structure Asleep (s : Scheduler) : Prop where
  nodup : s.line.Nodup
  asleep : ∀ n ∈ s.line, (s.tasks[n]?).map Task.phase = some .inLine

namespace Asleep

variable {s s' : Scheduler} {n : Nat} {t t' : Task}

variable (h : Asleep s)

include h

theorem not_mem (ht : s.tasks[n]? = some t) (hawake : t.phase ≠ .inLine) :
    n ∉ s.line := by
  intro hmem
  have hphase := h.asleep n hmem
  rw [ht] at hphase
  exact hawake (Option.some.inj hphase)

theorem congr (htasks : s'.tasks = s.tasks) (hline : s'.line = s.line) : Asleep s' :=
  ⟨by rw [hline]; exact h.nodup, by rw [hline, htasks]; exact h.asleep⟩

theorem set (hout : n ∉ s.line) (htasks : s'.tasks = s.tasks.set n t')
    (hline : s'.line = s.line) : Asleep s' := by
  refine ⟨by rw [hline]; exact h.nodup, fun m hm => ?_⟩
  rw [hline] at hm
  have hne : n ≠ m := fun heq => hout (heq ▸ hm)
  rw [htasks, getElem?_set_ne hne]
  exact h.asleep m hm

theorem append {more : List Task} (htasks : s'.tasks = s.tasks ++ more) (hline : s'.line = s.line) :
    Asleep s' := by
  refine ⟨by rw [hline]; exact h.nodup, fun m hm => ?_⟩
  rw [hline] at hm
  have hphase := h.asleep m hm
  obtain ⟨t, ht, -⟩ := Option.map_eq_some_iff.mp hphase
  obtain ⟨hlt, -⟩ := List.getElem?_eq_some_iff.mp ht
  rw [htasks, List.getElem?_append_left hlt]
  exact hphase

theorem askPermit (ht : s.tasks[n]? = some t) (hawake : t.phase ≠ .inLine) :
    Asleep (s.askPermit n) := by
  have hout := h.not_mem ht hawake
  unfold Scheduler.askPermit
  split
  · have htasks : ({ s with line := s.line ++ [n] }.setPhase n .inLine).tasks
        = s.tasks.set n { t with phase := .inLine } := modify_of_getElem? _ ht
    refine ⟨nodup_append.mpr ⟨h.nodup, by simp, fun a ha b hb heq => ?_⟩, fun m hm => ?_⟩
    · rw [mem_singleton.mp hb] at heq
      exact hout (heq ▸ ha)
    · rw [htasks]
      rcases mem_append.mp hm with hm | hm
      · have hne : n ≠ m := fun heq => hout (heq ▸ hm)
        rw [getElem?_set_ne hne]
        exact h.asleep m hm
      · rw [mem_singleton.mp hm, getElem?_set_of_some ht]
        rfl
  · exact h.set hout (modify_of_getElem? _ ht) rfl

theorem wakes : s.releasePermit.1.tasks = s.tasks ∨ ∃ m t, s.tasks[m]? = some t
    ∧ t.phase = .inLine ∧ s.releasePermit.1.tasks = s.tasks.set m { t with phase := .granted } := by
  unfold Scheduler.releasePermit
  split
  · exact .inl rfl
  · next m rest hline =>
    obtain ⟨t, ht, hphase⟩ := Option.map_eq_some_iff.mp
      (h.asleep m (by rw [hline]; exact mem_cons_self ..))
    exact .inr ⟨m, t, ht, hphase, modify_of_getElem? _ ht⟩

theorem releasePermit : Asleep s.releasePermit.1 ∧ s.releasePermit.1.cards = s.cards
      ∧ ∀ m, m ∉ s.line → m ∉ s.releasePermit.1.line := by
  unfold Scheduler.releasePermit
  split
  · next hline => exact ⟨h.congr rfl rfl, rfl, fun m hm => hm⟩
  · next m rest hline =>
    have hnodup := h.nodup
    rw [hline, nodup_cons] at hnodup
    have hphase := h.asleep m (by rw [hline]; exact mem_cons_self ..)
    obtain ⟨t, ht, hphase⟩ := Option.map_eq_some_iff.mp hphase
    have hrest : Asleep { s with line := rest } :=
      ⟨hnodup.2, fun k hk => h.asleep k (by rw [hline]; exact mem_cons_of_mem _ hk)⟩
    refine ⟨hrest.set hnodup.1 (modify_of_getElem? _ ht) rfl, ?_, fun k hk hmem => ?_⟩
    · -- A task in the line and one with a permit both wait.
      show (s.tasks.modify m _).map _ = s.tasks.map _
      rw [modify_of_getElem? _ ht, List.map_set]
      obtain ⟨hm, hget⟩ := List.getElem?_eq_some_iff.mp (getElem?_cards ht)
      have hturn : Task.turn { t with phase := .granted } = t.turn := by
        unfold Task.turn
        rw [hphase]
        rfl
      rw [hturn, ← hget]
      exact set_getElem_self hm
    · rw [hline] at hk
      exact hk (mem_cons_of_mem _ hmem)

end Asleep

variable {jobs : SortedMap JobId Job}

theorem eq_insert_of_get? {jobs' : SortedMap JobId Job}
    (h : ∀ id', jobs'.get? id' = if id' = id then some job else jobs.get? id') :
    jobs' = jobs.insert id job := by
  refine ext_get? fun id' => ?_
  rw [h]
  simp only [get?_insert, Std.compare_eq_iff_eq]

theorem insert_of_get? (h : jobs.get? id = some job) : jobs.insert id job = jobs := by
  refine (eq_insert_of_get? fun id' => ?_).symm
  split
  · next heq => rw [heq, h]
  · rfl

theorem jobs_releasePermit (s : Scheduler) : s.releasePermit.1.jobs = s.jobs := by
  obtain ⟨tasks, line, permits, hfreed⟩ := s.releasePermit_eq
  rw [hfreed]

theorem jobs_insert {job' : Job} (hjob : s.jobs.get? id = some job)
    (hjobs : s'.jobs = s.jobs.insert id job') :
    (∀ id', s'.jobs.get? id' = if id' = id then some job' else s.jobs.get? id')
      ∧ s'.jobs.size = s.jobs.size := by
  refine ⟨fun id' => ?_, ?_⟩
  · rw [hjobs]
    simp only [get?_insert, Std.compare_eq_iff_eq]
  · rw [hjobs, size_insert, if_pos (SortedMap.contains_iff.mpr ⟨_, hjob⟩)]

/-! ## Starting a job -/

theorem startLocal?_of_queued  (hjob : s.jobs.get? id = some job) (hattempts : job.attempts = 0)
    (hqueued : job.state = .queued) :
    ∃ job', s.startLocal? id 0 = some (job.invocation, { s with jobs := s.jobs.insert id job' })
      ∧ job'.id = job.id ∧ job'.attempts = 0 ∧ job'.state = .runningLocal := by
  have hmove : job.state.canMoveTo .runningLocal = true := by rw [hqueued]; rfl
  refine ⟨{ job with state := .runningLocal, started := job.started || true }, ?_, rfl, hattempts,
    rfl⟩
  unfold startLocal? Job.transition
  rw [hjob]
  simp only
  rw [if_pos ⟨hattempts, .inl hqueued⟩, if_pos hmove]
  rfl

theorem startLocal?_eq_some {s₁ : Scheduler} {i : Invocation}
    (h : s.startLocal? id attempt = some (i, s₁)) :
    ∃ job, s.jobs.get? id = some job ∧ job.invocation = i ∧ attempt = job.attempts
      ∧ job.state.waits = true
      ∧ s₁ = { s with jobs := s.jobs.insert id
                        { job with state := .runningLocal, started := true } } := by
  unfold startLocal? at h
  split at h
  · cases h
  · next job hjob =>
    split at h
    · next hdue =>
      have hmove : job.state.canMoveTo .runningLocal = true := by
        rcases hdue.2 with hstate | hstate <;> rw [hstate] <;> rfl
      unfold Job.transition at h
      rw [if_pos hmove] at h
      cases h
      exact ⟨job, hjob, rfl, hdue.1.symm, JobState.waits_iff.mpr hdue.2, by simp⟩
    · cases h

theorem startLocal?_eq_none (h : s.startLocal? id attempt = none)
    (hjob : s.jobs.get? id = some job) : ¬ (job.state.waits = true ∧ attempt = job.attempts) := by
  intro ⟨hwaits, hattempt⟩
  have hstate := JobState.waits_iff.mp hwaits
  have hmove : job.state.canMoveTo .runningLocal = true := by
    rcases hstate with hstate | hstate <;> rw [hstate] <;> rfl
  unfold startLocal? Job.transition at h
  rw [hjob] at h
  simp only [hattempt, hstate, hmove, and_self, if_true] at h
  cases h

end Scheduler

end SymbolIndex
