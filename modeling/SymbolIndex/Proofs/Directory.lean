import SymbolIndex.Proofs.Lookup

/-!
# Changing a directory

What happens in one directory of a tree when no symbolic link lies in it. Each operation on a path
into the directory changes the entry it names, and `Touches` says that it changes nothing else of
the directory, nor what a way goes through: the path goes on leading to the directory.

A directory that is made by making all directories above it lies on a way without links when no
link lay there before.
-/

namespace SymbolIndex.Disk

variable {top s old new : Spot} {d d' : Disk} {e : Entry} {p source target : Path}

theorem entryAt?_put (d : Disk) (hs : s ≠ []) (e : Entry) (s' : Spot) :
    (d.put s e).entryAt? s' = if s' = s then some e else d.entryAt? s' := by
  unfold entryAt? put
  by_cases hroot : s' = []
  · subst hroot
    rw [if_pos rfl, if_pos rfl, if_neg (fun h => hs h.symm)]
  · simp only [if_neg hroot, SortedMap.get?_insert, Std.compare_eq_iff_eq]

theorem entryAt?_removeAt (d : Disk) (hs : s ≠ []) (s' : Spot) :
    (d.removeAt s).entryAt? s' = if s <+: s' then none else d.entryAt? s' := by
  unfold entryAt? removeAt
  by_cases hroot : s' = []
  · subst hroot
    rw [if_pos rfl, if_pos rfl, if_neg (fun h => hs (List.prefix_nil.mp h))]
  · simp only [if_neg hroot, SortedMap.get?_filter]
    by_cases hpre : s <+: s'
    · rw [if_pos hpre]
      cases d.entries.get? s' <;> simp [Option.filter, hpre]
    · rw [if_neg hpre]
      cases d.entries.get? s' <;> simp [Option.filter, hpre]

/-- Only entries of a directory with certain names are changed. -/
structure Touches (top : Spot) (touched : String → Prop) (d d' : Disk) : Prop where
  home : d'.workingDirectory = d.workingDirectory
  keeps : Keeps d d'
  beside : ∀ name, ¬ touched name → d'.entryAt? (top ++ [name]) = d.entryAt? (top ++ [name])
  plain : (∀ name target, d.entryAt? (top ++ [name]) ≠ some (.link target)) →
    ∀ name target, d'.entryAt? (top ++ [name]) ≠ some (.link target)

namespace Touches

variable {top : Spot} {touched touched' : String → Prop} {d d' d'' : Disk} {p : Path}

theorem refl (top : Spot) (touched : String → Prop) (d : Disk) : Touches top touched d d :=
  ⟨rfl, .refl d, fun _ _ => rfl, fun h => h⟩

variable (h : Touches top touched d d')

include h

theorem mono (hsub : ∀ name, touched name → touched' name) :
    Touches top touched' d d' :=
  ⟨h.home, h.keeps, fun name hname => h.beside name (fun ht => hname (hsub name ht)), h.plain⟩

theorem trans (h' : Touches top touched d' d'') :
    Touches top touched d d'' :=
  ⟨h'.home.trans h.home, h.keeps.trans h'.keeps,
    fun name hname => (h'.beside name hname).trans (h.beside name hname),
    fun hplain => h'.plain (h.plain hplain)⟩

theorem leads (hd : Leads d p top) : Leads d' p top :=
  hd.keeps h.keeps (h.plain hd.plain)

theorem founded (hd : Founded d p top) : Founded d' p top where
  absolute := hd.absolute
  routable := hd.routable
  spelled := hd.spelled
  down := hd.down
  directory := fun s hs =>
    h.keeps.directory (fun r hr _ => hd.directory r (hr.trans hs)) (hd.directory s hs)
  short := hd.short
  plain := h.plain hd.plain

end Touches

variable {name : String}

theorem not_isPrefix_of_passable (hold : ¬ Passable (d.entryAt? old)) (hs : Standing d s)
    (hpass : Passable (d.entryAt? s)) : ¬ old <+: s := by
  intro hpre
  by_cases heq : old = s
  · exact hold (heq ▸ hpass)
  · rw [hs old hpre heq] at hold
    exact hold trivial

theorem touches_put (d : Disk) (hold : ¬ Passable (d.entryAt? (top ++ [name])))
    (he : ∀ target, e ≠ .link target) (now : Int) (temporaries : Nat) :
    Touches top (fun n => n = name) d
      { d.put (top ++ [name]) e with now := now, temporaries := temporaries } := by
  have hentry : ∀ s, ({ d.put (top ++ [name]) e with now := now, temporaries := temporaries } :
      Disk).entryAt? s = if s = top ++ [name] then some e else d.entryAt? s :=
    d.entryAt?_put (by simp) e
  refine ⟨rfl, fun s hs hpass => ?_, fun n hn => ?_, fun hplain n target => ?_⟩
  · rw [hentry, if_neg]
    rintro rfl
    exact hold hpass
  · rw [hentry, if_neg (by simpa using hn)]
  · rw [hentry]
    split
    · exact fun heq => he target (Option.some.inj heq)
    · exact hplain n target

theorem touches_removeAt (d : Disk) (hold : ¬ Passable (d.entryAt? (top ++ [name]))) :
    Touches top (fun n => n = name) d (d.removeAt (top ++ [name])) := by
  have hentry := d.entryAt?_removeAt (s := top ++ [name]) (by simp)
  refine ⟨rfl, fun s hs hpass => ?_, fun n hn => ?_, fun hplain n target => ?_⟩
  · rw [hentry, if_neg (not_isPrefix_of_passable hold hs hpass)]
  · rw [hentry, if_neg]
    intro hpre
    have heq := hpre.eq_of_length (by simp)
    simp at heq
    exact hn heq.symm
  · rw [hentry]
    split
    · simp
    · exact hplain n target

theorem removeFile_eq_ok (h : d.removeFile p = .ok d') :
    ∃ l e, d.lastStep p = .ok l ∧ d.entryAt? l.spot = some e ∧ e ≠ .directory
      ∧ d' = d.removeAt l.spot := by
  obtain ⟨l, hl, h⟩ := bind_eq_ok_iff.mp h
  split at h
  · cases h
  · split at h
    · cases h
    · next e hdirectory hentry =>
      split at h
      · cases h
      · cases h
        exact ⟨l, e, hl, hentry, hdirectory, rfl⟩
    · cases h

namespace Leads

variable {d d' : Disk} {p : Path} {top : Spot} {name : String}

variable (h : Leads d p top) (hname : IsName name)

include h hname

/-- **What is written is there, and nothing else has changed.** -/
theorem write_child {content : ByteArray}
    (hwrite : d.write (p.child name) content = .ok d') :
    Touches top (fun n => n = name) d d' ∧ ∃ modified executable, d'.entryAt? (top ++ [name])
        = some (.file content modified executable) := by
  suffices hput : ¬ Passable (d.entryAt? (top ++ [name])) ∧ ∃ executable,
      d' = (d.put (top ++ [name]) (.file content d.now executable)).tick by
    obtain ⟨hold, executable, rfl⟩ := hput
    refine ⟨d.touches_put hold (by simp) _ _, d.now, executable, ?_⟩
    show (d.put (top ++ [name]) _).entryAt? (top ++ [name]) = _
    rw [d.entryAt?_put (by simp), if_pos rfl]
  unfold write at hwrite
  by_cases hreach : Reachable p name
  · rw [h.resolve_child hname hreach.routable, if_neg (Nat.not_lt.mpr hreach.short)] at hwrite
    cases hentry : d.entryAt? (top ++ [name]) with
    | some e =>
      simp only [hentry, Option.isSome_some, if_true] at hwrite
      cases e with
      | file _ _ executable =>
        exact ⟨fun hpass => hpass, executable, (Except.ok.inj hwrite).symm⟩
      | directory | link => cases hwrite
    | none =>
      simp only [hentry, Option.isSome_none, Bool.false_eq_true, if_false] at hwrite
      obtain ⟨segments, hroute, hwrite⟩ := bind_eq_ok_iff.mp hwrite
      obtain ⟨spot, hspot, hwrite⟩ := bind_eq_ok_iff.mp hwrite
      obtain ⟨front, -, hroute', hfront, -⟩ := h.route_child hname hreach.routable
      cases hroute.symm.trans hroute'
      rw [creationSpot, h.lastStepFrom_child hname hfront,
        if_neg (Nat.not_lt.mpr hreach.short)] at hspot
      simp only [bind, Except.bind, LastStep.isSpecial, LastStep.spot, hname.nonempty,
        hname.current, hname.above, hentry] at hspot
      cases hspot
      exact ⟨fun hpass => hpass, false, (Except.ok.inj hwrite).symm⟩
  · obtain ⟨e, hne, herror⟩ := h.unreachable hname hreach
    rw [(herror d h).2.1] at hwrite
    cases e <;> first | exact absurd rfl hne | cases hwrite

theorem lastStep_eq_ok {step : LastStep}
    (hstep : d.lastStep (p.child name) = .ok step) :
    Reachable p name ∧ step = { directory := top, name, slashes := false } := by
  by_cases hreach : Reachable p name
  · rw [h.lastStep_child hname hreach.routable, if_neg (Nat.not_lt.mpr hreach.short)] at hstep
    exact ⟨hreach, (Except.ok.inj hstep).symm⟩
  · obtain ⟨e, -, herror⟩ := h.unreachable hname hreach
    rw [(herror d h).2.2] at hstep
    cases hstep

theorem removeFile_child (hremove : d.removeFile (p.child name) = .ok d') :
    Touches top (fun n => n = name) d d'
      ∧ (∃ content modified executable, d.entryAt? (top ++ [name])
        = some (.file content modified executable))
      ∧ d'.entryAt? (top ++ [name]) = none := by
  obtain ⟨step, e, hstep, hentry, hne, rfl⟩ := removeFile_eq_ok hremove
  obtain ⟨-, rfl⟩ := h.lastStep_eq_ok hname hstep
  change d.entryAt? (top ++ [name]) = some e at hentry
  cases e with
  | directory => exact absurd rfl hne
  | link target => exact absurd hentry (h.plain name target)
  | file content modified executable =>
    refine ⟨d.touches_removeAt (by rw [hentry]; exact fun hpass => hpass),
      ⟨content, modified, executable, hentry⟩, ?_⟩
    exact (d.entryAt?_removeAt (by simp [LastStep.spot]) _).trans (if_pos (List.prefix_refl _))

end Leads

/-! ## Renaming -/

theorem entryAt?_foldl_put_of_elsewhere (hnew : new ≠ []) (hs : ¬ new <+: s)
    (l : List (Spot × Entry)) (d : Disk) :
    (l.foldl (fun d e => d.put (new ++ e.1.drop old.length) e.2) d).entryAt? s = d.entryAt? s := by
  induction l generalizing d with
  | nil => rfl
  | cons _ _ ih =>
    rw [List.foldl_cons, ih, d.entryAt?_put (by simp [hnew]), if_neg]
    rintro rfl
    exact hs (List.prefix_append ..)

theorem entryAt?_foldl_put (hnew : new ≠ []) (l : List (Spot × Entry))
    (hbelow : ∀ x ∈ l, old <+: x.1) (honly : ∀ x ∈ l, x.1 = old → x.2 = e) (d : Disk)
    (h : d.entryAt? new = some e ∨ (old, e) ∈ l) :
    (l.foldl (fun d x => d.put (new ++ x.1.drop old.length) x.2) d).entryAt? new = some e := by
  induction l generalizing d with
  | nil => exact h.elim (fun h => h) (fun h => absurd h (by simp))
  | cons x _ ih =>
    refine ih (fun y hy => hbelow y (List.mem_cons_of_mem _ hy))
      (fun y hy => honly y (List.mem_cons_of_mem _ hy)) _ ?_
    rw [d.entryAt?_put (by simp [hnew])]
    by_cases hx : x.1 = old
    · exact .inl (by rw [hx, List.drop_length, List.append_nil, if_pos rfl,
        honly x (List.mem_cons_self ..) hx])
    · obtain ⟨tail, htail⟩ := hbelow x (List.mem_cons_self ..)
      have hne : new ≠ new ++ x.1.drop old.length := by
        rw [← htail, List.drop_left]
        intro heq
        have hnil : tail = [] := by simpa using heq
        rw [hnil, List.append_nil] at htail
        exact hx htail.symm
      rw [if_neg hne]
      refine h.imp_right (fun h => ?_)
      rcases List.mem_cons.mp h with rfl | h
      · exact absurd rfl hx
      · exact h

theorem workingDirectory_move (d : Disk) (old new : Spot) :
    (d.move old new).workingDirectory = d.workingDirectory := by
  have hfold : ∀ (l : List (Spot × Entry)) (d : Disk),
      (l.foldl (fun d x => d.put (new ++ x.1.drop old.length) x.2) d).workingDirectory
        = d.workingDirectory := by
    intro l
    induction l with
    | nil => exact fun _ => rfl
    | cons _ _ ih => exact fun d => ih _
  exact hfold _ _

theorem entryAt?_move (he : d.entryAt? old = some e) (hold : old ≠ []) (hnew : new ≠ []) :
    (d.move old new).entryAt? new = some e := by
  have hmem : (old, e) ∈ d.entries.toList := by
    unfold entryAt? at he
    rw [if_neg hold] at he
    exact SortedMap.mem_toList_iff.mpr he
  refine entryAt?_foldl_put hnew _ (fun x hx => ?_) (fun x hx hold => ?_) _
    (.inr (List.mem_filter.mpr ⟨hmem, by simp⟩))
  · simpa using (List.mem_filter.mp hx).2
  · have hget := SortedMap.mem_toList_iff.mp (List.mem_filter.mp hx).1
    have hget' := SortedMap.mem_toList_iff.mp hmem
    rw [hold] at hget
    exact Option.some.inj (hget.symm.trans hget')

theorem entryAt?_move_of_elsewhere (hnew : new ≠ []) (hs : ¬ new <+: s) :
    (d.move old new).entryAt? s = (d.removeAt old).entryAt? s := by
  unfold move
  simp only
  rw [entryAt?_foldl_put_of_elsewhere hnew hs, entryAt?_removeAt _ hnew, if_neg hs]

theorem move_child {old new : String} (he : d.entryAt? (top ++ [old]) = some e)
    (hold : ¬ Passable (some e)) (hfree : ¬ Passable (d.entryAt? (top ++ [new]))) :
    Touches top (fun n => n = old ∨ n = new) d (d.move (top ++ [old]) (top ++ [new]))
      ∧ (d.move (top ++ [old]) (top ++ [new])).entryAt? (top ++ [new]) = some e := by
  have hmoved : (d.move (top ++ [old]) (top ++ [new])).entryAt? (top ++ [new]) = some e :=
    entryAt?_move he (by simp) (by simp)
  have hother : ∀ s, ¬ top ++ [new] <+: s →
      (d.move (top ++ [old]) (top ++ [new])).entryAt? s = (d.removeAt (top ++ [old])).entryAt? s :=
    fun s hs => entryAt?_move_of_elsewhere (by simp) hs
  have hremoved := d.touches_removeAt (he ▸ hold)
  have hchild : ∀ n, n ≠ new → ¬ top ++ [new] <+: top ++ [n] := by
    intro n hn hpre
    have heq := hpre.eq_of_length (by simp)
    simp at heq
    exact hn heq.symm
  refine ⟨⟨workingDirectory_move d _ _, fun s hs hpass => ?_, fun n hn => ?_,
    fun hplain n target => ?_⟩, hmoved⟩
  · rw [hother s (not_isPrefix_of_passable hfree hs hpass), hremoved.keeps s hs hpass]
  · rw [not_or] at hn
    rw [hother _ (hchild n hn.2), hremoved.beside n hn.1]
  · by_cases hn : n = new
    · rw [hn, hmoved]
      exact fun heq => hold (heq ▸ trivial)
    · rw [hother _ (hchild n hn)]
      exact hremoved.plain hplain n target

theorem rename_eq_ok (h : d.rename source target = .ok d') :
    ∃ from_ to_ e, d.lastStep source = .ok from_ ∧ d.lastStep target = .ok to_
      ∧ from_.isSpecial = false ∧ d.entryAt? from_.spot = some e
      ∧ (e ≠ .directory → from_.slashes = false)
      ∧ (from_.spot = to_.spot ∨ ¬ to_.spot <+: from_.spot ∧ d.replaceError? e to_.spot = none
        ∧ d' = d.move from_.spot to_.spot) := by
  obtain ⟨from_, hfrom, h⟩ := bind_eq_ok_iff.mp h
  obtain ⟨to_, hto, h⟩ := bind_eq_ok_iff.mp h
  split at h
  · cases h
  next hspecial =>
  rw [not_or] at hspecial
  split at h
  · cases h
  next e hentry =>
  split at h
  · cases h
  next hslashes =>
  refine ⟨from_, to_, e, hfrom, hto, by simpa using hspecial.1, hentry, fun hne => ?_, ?_⟩
  · simpa using fun hs => hslashes ⟨hne, .inl hs⟩
  split at h
  · exact .inl ‹_›
  split at h
  · cases h
  split at h
  · cases h
  next hprefix =>
  split at h
  · cases h
  · next hreplace =>
    cases h
    exact .inr ⟨by simpa using hprefix, hreplace, rfl⟩

/-- **A file that is given another name stands there, and nothing else has changed.** -/
theorem Leads.rename_child {p : Path} (h : Leads d p top) {old new : String} (hold : IsName old)
    (hnew : IsName new) (hne : old ≠ new) {content : ByteArray} {modified : Int} {executable : Bool}
    (he : d.entryAt? (top ++ [old]) = some (.file content modified executable))
    (hrename : d.rename (p.child old) (p.child new) = .ok d') :
    Touches top (fun n => n = old ∨ n = new) d d' ∧ Reachable p new
      ∧ d'.entryAt? (top ++ [new]) = some (.file content modified executable) := by
  obtain ⟨from_, to_, e, hfrom, hto, -, he', -, hmove⟩ := rename_eq_ok hrename
  obtain ⟨-, rfl⟩ := h.lastStep_eq_ok hold hfrom
  obtain ⟨hreach, rfl⟩ := h.lastStep_eq_ok hnew hto
  obtain rfl := Option.some.inj (he.symm.trans he')
  rcases hmove with heq | ⟨-, hreplace, rfl⟩
  · exact absurd (by simpa [LastStep.spot] using heq) hne
  change d.replaceError? _ (top ++ [new]) = none at hreplace
  have hfree : ¬ Passable (d.entryAt? (top ++ [new])) := by
    cases hentry : d.entryAt? (top ++ [new]) with
    | none => exact fun hpass => hpass
    | some e =>
      cases e with
      | file => exact fun hpass => hpass
      | link target => exact absurd hentry (h.plain new target)
      | directory => simp [replaceError?, hentry] at hreplace
  obtain ⟨htouches, hentry⟩ := move_child he (fun hpass => hpass) hfree
  exact ⟨htouches, hreach, hentry⟩

/-! ## Making a directory -/

/-- A path to a directory, with no link on the way or in it. -/
structure Straight (d : Disk) (p : Path) (top : Spot) : Prop where
  absolute : p.isAbsolute = true
  spelled : names (segmentsOf p) = top
  down : ".." ∉ segmentsOf p
  unlinked : ∀ s, s <+: top → ∀ target, d.entryAt? s ≠ some (.link target)
  plain : ∀ name target, d.entryAt? (top ++ [name]) ≠ some (.link target)

/-- On an empty disk there is no link on any way. -/
theorem straight_of_empty (habsolute : p.isAbsolute = true) (hspelled : names (segmentsOf p) = top)
    (hdown : ".." ∉ segmentsOf p) : Straight {} p top := by
  have hunlinked : ∀ s target, ({} : Disk).entryAt? s ≠ some (.link target) := by
    intro s target
    unfold entryAt?
    split <;> simp
  exact ⟨habsolute, hspelled, hdown, fun s _ => hunlinked s, fun name => hunlinked _⟩

/-- A walk that meets no link and comes to its end has gone along directories. -/
theorem walk_of_unlinked {segments : List String} (here : Spot) (hdown : ".." ∉ segments)
    (hunlinked : ∀ s, s <+: names segments → ∀ target, d.entryAt? (here ++ s) ≠ some (.link target))
    {stop : Stop} (h : d.walk true here segments = .ok stop) :
    stop = .reached (here ++ names segments)
      ∧ (∀ name ∈ names segments, name.utf8ByteSize ≤ maxName)
      ∧ ∀ s, s <+: names segments → s ≠ names segments →
          d.entryAt? (here ++ s) = some .directory := by
  induction segments generalizing here with
  | nil =>
    cases h
    refine ⟨by simp [names], by simp [names], fun s hs hne => ?_⟩
    exact absurd (List.prefix_nil.mp hs) hne
  | cons segment rest ih =>
    rw [List.mem_cons, not_or] at hdown
    have hhere : d.entryAt? here = some .directory := by
      rw [walk] at h
      split at h
      · next hentry => exact hentry
      · cases h
      · cases h
    rw [walk, hhere] at h
    simp only at h
    by_cases hskip : segment = "" ∨ segment = "."
    · rw [if_pos hskip] at h
      rw [names_cons, if_pos hskip] at hunlinked ⊢
      exact ih here hdown.2 hunlinked h
    · rw [names_cons, if_neg hskip] at hunlinked ⊢
      rw [if_neg hskip, if_neg (fun h => hdown.1 h.symm)] at h
      split at h
      · cases h
      · next hshort =>
        have hnext : d.walk true (here ++ [segment]) rest = .ok stop := by
          split at h
          · cases h
          · next target hlink => exact absurd hlink (hunlinked [segment] (by simp) target)
          · exact h
        have hassoc : ∀ s, here ++ [segment] ++ s = here ++ segment :: s := by simp
        obtain ⟨hstop, hshorts, hdirectory⟩ := ih (here ++ [segment]) hdown.2 (fun s hs target => by
          rw [hassoc]
          exact hunlinked _ (List.cons_prefix_cons.mpr ⟨rfl, hs⟩) target) hnext
        rw [hassoc] at hstop
        refine ⟨hstop, fun name hname => ?_, fun s hs hne => ?_⟩
        · rcases List.mem_cons.mp hname with rfl | hname
          · omega
          · exact hshorts name hname
        · cases s with
          | nil => rw [List.append_nil]; exact hhere
          | cons x s =>
            obtain ⟨rfl, hrest⟩ := List.cons_prefix_cons.mp hs
            rw [← hassoc]
            exact hdirectory s hrest (fun heq => hne (by rw [heq]))

namespace Straight

variable {d d' : Disk} {p : Path} {top : Spot}

theorem founded (h : Straight d p top) {spot : Spot} (hresolve : d.resolve true p = .ok spot)
    (hspot : d.entryAt? spot = some .directory) : spot = top ∧ Founded d p top := by
  unfold resolve at hresolve
  obtain ⟨segments, hroute, hresolve⟩ := bind_eq_ok_iff.mp hresolve
  obtain ⟨hroutable, rfl⟩ : Routable p ∧ segmentsOf p = segments := by
    rcases route_absolute d h.absolute with ⟨hroutable, hroute'⟩ | ⟨-, e, -, herror⟩
    · exact ⟨hroutable, Except.ok.inj (hroute'.symm.trans hroute)⟩
    · rw [herror] at hroute
      cases hroute
  rw [walkThrough] at hresolve
  obtain ⟨stop, hwalk, hresolve⟩ := bind_eq_ok_iff.mp hresolve
  have hunlinked : ∀ s, s <+: names (segmentsOf p) → ∀ target,
      d.entryAt? ([] ++ s) ≠ some (.link target) := by
    rw [h.spelled]
    exact h.unlinked
  obtain ⟨rfl, hshort, hdirectory⟩ := walk_of_unlinked [] h.down hunlinked hwalk
  rw [List.nil_append, h.spelled] at hresolve
  obtain rfl : top = spot := Except.ok.inj hresolve
  rw [h.spelled] at hshort hdirectory
  refine ⟨rfl, h.absolute, hroutable, h.spelled, h.down, fun s hs => ?_, hshort, h.plain⟩
  by_cases heq : s = top
  · rw [heq, hspot]
  · exact hdirectory s hs heq

end Straight

/-- Directories were added, and nothing else. -/
structure Grown (d d' : Disk) : Prop where
  home : d'.workingDirectory = d.workingDirectory
  entries : ∀ s, d'.entryAt? s = d.entryAt? s ∨ (d.entryAt? s = none ∧ d'.entryAt? s = some .directory)

namespace Grown

variable {d d' d'' : Disk} {p : Path}

theorem refl (d : Disk) : Grown d d := ⟨rfl, fun _ => .inl rfl⟩

theorem trans (h : Grown d d') (h' : Grown d' d'') : Grown d d'' := by
  refine ⟨h'.home.trans h.home, fun s => ?_⟩
  rcases h'.entries s with heq | ⟨hnone, hdir⟩
  · rw [heq]
    exact h.entries s
  · rcases h.entries s with heq | ⟨-, hdir'⟩
    · exact .inr ⟨heq ▸ hnone, hdir⟩
    · rw [hnone] at hdir'
      cases hdir'

theorem createDirectory (h : d.createDirectory p = .ok d') : Grown d d' := by
  unfold Disk.createDirectory at h
  obtain ⟨spot, hspot, h⟩ := bind_eq_ok_iff.mp h
  have hne : spot ≠ [] := by
    unfold place at hspot
    obtain ⟨step, -, hspot⟩ := bind_eq_ok_iff.mp hspot
    split at hspot
    · cases hspot
    · cases hspot
      simp [LastStep.spot]
  split at h
  · cases h
  · next hnone =>
    cases h
    refine ⟨rfl, fun s => ?_⟩
    rw [d.entryAt?_put hne]
    by_cases hs : s = spot
    · exact .inr ⟨hs ▸ hnone, if_pos hs⟩
    · exact .inl (if_neg hs)

theorem ensureDirectory (d : Disk) (p : Path) : Grown d (d.ensureDirectory p).1 := by
  unfold Disk.ensureDirectory
  split
  · next h => exact createDirectory h
  · exact refl d

theorem createChain (ps : List Path) (d : Disk) : Grown d (d.createChain ps).1 := by
  induction ps generalizing d with
  | nil => exact refl d
  | cons p _ ih =>
    have hfirst := ensureDirectory d p
    unfold Disk.createChain
    split
    · exact refl d
    · split
      · next d₁ heq =>
        rw [heq] at hfirst
        have habove := ih d₁
        split
        · next d₂ e heq' =>
          rw [heq'] at habove
          exact hfirst.trans habove
        · next d₂ heq' =>
          rw [heq'] at habove
          exact (hfirst.trans habove).trans (ensureDirectory d₂ p)
      · exact hfirst

theorem createDirectories (h : d.createDirectories p = .ok d') : Grown d d' := by
  have hchain := createChain (ancestors (p.text.length + 1) p) d
  unfold Disk.createDirectories at h
  split at h
  · next d₁ heq =>
    rw [heq] at hchain
    rw [← Except.ok.inj h]
    exact hchain
  · cases h

theorem straight (h : Grown d d') (hd : Straight d p top) : Straight d' p top := by
  have hlink : ∀ s target, d'.entryAt? s = some (.link target) → d.entryAt? s = some (.link target) := by
    intro s target hs
    rcases h.entries s with heq | ⟨-, hdir⟩
    · rwa [heq] at hs
    · rw [hdir] at hs
      cases hs
  exact ⟨hd.absolute, hd.spelled, hd.down,
    fun s hs target heq => hd.unlinked s hs target (hlink s target heq),
    fun name target heq => hd.plain name target (hlink _ target heq)⟩

end Grown

end SymbolIndex.Disk
