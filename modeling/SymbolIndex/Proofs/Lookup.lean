import SymbolIndex.Disk.Change
import SymbolIndex.Proofs.FileTable

/-!
# Looking into a directory

A path may lead anywhere through symbolic links. `Leads` says that one leads to a directory in which
there is no link: a path into the directory then leads to the entry it names, and one that is refused
is refused whatever the directory holds. The way goes through directories and links only, so it
stays while these stay, whatever happens to files. `Founded` is the case of a way without links.
-/

namespace SymbolIndex

open List

namespace Path

theorem segments_append_slash (xs ys : List Char) :
    segments (xs ++ '/' :: ys) = segments xs ++ segments ys := by
  induction xs with
  | nil => simp [segments]
  | cons c xs ih =>
    rw [cons_append, segments, segments, ih]
    split
    · rfl
    · cases hxs : segments xs with
      | nil =>
        have hne : ∀ cs : List Char, segments cs ≠ [] := by
          intro cs
          cases cs with
          | nil => simp [segments]
          | cons =>
            rw [segments]
            split
            · simp
            · split <;> simp
        exact absurd hxs (hne xs)
      | cons => rfl

theorem segments_of_no_slash {cs : List Char} (h : '/' ∉ cs) : segments cs = [cs] := by
  induction cs with
  | nil => rfl
  | cons _ _ ih =>
    rw [mem_cons, not_or] at h
    rw [segments, if_neg (fun heq => h.1 heq.symm), ih h.2]

theorem isAbsolute_child {p : Path} (h : p.isAbsolute = true) (text : String) :
    (p.child text).isAbsolute = true := by
  unfold child join
  split
  · assumption
  · unfold isAbsolute at h ⊢
    cases htext : p.text.toList with
    | nil => simp [htext] at h
    | cons =>
      rw [htext] at h
      split
      · next hlast => simp at hlast
      · simpa [htext] using h
      · simpa [htext] using h

theorem text_join_append {p q q' : Path} {tail : String} (hq : q'.text = q.text ++ tail)
    (htail : q.text = "" → tail.toList.head? ≠ some '/') :
    (p.join q').text = (p.join q).text ++ tail := by
  have habsolute : q'.isAbsolute = q.isAbsolute := by
    unfold isAbsolute
    rw [hq, String.toList_append]
    cases htext : q.text.toList with
    | nil => simpa using htail (String.toList_eq_nil_iff.mp htext)
    | cons => rfl
  unfold join
  rw [habsolute]
  split
  · exact hq
  · split <;> simp [hq, String.append_assoc]

end Path

namespace Disk

variable {p : Path} {name : String} {d : Disk} {s : Spot}

/-! ## Names -/

/-- A name that an entry of a directory can have. -/
structure IsName (name : String) : Prop where
  nonempty : name ≠ ""
  current : name ≠ "."
  above : name ≠ ".."
  slash : '/' ∉ name.toList

/-- The names in a path. -/
def names (segments : List String) : List String := segments.filter (fun s => s ≠ "" ∧ s ≠ ".")

theorem names_cons (segment : String) (rest : List String) : names (segment :: rest)
    = if segment = "" ∨ segment = "." then names rest else segment :: names rest := by
  unfold names
  rw [filter_cons]
  by_cases hempty : segment = "" <;> simp [hempty]

theorem child_text (habs : p.isAbsolute = true) (h : IsName name) :
    ∃ xs, (p.text.toList = xs ∨ p.text.toList = xs ++ ['/'])
      ∧ (p.child name).text.toList = xs ++ '/' :: name.toList := by
  have hrelative : (Path.mk name).isAbsolute = false := by
    unfold Path.isAbsolute
    cases hname : name.toList with
    | nil => rfl
    | cons =>
      have hslash := h.slash
      rw [hname, mem_cons, not_or] at hslash
      simpa using fun heq => hslash.1 heq.symm
  unfold Path.child Path.join
  rw [hrelative]
  simp only [Bool.false_eq_true, if_false]
  split
  · next hlast =>
    rw [getLast?_eq_none_iff] at hlast
    simp [Path.isAbsolute, hlast] at habs
  · next hlast =>
    obtain ⟨xs, hxs⟩ := getLast?_eq_some_iff.mp hlast
    exact ⟨xs, .inr hxs, by simp [hxs]⟩
  · exact ⟨_, .inl rfl, by simp⟩

theorem segmentsOf_child (habs : p.isAbsolute = true) (h : IsName name) :
    (p.child name).isAbsolute = true ∧ ∃ front, segmentsOf (p.child name) = front ++ [name]
        ∧ (segmentsOf p = front ∨ segmentsOf p = front ++ [""]) := by
  obtain ⟨xs, hp, hchild⟩ := child_text habs h
  have hsegments : segmentsOf (p.child name) = (Path.segments xs).map String.ofList ++ [name] := by
    unfold segmentsOf
    rw [hchild, Path.segments_append_slash, Path.segments_of_no_slash h.slash, map_append]
    simp
  refine ⟨?_, _, hsegments, ?_⟩
  · unfold Path.isAbsolute at habs ⊢
    rw [hchild]
    rcases hp with hp | hp <;> rw [hp] at habs <;> cases xs <;> simp_all
  · unfold segmentsOf
    rcases hp with hp | hp
    · exact .inl (by rw [hp])
    · refine .inr ?_
      rw [hp, Path.segments_append_slash, map_append]
      rfl

/-! ## Paths that can be looked up -/

/-- A path that is looked up at all. -/
structure Routable (p : Path) : Prop where
  nul : '\x00' ∉ p.text.toList
  length : p.text.utf8ByteSize ≤ maxPath

theorem text_ne_empty (h : p.isAbsolute = true) : p.text ≠ "" := by
  intro htext
  simp [Path.isAbsolute, htext] at h

theorem route_absolute (d : Disk) (h : p.isAbsolute = true) :
    (Routable p ∧ d.route p = .ok (segmentsOf p))
      ∨ (¬ Routable p ∧ ∃ e, e ≠ .notFound ∧ ∀ d' : Disk, d'.route p = .error e) := by
  have hjoin : ∀ d' : Disk, d'.workingDirectory.join p = p := by
    intro d'
    unfold Path.join
    rw [h]
    rfl
  unfold route
  simp only [hjoin, if_neg (text_ne_empty h)]
  by_cases hnul : p.text.toList.contains '\x00' = true
  · refine .inr ⟨fun hr => hr.nul (by simpa using hnul), .nulInName, by simp, fun _ => ?_⟩
    rw [if_pos hnul]
  · by_cases hlong : p.text.utf8ByteSize > maxPath
    · refine .inr ⟨fun hr => absurd hr.length (by omega), .nameTooLong, by simp, fun _ => ?_⟩
      rw [if_neg hnul, if_pos hlong]
    · refine .inl ⟨⟨by simpa using hnul, by omega⟩, ?_⟩
      rw [if_neg hnul, if_neg hlong]

/-! ## Ways -/

/-- Where a walk has ended, or the directory of the link that it has met. -/
def Stop.spot : Stop → Spot
  | .reached spot => spot
  | .detour base _ _ => base

def Stop.goOn (d : Disk) (rest : List String) : Stop → Except DiskError Stop
  | .reached spot => d.walk true spot rest
  | .detour base target tail => .ok (.detour base target (tail ++ rest))

theorem walk_append (d : Disk) (here : Spot) (front rest : List String) :
    d.walk true here (front ++ rest) = d.walk true here front >>= Stop.goOn d rest := by
  induction front generalizing here with
  | nil => rfl
  | cons _ _ ih =>
    rw [cons_append, walk, walk]
    cases d.entryAt? here with
    | none => rfl
    | some e =>
      cases e with
      | file | link => rfl
      | directory =>
        simp only [ih, Bool.not_true, Bool.false_eq_true, and_false, if_false]
        repeat' split
        all_goals rfl

/-- How a way ends once a walk has: a link is followed while there are links left to follow. -/
def Stop.finish (d : Disk) (links : Nat) : Stop → Except DiskError Spot
  | .reached spot => .ok spot
  | .detour base target rest =>
    match links with
    | 0 => .error .tooManyLinks
    | links + 1 =>
      if target.text = "" then .error .notFound
      else
        d.walkThrough true links (if target.isAbsolute then [] else base) (segmentsOf target ++ rest)

theorem walkThrough_eq (d : Disk) (links : Nat) (here : Spot) (segments : List String) :
    d.walkThrough true links here segments = d.walk true here segments >>= Stop.finish d links := by
  cases links <;> (rw [walkThrough]; rfl)

theorem walkThrough_append (d : Disk) (links : Nat) (here : Spot) (front : List String) :
    ∃ left, ∀ rest, d.walkThrough true links here (front ++ rest)
      = d.walkThrough true links here front >>= fun spot => d.walkThrough true left spot rest := by
  induction links generalizing here front with
  | zero =>
    refine ⟨0, fun rest => ?_⟩
    rw [walkThrough_eq, walkThrough_eq, walk_append]
    cases d.walk true here front with
    | error => rfl
    | ok stop =>
      cases stop with
      | detour => rfl
      | reached spot => exact (d.walkThrough_eq 0 spot rest).symm
  | succ links ih =>
    simp only [walkThrough_eq d (links + 1) here, walk_append]
    cases d.walk true here front with
    | error => exact ⟨0, fun rest => rfl⟩
    | ok stop =>
      cases stop with
      | reached spot => exact ⟨links + 1, fun rest => (d.walkThrough_eq _ spot rest).symm⟩
      | detour base target tail =>
        obtain ⟨left, hleft⟩ := ih (if target.isAbsolute then [] else base) (segmentsOf target ++ tail)
        refine ⟨left, fun rest => ?_⟩
        show Stop.finish d (links + 1) (.detour base target (tail ++ rest))
          = Stop.finish d (links + 1) (.detour base target tail) >>= _
        unfold Stop.finish
        simp only [← append_assoc, hleft]
        split <;> rfl

/-! ## What a way depends on -/

def Passable : Option Entry → Prop
  | some .directory => True
  | some (.link _) => True
  | _ => False

/-- A spot below directories only. -/
def Standing (d : Disk) (s : Spot) : Prop := ∀ r, r <+: s → r ≠ s → d.entryAt? r = some .directory

/-- Directories and links stay, where directories lead to them. -/
def Keeps (d d' : Disk) : Prop :=
  ∀ s, Standing d s → Passable (d.entryAt? s) → d'.entryAt? s = d.entryAt? s

theorem standing_nil (d : Disk) : Standing d [] := fun _ hr hne => absurd (prefix_nil.mp hr) hne

theorem Standing.of_isPrefix {r : Spot} (h : Standing d s) (hr : r <+: s) : Standing d r := by
  intro q hq hne
  refine h q (hq.trans hr) (fun heq => hne ?_)
  subst heq
  exact hq.eq_of_length (Nat.le_antisymm hq.length_le hr.length_le)

theorem Standing.child (h : Standing d s) (hs : d.entryAt? s = some .directory) (name : String) :
    Standing d (s ++ [name]) := by
  intro r hr hne
  have hrs : r <+: s := (prefix_concat_iff.mp hr).resolve_left hne
  by_cases heq : r = s
  · rw [heq, hs]
  · exact h r hrs heq

/-- Links are followed alike where walks between them go alike. -/
theorem walkThrough_of_walk {d' : Disk} {P Q : Spot → Prop} (hroot : P [])
    (hwalk : ∀ {here segments stop}, P here → d.walk true here segments = .ok stop →
      (∀ spot, stop = .reached spot → Q spot) → d'.walk true here segments = .ok stop ∧ P stop.spot)
    (links : Nat) {here top : Spot} {segments : List String} (hhere : P here)
    (hway : d.walkThrough true links here segments = .ok top) (htop : Q top) :
    d'.walkThrough true links here segments = .ok top ∧ P top := by
  have hreached : ∀ links here segments, P here →
      d.walk true here segments = .ok (.reached top) →
      d'.walkThrough true links here segments = .ok top ∧ P top := by
    intro links here segments hhere hlast
    obtain ⟨hsame, hspot⟩ := hwalk hhere hlast (fun s heq => Stop.reached.inj heq ▸ htop)
    exact ⟨by rw [walkThrough_eq, hsame]; rfl, hspot⟩
  induction links generalizing here segments with
  | zero =>
    rw [walkThrough_eq] at hway
    obtain ⟨stop, hstop, hfinish⟩ := bind_eq_ok_iff.mp hway
    cases stop with
    | detour => simp [Stop.finish] at hfinish
    | reached =>
      cases hfinish
      exact hreached _ _ _ hhere hstop
  | succ links ih =>
    rw [walkThrough_eq] at hway
    obtain ⟨stop, hstop, hfinish⟩ := bind_eq_ok_iff.mp hway
    cases stop with
    | reached =>
      cases hfinish
      exact hreached _ _ _ hhere hstop
    | detour base target rest =>
      obtain ⟨hsame, hbase⟩ := hwalk hhere hstop (fun _ heq => by cases heq)
      rw [walkThrough_eq, hsame]
      show Stop.finish d' (links + 1) (.detour base target rest) = _ ∧ _
      unfold Stop.finish at hfinish ⊢
      simp only at hfinish ⊢
      split at hfinish
      · cases hfinish
      · next htarget =>
        rw [if_neg htarget]
        refine ih ?_ hfinish
        split
        · exact hroot
        · exact hbase

namespace Keeps

variable {d d' d'' : Disk} {segments : List String} {here : Spot}

theorem refl (d : Disk) : Keeps d d := fun _ _ _ => rfl

theorem directory (h : Keeps d d') (hs : Standing d s) (hd : d.entryAt? s = some .directory) :
    d'.entryAt? s = some .directory := by
  rw [h s hs (by rw [hd]; trivial), hd]

theorem trans (h : Keeps d d') (h' : Keeps d' d'') : Keeps d d'' := by
  intro s hs hpass
  have hs' : Standing d' s := fun r hr hne =>
    h.directory (hs.of_isPrefix hr) (hs r hr hne)
  rw [h' s hs' (by rw [h s hs hpass]; exact hpass), h s hs hpass]

/-- A walk that comes to a directory or to a link goes the same way while these stay. -/
theorem walk (h : Keeps d d') (hs : Standing d here) {stop : Stop}
    (hwalk : d.walk true here segments = .ok stop)
    (hend : ∀ spot, stop = .reached spot → d.entryAt? spot = some .directory) :
    d'.walk true here segments = .ok stop ∧ Standing d stop.spot := by
  induction segments generalizing here with
  | nil =>
    cases hwalk
    exact ⟨rfl, hs⟩
  | cons segment rest ih =>
    rw [Disk.walk] at hwalk ⊢
    cases hhere : d.entryAt? here with
    | none => simp [hhere] at hwalk
    | some e =>
      cases e with
      | file | link => simp [hhere] at hwalk
      | directory =>
        rw [h.directory hs hhere]
        simp only [hhere] at hwalk ⊢
        split at hwalk
        · next hskip =>
          rw [if_pos hskip]
          exact ih hs hwalk
        · next hskip =>
          rw [if_neg hskip]
          split at hwalk
          · next hup =>
            rw [if_pos hup]
            exact ih (hs.of_isPrefix (List.dropLast_prefix here)) hwalk
          · next hup =>
            rw [if_neg hup]
            split at hwalk
            · cases hwalk
            · next hshort =>
              rw [if_neg hshort]
              have hnext := hs.child hhere segment
              split at hwalk
              · cases hwalk
              · next target hlink =>
                rw [h _ hnext (by rw [hlink]; trivial), hlink]
                simp only [Bool.not_true, Bool.false_eq_true, and_false, if_false] at hwalk ⊢
                cases hwalk
                exact ⟨rfl, hs⟩
              · next e hlink he =>
                have hdir : d.entryAt? (here ++ [segment]) = some .directory := by
                  cases e with
                  | directory => exact he
                  | link target => exact absurd rfl (hlink target)
                  | file =>
                    -- a walk that comes to a file has ended there
                    cases rest with
                    | nil => exact hend _ (Except.ok.inj hwalk).symm
                    | cons => simp [Disk.walk, he] at hwalk
                rw [h.directory hnext hdir]
                exact ih hnext hwalk

theorem walkThrough (h : Keeps d d') (links : Nat) {top : Spot} (hs : Standing d here)
    (hway : d.walkThrough true links here segments = .ok top)
    (htop : d.entryAt? top = some .directory) :
    d'.walkThrough true links here segments = .ok top ∧ Standing d top :=
  walkThrough_of_walk (standing_nil d) (fun hs hwalk => h.walk hs hwalk) links hs hway htop

end Keeps

/-! ## The way to a directory -/

/-- A path leads to a directory, maybe by links, with none in it. -/
structure Leads (d : Disk) (p : Path) (top : Spot) : Prop where
  absolute : p.isAbsolute = true
  resolves : d.resolve true p = .ok top
  directory : d.entryAt? top = some .directory
  plain : ∀ name target, d.entryAt? (top ++ [name]) ≠ some (.link target)

/-- A path leads to a directory by its names alone. -/
structure Founded (d : Disk) (p : Path) (top : Spot) : Prop where
  absolute : p.isAbsolute = true
  routable : Routable p
  spelled : names (segmentsOf p) = top
  down : ".." ∉ segmentsOf p
  directory : ∀ s, s <+: top → d.entryAt? s = some .directory
  short : ∀ name ∈ top, name.utf8ByteSize ≤ maxName
  plain : ∀ name target, d.entryAt? (top ++ [name]) ≠ some (.link target)

theorem walk_of_directories {segments : List String} (here : Spot) (hdown : ".." ∉ segments)
    (hdirectory : ∀ s, s <+: names segments → d.entryAt? (here ++ s) = some .directory)
    (hshort : ∀ name ∈ names segments, name.utf8ByteSize ≤ maxName) :
    d.walk true here segments = .ok (.reached (here ++ names segments)) := by
  induction segments generalizing here with
  | nil => simp [names, walk]
  | cons segment rest ih =>
    have hhere : d.entryAt? here = some .directory := by
      have := hdirectory [] nil_prefix
      rwa [append_nil] at this
    rw [mem_cons, not_or] at hdown
    rw [walk, hhere]
    simp only
    by_cases hskip : segment = "" ∨ segment = "."
    · rw [names_cons, if_pos hskip] at hdirectory hshort ⊢
      rw [if_pos hskip, ih here hdown.2 hdirectory hshort]
    · rw [names_cons, if_neg hskip] at hdirectory hshort ⊢
      have hassoc : ∀ s, here ++ [segment] ++ s = here ++ segment :: s := by simp
      have hnext : d.entryAt? (here ++ [segment]) = some .directory :=
        hdirectory [segment] (by simp)
      rw [if_neg hskip, if_neg (fun h => hdown.1 h.symm),
        if_neg (Nat.not_lt.mpr (hshort segment (mem_cons_self ..))), hnext]
      simp only
      rw [ih (here ++ [segment]) hdown.2 ?_ (fun n hn => hshort n (mem_cons_of_mem _ hn)), hassoc]
      intro s hs
      rw [hassoc]
      exact hdirectory _ (cons_prefix_cons.mpr ⟨rfl, hs⟩)

theorem Founded.leads {top : Spot} (h : Founded d p top) : Leads d p top where
  absolute := h.absolute
  resolves := by
    have hwalk : d.walk true [] (segmentsOf p) = .ok (.reached top) := by
      have := walk_of_directories (d := d) [] h.down (by rw [h.spelled]; exact h.directory)
        (by rw [h.spelled]; exact h.short)
      rwa [h.spelled] at this
    rcases route_absolute d h.absolute with ⟨-, hroute⟩ | ⟨hnot, -⟩
    · unfold resolve
      rw [hroute]
      show d.walkThrough true maxLinks [] (segmentsOf p) = _
      rw [walkThrough_eq, hwalk]
      rfl
    · exact absurd h.routable hnot
  directory := h.directory top (prefix_refl top)
  plain := h.plain

/-! ## Looking into a directory -/

/-- A name that can be looked up in a directory. -/
structure Reachable (p : Path) (name : String) : Prop where
  routable : Routable (p.child name)
  short : name.utf8ByteSize ≤ maxName

namespace Leads

variable {d d' : Disk} {p : Path} {top : Spot} {name : String}

theorem way (h : Leads d p top) :
    d.route p = .ok (segmentsOf p) ∧ d.walkThrough true maxLinks [] (segmentsOf p) = .ok top := by
  obtain ⟨segments, hp, hway⟩ := bind_eq_ok_iff.mp h.resolves
  rcases route_absolute d h.absolute with ⟨-, hroute⟩ | ⟨-, e, -, herror⟩
  · cases hroute.symm.trans hp
    exact ⟨hroute, hway⟩
  · rw [herror] at hp
    cases hp

theorem isDirectory (h : Leads d p top) : d.isDirectory p = true := by
  unfold Disk.isDirectory stat
  rw [h.resolves]
  simp [bind, Except.bind, h.directory, pure, Except.pure]

theorem keeps (h : Leads d p top) (hkeeps : Keeps d d')
    (hplain : ∀ name target, d'.entryAt? (top ++ [name]) ≠ some (.link target)) :
    Leads d' p top := by
  obtain ⟨hroute, hway⟩ := h.way
  obtain ⟨hway', hstanding⟩ := hkeeps.walkThrough maxLinks (standing_nil d) hway h.directory
  refine ⟨h.absolute, ?_, hkeeps.directory hstanding h.directory, hplain⟩
  have hroute' : d'.route p = .ok (segmentsOf p) := by
    rcases route_absolute d' h.absolute with ⟨-, hroute'⟩ | ⟨-, e, -, herror⟩
    · exact hroute'
    · rw [herror] at hroute
      cases hroute
  unfold resolve
  rw [hroute']
  exact hway'

section

variable (h : Leads d p top) (hname : IsName name)

include h hname

/-- A path into the directory goes along the way to it and then to the name. -/
theorem route_child (hroutable : Routable (p.child name)) :
    ∃ front left, d.route (p.child name) = .ok (front ++ [name])
      ∧ d.walkThrough true maxLinks [] front = .ok top
      ∧ d.walkThrough true maxLinks [] (front ++ [name]) = d.walkThrough true left top [name] := by
  obtain ⟨habs, front, hsegments, hfront⟩ := segmentsOf_child h.absolute hname
  have hroute : d.route (p.child name) = .ok (front ++ [name]) := by
    rcases route_absolute d habs with ⟨-, hroute⟩ | ⟨hnot, -⟩
    · rw [hroute, hsegments]
    · exact absurd hroutable hnot
  obtain ⟨left, hleft⟩ := d.walkThrough_append maxLinks [] front
  have hway := h.way.2
  have htop : d.walkThrough true maxLinks [] front = .ok top := by
    rcases hfront with hfront | hfront
    · rwa [hfront] at hway
    · -- behind a slash at the end of a path is the same directory
      rw [hfront, hleft] at hway
      obtain ⟨spot, hspot, hway⟩ := bind_eq_ok_iff.mp hway
      rw [walkThrough_eq, walk] at hway
      cases hentry : d.entryAt? spot with
      | none => simp [hentry, bind, Except.bind] at hway
      | some e =>
        cases e with
        | file | link => simp [hentry, bind, Except.bind] at hway
        | directory =>
          simp only [hentry, true_or, if_true, walk] at hway
          obtain rfl : spot = top := Except.ok.inj hway
          exact hspot
  refine ⟨front, left, hroute, htop, ?_⟩
  rw [hleft, htop]
  rfl

theorem lastStepFrom_child {front : List String}
    (hfront : d.walkThrough true maxLinks [] front = .ok top) :
    d.lastStepFrom [] (front ++ [name]) = if name.utf8ByteSize > maxName then .error .nameTooLong
        else .ok { directory := top, name, slashes := false } := by
  have hsteps : (front ++ [name]).reverse.dropWhile (· = "") = name :: front.reverse := by
    simp [hname.nonempty]
  unfold lastStepFrom
  simp only [bind, Except.bind, hsteps, tail_cons, reverse_reverse, hfront,
    head?_cons, Option.getD_some, h.directory]
  split
  · rfl
  · simp [pure, Except.pure, hname.nonempty]

theorem lastStep_child (hroutable : Routable (p.child name)) :
    d.lastStep (p.child name) = if name.utf8ByteSize > maxName then .error .nameTooLong
      else .ok { directory := top, name, slashes := false } := by
  obtain ⟨front, -, hroute, hfront, -⟩ := h.route_child hname hroutable
  unfold lastStep
  rw [hroute]
  exact h.lastStepFrom_child hname hfront

theorem resolve_child (hroutable : Routable (p.child name)) :
    d.resolve true (p.child name) = if name.utf8ByteSize > maxName then .error .nameTooLong
        else if (d.entryAt? (top ++ [name])).isSome then .ok (top ++ [name])
        else .error .notFound := by
  obtain ⟨front, left, hroute, -, hway⟩ := h.route_child hname hroutable
  unfold resolve
  rw [hroute]
  show d.walkThrough true maxLinks [] (front ++ [name]) = _
  rw [hway, walkThrough_eq, walk, h.directory]
  simp only [if_neg (not_or.mpr ⟨hname.nonempty, hname.current⟩), if_neg hname.above]
  split
  · rfl
  · cases hentry : d.entryAt? (top ++ [name]) with
    | none => rfl
    | some e =>
      cases e with
      | link target => exact absurd hentry (h.plain name target)
      | file | directory => rfl

theorem stat_child (hreach : Reachable p name) :
    d.stat (p.child name) = match d.entryAt? (top ++ [name]) with
      | some e => .ok e
      | none => .error .notFound := by
  unfold stat
  rw [h.resolve_child hname hreach.routable, if_neg (Nat.not_lt.mpr hreach.short)]
  cases hentry : d.entryAt? (top ++ [name]) with
  | none => rfl
  | some => simp [hentry, bind, Except.bind, pure, Except.pure]

/-- A path that cannot be looked up is refused in the same way whatever is in the directory, and
not as missing. -/
theorem unreachable (hnot : ¬ Reachable p name) :
    ∃ e, e ≠ DiskError.notFound ∧ ∀ d', Leads d' p top →
      d'.stat (p.child name) = .error e ∧ d'.resolve true (p.child name) = .error e
        ∧ d'.lastStep (p.child name) = .error e := by
  have hstat : ∀ {d' : Disk} {e : DiskError}, d'.resolve true (p.child name) = .error e →
      d'.stat (p.child name) = .error e := by
    intro d' e hresolve
    unfold stat
    rw [hresolve]
    rfl
  obtain ⟨habs, -⟩ := segmentsOf_child h.absolute hname
  rcases route_absolute d habs with ⟨hroutable, -⟩ | ⟨-, e, hne, hroute⟩
  · have hlong : name.utf8ByteSize > maxName :=
      Nat.lt_of_not_ge (fun hshort => hnot ⟨hroutable, hshort⟩)
    refine ⟨.nameTooLong, by simp, fun d' h' => ?_⟩
    have hresolve := h'.resolve_child hname hroutable
    have hstep := h'.lastStep_child hname hroutable
    rw [if_pos hlong] at hresolve hstep
    exact ⟨hstat hresolve, hresolve, hstep⟩
  · refine ⟨e, hne, fun d' _ => ?_⟩
    have hresolve : d'.resolve true (p.child name) = .error e := by
      unfold resolve
      rw [hroute d']
      rfl
    refine ⟨hstat hresolve, hresolve, ?_⟩
    unfold lastStep
    rw [hroute d']
    rfl

end

theorem read_congr (h : Leads d p top) (h' : Leads d' p top) (hname : IsName name)
    (hentry : d'.entryAt? (top ++ [name]) = d.entryAt? (top ++ [name])) :
    d'.read (p.child name) = d.read (p.child name) := by
  unfold Disk.read
  by_cases hreach : Reachable p name
  · rw [h.stat_child hname hreach, h'.stat_child hname hreach, hentry]
  · obtain ⟨e, -, herror⟩ := h.unreachable hname hreach
    rw [(herror d h).1, (herror d' h').1]

end Leads

end Disk

end SymbolIndex
