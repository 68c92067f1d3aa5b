import SymbolIndex.Database
import SymbolIndex.Proofs.Directory

/-!
# What a store keeps

A value that is written under a key is read back under it, and what is read under other keys stays
the same. For a volume in memory that is plain. A directory keeps each value in a file of its own,
which is written under another name first: the names of values and of drafts do not meet, and no
symbolic link is on the way.

The keys of an index are plain: they are their own file names. The keys of the symbols of a file
are not, and their names never collide with those of plain keys, whatever the digest.
-/

namespace SymbolIndex

open List String

namespace Store

variable {value : ByteArray}

/-! ## File names -/

/-- A key of letters and digits. -/
abbrev Plain (key : String) : Prop := key.toList.all isAlphanumeric = true

variable {key k : String} {d d' : Disk} {root : Path} {top : Spot} {b : Backend}
  {changed : String → Prop}

theorem toList_fileNameFor_of_plain (h : Plain key) :
    (fileNameFor key).toList = key.toList ++ ".json".toList := by
  unfold fileNameFor
  rw [if_pos h, toList_append]

theorem not_mem_of_plain (h : Plain key) {c : Char} (hc : isAlphanumeric c = false) :
    c ∉ key.toList := by
  intro hmem
  have := all_eq_true.mp h c hmem
  simp [hc] at this

theorem slash_not_mem_hex (bytes : List UInt8) : '/' ∉ (Text.hex bytes).toList := by
  unfold Text.hex
  have hdigit : ∀ n < 16, Text.hexDigitOf n ≠ '/' := by decide
  rw [toList_ofList]
  intro hmem
  obtain ⟨b, -, hb⟩ := mem_flatMap.mp hmem
  have hlt := b.toNat_lt
  simp only [mem_cons, not_mem_nil, or_false] at hb
  rcases hb with hb | hb
  · exact hdigit _ (by omega) hb.symm
  · exact hdigit _ (by omega) hb.symm

/-- Every name of a value ends in the extension, and a dash tells those of keys that are not
plain. -/
theorem toList_fileNameFor (key : String) :
    ∃ xs, (fileNameFor key).toList = xs ++ ".json".toList ∧ '/' ∉ xs
      ∧ (¬ Plain key → '-' ∈ xs) := by
  by_cases hplain : Plain key
  · exact ⟨key.toList, toList_fileNameFor_of_plain hplain, not_mem_of_plain hplain (by decide),
      fun hnot => absurd hplain hnot⟩
  · unfold fileNameFor
    rw [if_neg hplain]
    refine ⟨_, toList_append, ?_, fun _ => by simp⟩
    have halnum : isAlphanumeric '/' = false := by decide
    simp [slash_not_mem_hex, Digest.sha256Hex, halnum]

theorem isName_fileNameFor (key : String) : Disk.IsName (fileNameFor key) := by
  obtain ⟨xs, hxs, hslash, -⟩ := toList_fileNameFor key
  have hne : ∀ name : String, name.toList.length < 5 → fileNameFor key ≠ name := by
    intro name hlt heq
    have hlength := congrArg (fun s => s.toList.length) heq
    simp only [hxs, List.length_append] at hlength
    have hjson : ".json".toList.length = 5 := by decide
    omega
  refine ⟨hne _ (by decide), hne _ (by decide), hne _ (by decide), ?_⟩
  rw [hxs, mem_append, not_or]
  exact ⟨hslash, by decide⟩

theorem getLast?_fileNameFor (key : String) : (fileNameFor key).toList.getLast? = some 'n' := by
  obtain ⟨xs, hxs, -⟩ := toList_fileNameFor key
  rw [hxs, getLast?_append]
  rfl

theorem fileNameFor_ne (hk : Plain k) (hne : k ≠ key) : fileNameFor k ≠ fileNameFor key := by
  intro heq
  have hlist := congrArg String.toList heq
  rw [toList_fileNameFor_of_plain hk] at hlist
  by_cases hkey : Plain key
  · rw [toList_fileNameFor_of_plain hkey] at hlist
    exact hne (toList_inj.mp (append_cancel_right hlist))
  · obtain ⟨xs, hxs, -, hdash⟩ := toList_fileNameFor key
    rw [hxs] at hlist
    exact not_mem_of_plain hk (by decide) (append_cancel_right hlist ▸ hdash hkey)

/-- The names of values have the extension of values; the empty key, which no index uses, apart. -/
theorem extension?_fileNameFor (h : key ≠ "") :
    (Path.mk (fileNameFor key)).extension? = some "json" := by
  obtain ⟨xs, hxs, hslash, hdash⟩ := toList_fileNameFor key
  have hne : xs ≠ [] := by
    rintro rfl
    by_cases hplain : Plain key
    · rw [toList_fileNameFor_of_plain hplain] at hxs
      have hnil : key.toList = [] := append_cancel_right hxs
      exact h (toList_inj.mp (by rw [hnil]; rfl))
    · cases hdash hplain
  have hname := isName_fileNameFor key
  have hno : '/' ∉ (fileNameFor key).toList := hname.slash
  have hcomponents : (Path.mk (fileNameFor key)).components = [.name (fileNameFor key)] := by
    have hrelative : (Path.mk (fileNameFor key)).isAbsolute = false := by
      unfold Path.isAbsolute
      cases hlist : (fileNameFor key).toList with
      | nil => rfl
      | cons =>
        rw [hlist, mem_cons, not_or] at hno
        simpa using fun heq => hno.1 heq.symm
    have hempty : (fileNameFor key).toList ≠ [] :=
      fun heq => hname.nonempty (toList_inj.mp heq)
    have hcurrent : (fileNameFor key).toList ≠ ['.'] :=
      fun heq => hname.current (toList_inj.mp heq)
    have habove : (fileNameFor key).toList ≠ ['.', '.'] :=
      fun heq => hname.above (toList_inj.mp heq)
    have hcomponent : Path.component? (fileNameFor key).toList = some (.name (fileNameFor key)) := by
      unfold Path.component?
      rw [if_neg hempty, if_neg hcurrent, if_neg habove, String.ofList_toList]
    unfold Path.components
    rw [Path.segments_of_no_slash hno]
    simp [hrelative, hcurrent, hcomponent]
  have hsplit : Path.splitName (xs ++ ".json".toList) = (xs, some "json".toList) := by
    have hrev : (xs ++ ".json".toList).reverse = "nosj".toList ++ '.' :: xs.reverse := by simp
    have htake : ("nosj".toList ++ '.' :: xs.reverse).takeWhile (· ≠ '.') = "nosj".toList := by simp
    have hdrop : ("nosj".toList ++ '.' :: xs.reverse).dropWhile (· ≠ '.') = '.' :: xs.reverse := by
      simp
    unfold Path.splitName
    rw [hrev, htake, hdrop, drop_one, tail_cons]
    cases hreverse : xs.reverse with
    | nil => exact absurd (reverse_eq_nil_iff.mp hreverse) hne
    | cons => simp [← hreverse]
  unfold Path.extension? Path.fileName?
  simp only [hcomponents, getLast?_singleton, Option.bind_some, hxs, hsplit, Option.map_some]
  rfl

def draftName (n : Nat) : String := ".tmp" ++ Disk.temporaryMark n ++ ""

theorem toList_draftName (n : Nat) :
    ∃ front digit, (draftName n).toList = '.' :: 't' :: 'm' :: 'p' :: front ++ [digit]
      ∧ digit.isDigit = true ∧ '/' ∉ front := by
  have hdigits : ∀ c ∈ (Disk.temporaryMark n).toList, c.isDigit = true := by
    intro c hc
    unfold Disk.temporaryMark at hc
    rw [toList_ofList] at hc
    rcases mem_append.mp hc with hc | hc
    · rw [eq_of_mem_replicate hc]
      decide
    · exact Nat.isDigit_of_mem_toDigits (by omega) (by omega) hc
  have hne : (Disk.temporaryMark n).toList ≠ [] := by
    unfold Disk.temporaryMark
    rw [toList_ofList]
    simp [Nat.toDigits_ne_nil]
  refine ⟨(Disk.temporaryMark n).toList.dropLast, _, ?_, hdigits _ (getLast_mem hne), ?_⟩
  · unfold draftName
    rw [append_empty, toList_append]
    show '.' :: 't' :: 'm' :: 'p' :: _ = _
    simp [dropLast_concat_getLast]
  · intro hmem
    cases hdigits _ (dropLast_subset _ hmem)

theorem isName_draftName (n : Nat) : Disk.IsName (draftName n) := by
  obtain ⟨front, digit, hlist, hdigit, hslash⟩ := toList_draftName n
  have hne : ∀ name : String, name.toList.length < 5 → draftName n ≠ name := by
    intro name hlt heq
    have hlength := congrArg (fun s => s.toList.length) heq
    simp only [hlist, List.length_append, List.length_cons] at hlength
    omega
  refine ⟨hne _ (by decide), hne _ (by decide), hne _ (by decide), ?_⟩
  rw [hlist]
  have hdigit' : '/' ≠ digit := by
    rintro rfl
    cases hdigit
  simp [hslash, hdigit']

theorem draftName_ne (n : Nat) (key : String) : draftName n ≠ fileNameFor key := by
  intro heq
  obtain ⟨front, digit, hlist, hdigit, -⟩ := toList_draftName n
  have hlast := getLast?_fileNameFor key
  rw [← heq, hlist, getLast?_append] at hlast
  obtain rfl : digit = 'n' := by simpa using hlast
  cases hdigit

/-! ## Values in a directory -/

def Involves (key name : String) : Prop := name = fileNameFor key ∨ ∃ n, name = draftName n

/-- **A value is put in place, and nothing else changes but drafts.** -/
theorem replaceFile_spec (h : Disk.Leads d root top)
    (hreplace : replaceFile d root (valuePath root key) value = .ok d') :
    Disk.Touches top (Involves key) d d' ∧ d'.read (valuePath root key) = .ok value
      ∧ ∃ modified executable, d'.entryAt? (top ++ [fileNameFor key])
        = some (.file value modified executable) := by
  unfold replaceFile at hreplace
  obtain ⟨⟨draft, d₁⟩, htemporary, hreplace⟩ := bind_eq_ok_iff.mp hreplace
  obtain ⟨d₂, hwrite, hrename⟩ := bind_eq_ok_iff.mp hreplace
  have hjoin : d.workingDirectory.join root = root := by
    unfold Path.join
    rw [h.absolute]
    rfl
  unfold Disk.createTemporary at htemporary
  obtain ⟨d₀, hdraft, hpair⟩ := bind_eq_ok_iff.mp htemporary
  cases hpair
  rw [hjoin] at hdraft hwrite hrename
  have hnumbered : Disk.Touches top (Involves key) d { d with temporaries := d.temporaries + 1 } :=
    ⟨rfl, fun _ _ _ => rfl, fun _ _ => rfl, fun hplain => hplain⟩
  have hname := isName_draftName d.temporaries
  have hsub : ∀ name, name = draftName d.temporaries → Involves key name :=
    fun name hname => .inr ⟨_, hname⟩
  obtain ⟨htouch₀, -⟩ := (hnumbered.leads h).write_child hname hdraft
  have hstart := hnumbered.trans (htouch₀.mono hsub)
  obtain ⟨htouch₂, modified, executable, hentry⟩ := (hstart.leads h).write_child hname hwrite
  have hwritten := hstart.trans (htouch₂.mono hsub)
  obtain ⟨htouch, hreach, hvalue⟩ := (hwritten.leads h).rename_child hname
    (isName_fileNameFor key) (draftName_ne _ key) hentry hrename
  have hall := hwritten.trans (htouch.mono fun name hname => hname.elim (hsub name) .inl)
  refine ⟨hall, ?_, modified, executable, hvalue⟩
  unfold Disk.read valuePath
  rw [(hall.leads h).stat_child (isName_fileNameFor key) hreach, hvalue]
  rfl

seal valuePath Disk.removeFile in
theorem removeFiles_cons (root : Path) (d : Disk) (removed : Nat) (key : String)
    (rest : List String) :
    removeFiles root d removed (key :: rest) = match d.removeFile (valuePath root key) with
      | .ok d => removeFiles root d (removed + 1) rest
      | .error .notFound => removeFiles root d removed rest
      | .error e => (d, .error e) := rfl

theorem touches_removeFiles (keys : List String) (h : Disk.Leads d root top) (removed : Nat) :
    Disk.Touches top (fun name => ∃ key ∈ keys, name = fileNameFor key) d
      (removeFiles root d removed keys).1 := by
  induction keys generalizing d removed with
  | nil => exact .refl top _ d
  | cons key rest ih =>
    have hrest : ∀ {d₁ : Disk} (n : Nat), Disk.Leads d₁ root top →
        Disk.Touches top (fun name => ∃ k ∈ key :: rest, name = fileNameFor k) d₁
          (removeFiles root d₁ n rest).1 := by
      intro d₁ n hd₁
      exact (ih hd₁ n).mono fun name ⟨k, hk, hname⟩ => ⟨k, mem_cons_of_mem _ hk, hname⟩
    rw [removeFiles_cons]
    split
    · next d₁ hremove =>
      obtain ⟨htouch, -⟩ := h.removeFile_child (isName_fileNameFor key) hremove
      refine .trans (htouch.mono fun name hname => ?_) (hrest _ (htouch.leads h))
      exact ⟨key, mem_cons_self .., hname⟩
    · exact hrest _ h
    · exact .refl top _ d

section

variable (h : Disk.Leads d root top)

include h

theorem entryAt?_of_read (hread : d.read (valuePath root key) = .ok value) :
    ∃ modified executable, d.entryAt? (top ++ [fileNameFor key])
      = some (.file value modified executable) := by
  have hname := isName_fileNameFor key
  unfold Disk.read valuePath at hread
  by_cases hreach : Disk.Reachable root (fileNameFor key)
  · rw [h.stat_child hname hreach] at hread
    cases hentry : d.entryAt? (top ++ [fileNameFor key]) with
    | none => simp [hentry, bind, Except.bind] at hread
    | some e =>
      cases e with
      | file _ modified executable =>
        simp only [hentry] at hread
        exact ⟨modified, executable, by rw [Except.ok.inj hread]⟩
      | directory | link => simp [hentry, bind, Except.bind] at hread
  · obtain ⟨e, -, herror⟩ := h.unreachable hname hreach
    rw [(herror d h).1] at hread
    simp [bind, Except.bind] at hread

theorem read_eq_notFound_iff (key : String) :
    d.read (valuePath root key) = .error .notFound
      ↔ Disk.Reachable root (fileNameFor key) ∧ d.entryAt? (top ++ [fileNameFor key]) = none := by
  have hname := isName_fileNameFor key
  unfold Disk.read valuePath
  by_cases hreach : Disk.Reachable root (fileNameFor key)
  · rw [h.stat_child hname hreach]
    cases hentry : d.entryAt? (top ++ [fileNameFor key]) with
    | none => exact ⟨fun _ => ⟨hreach, rfl⟩, fun _ => rfl⟩
    | some e => cases e <;> simp [bind, Except.bind, pure, Except.pure]
  · -- a name that is refused is refused for another reason
    obtain ⟨e, hne, herror⟩ := h.unreachable hname hreach
    rw [(herror d h).1]
    refine ⟨fun heq => absurd (Except.error.inj heq) hne, fun hmissing => absurd hmissing.1 hreach⟩

theorem read_of_removeFile_notFound (hremove : d.removeFile (valuePath root key) = .error .notFound)
    :
    d.read (valuePath root key) = .error .notFound := by
  have hname := isName_fileNameFor key
  rw [read_eq_notFound_iff h]
  unfold Disk.removeFile valuePath at hremove
  by_cases hreach : Disk.Reachable root (fileNameFor key)
  · refine ⟨hreach, ?_⟩
    rw [h.lastStep_child hname hreach.routable, if_neg (Nat.not_lt.mpr hreach.short)] at hremove
    cases hentry : d.entryAt? (top ++ [fileNameFor key]) with
    | none => rfl
    | some e =>
      cases e <;>
        simp [bind, Except.bind, Disk.LastStep.isSpecial, Disk.LastStep.spot, hname.nonempty,
          hname.current, hname.above, hentry, pure, Except.pure] at hremove
  · obtain ⟨e, hne, herror⟩ := h.unreachable hname hreach
    rw [(herror d h).2.2] at hremove
    exact absurd (Except.error.inj hremove) hne

theorem read_of_removeFile (hremove : d.removeFile (valuePath root key) = .ok d')
    (hk : k = key ∨ d.read (valuePath root k) = .error .notFound) :
    d'.read (valuePath root k) = .error .notFound := by
  have hname := isName_fileNameFor key
  obtain ⟨htouches, -, hgone⟩ := h.removeFile_child hname hremove
  have hreach : Disk.Reachable root (fileNameFor key) := by
    refine Classical.byContradiction (fun hnot => ?_)
    obtain ⟨e, -, herror⟩ := h.unreachable hname hnot
    unfold Disk.removeFile valuePath at hremove
    rw [(herror d h).2.2] at hremove
    simp [bind, Except.bind] at hremove
  rw [read_eq_notFound_iff (htouches.leads h)]
  rcases hk with rfl | hk
  · exact ⟨hreach, hgone⟩
  · obtain ⟨hreachk, hnone⟩ := (read_eq_notFound_iff h k).mp hk
    refine ⟨hreachk, ?_⟩
    by_cases hsame : fileNameFor k = fileNameFor key
    · rw [hsame]
      exact hgone
    · rw [htouches.beside _ hsame]
      exact hnone

end

theorem read_removeFiles {keys : List String} (h : Disk.Leads d root top) {removed n : Nat}
    (hremove : removeFiles root d removed keys = (d', .ok n))
    (hk : k ∈ keys ∨ d.read (valuePath root k) = .error .notFound) :
    d'.read (valuePath root k) = .error .notFound := by
  induction keys generalizing d removed with
  | nil =>
    cases hremove
    exact hk.resolve_left (by simp)
  | cons key _ ih =>
    rw [removeFiles_cons] at hremove
    rw [mem_cons] at hk
    split at hremove
    · next d₁ hone =>
      obtain ⟨htouches, -⟩ := h.removeFile_child (isName_fileNameFor key) hone
      refine ih (htouches.leads h) hremove ?_
      rcases hk with (rfl | hrest) | hgone
      · exact .inr (read_of_removeFile h hone (.inl rfl))
      · exact .inl hrest
      · exact .inr (read_of_removeFile h hone (.inr hgone))
    · next hone =>
      refine ih h hremove ?_
      rcases hk with (rfl | hrest) | hgone
      · exact .inr (read_of_removeFile_notFound h hone)
      · exact .inl hrest
      · exact .inr hgone
    · cases (Prod.mk.inj hremove).2

/-! ## Stores that can be opened again -/

/-- An open store to which a path leads, in a directory that is reached without links or in a
volume that there is. -/
inductive Serves (path : Path) (top : Spot) : Backend → Store → Storage → Prop where
  | directory {root : Path} {s : Storage} :
      (s.disk.absolute path).toOption.getD path = root → Disk.Founded s.disk root top →
      Serves path top .filesystem { path := root, place := .directory } s
  | volume {number : Nat} {s : Storage} :
      s.databases.get? path = some number → number < s.volumes.length →
      Serves path top .memory { path, place := .volume number } s

/-- A key that shares no file with one that is changed. -/
def Apart (b : Backend) (changed : String → Prop) (key : String) : Prop :=
  ∀ k, changed k → key ≠ k ∧ (b = .filesystem → fileNameFor key ≠ fileNameFor k)

/-- A store changes under certain keys only. -/
structure Changes (path : Path) (top : Spot) (b : Backend) (st : Store) (changed : String → Prop)
    (s s' : Storage) : Prop where
  serves : Serves path top b st s'
  others : ∀ key, Apart b changed key → st.read s' key = st.read s key

theorem apart_of_plain (hplain : Plain key) (hkey : ¬ changed key) : Apart b changed key := by
  intro k hk
  have hne : key ≠ k := fun heq => hkey (heq ▸ hk)
  exact ⟨hne, fun _ => fileNameFor_ne hplain hne⟩

theorem Apart.not_changed (h : Apart b changed key) : ¬ changed key := fun hk => (h key hk).1 rfl

section Laws

variable {path : Path} {top : Spot} {b : Backend} {st : Store} {s s' s'' : Storage}
  {changed changed' : String → Prop}

theorem Changes.refl (h : Serves path top b st s) : Changes path top b st changed s s :=
  ⟨h, fun _ _ => rfl⟩

theorem Changes.trans (h : Changes path top b st changed s s')
    (h' : Changes path top b st changed s' s'') : Changes path top b st changed s s'' :=
  ⟨h'.serves, fun key hkey => (h'.others key hkey).trans (h.others key hkey)⟩

theorem Changes.mono (h : Changes path top b st changed s s')
    (hsub : ∀ key, changed key → changed' key) : Changes path top b st changed' s s' :=
  ⟨h.serves, fun key hkey => h.others key (fun k hk => hkey k (hsub k hk))⟩

theorem Serves.opens (h : Serves path top b st s) :
    Store.open s b path .readWrite = .ok (st, s) := by
  cases h with
  | directory hroot hfounded =>
    subst hroot
    show openDirectory s path .readWrite = _
    delta openDirectory
    simp only [hfounded.leads.isDirectory, if_true]
  | volume hdb => simp [Store.open, openVolume, hdb]

variable {root : Path} {d' d : Disk} {key : String} {value : ByteArray}

theorem serves_of_touches {touched : String → Prop}
    (hroot : (s.disk.absolute path).toOption.getD path = root)
    (hfounded : Disk.Founded s.disk root top) (h : Disk.Touches top touched s.disk d')
    (hchanged : ∀ key, Apart .filesystem changed key → ¬ touched (fileNameFor key)) :
    Changes path top .filesystem { path := root, place := .directory } changed s
      { s with disk := d' } := by
  have hfounded' := h.founded hfounded
  refine ⟨.directory ?_ hfounded', fun key hkey => ?_⟩
  · unfold Disk.absolute at hroot ⊢
    rw [h.home]
    exact hroot
  · have hread := hfounded.leads.read_congr hfounded'.leads (isName_fileNameFor key)
      (h.beside _ (hchanged key hkey))
    unfold Store.read valuePath
    simp only [hread]

theorem volume_set {number : Nat} (h : number < s.volumes.length) (v : Volume) :
    volume { s with volumes := s.volumes.set number v } number = v := by
  unfold volume
  simp [h]

section

variable (h : Serves path top b st s)

include h

/-- **A value that is written is read back, and other values stay.** -/
theorem Serves.write (hwrite : st.write s key value = .ok s') :
    Changes path top b st (fun k => k = key) s s' ∧ st.read s' key = .ok (some value) := by
  cases h with
  | directory hroot hfounded =>
    unfold Store.write at hwrite
    simp only [Bool.false_eq_true, if_false] at hwrite
    split at hwrite
    · next d' hreplace =>
      cases hwrite
      obtain ⟨htouches, hread, -⟩ := replaceFile_spec hfounded.leads hreplace
      refine ⟨serves_of_touches hroot hfounded htouches (fun k hk => ?_), ?_⟩
      · rintro (heq | ⟨n, heq⟩)
        · exact (hk key rfl).2 rfl heq
        · exact draftName_ne n k heq.symm
      · unfold Store.read
        simp [hread]
    · cases hwrite
  | @volume number _ hdb hlt =>
    unfold Store.write at hwrite
    simp only [Bool.false_eq_true, if_false] at hwrite
    cases hwrite
    refine ⟨⟨.volume hdb (by simpa using hlt), fun k hk => ?_⟩, ?_⟩
    · have hne : ¬ k = key := hk.not_changed
      unfold Store.read
      simp only [volume_set hlt, SortedMap.get?_insert, Std.compare_eq_iff_eq, if_neg hne]
    · unfold Store.read
      simp [volume_set hlt]

omit h in
theorem get?_removeKeys (keys : List String) (v : Volume) (removed : Nat) (k : String) :
    (removeKeys v removed keys).1.get? k = if k ∈ keys then none else v.get? k := by
  induction keys generalizing v removed with
  | nil => rfl
  | cons key _ ih =>
    unfold removeKeys
    simp only [mem_cons]
    split
    · rw [ih, SortedMap.get?_erase]
      by_cases hk : k = key <;> simp [hk]
    · next hnot =>
      rw [ih]
      by_cases hk : k = key
      · have hnone : v.get? key = none := SortedMap.contains_eq_false_iff.mp (by simpa using hnot)
        simp [hk, hnone]
      · simp [hk]

theorem Serves.changes_invalidate (keys : List String) :
    Changes path top b st (fun k => k ∈ keys) s (st.invalidate s keys).2 := by
  unfold Store.invalidate
  cases h with
  | @directory root _ hroot hfounded =>
    have htouches := touches_removeFiles keys hfounded.leads 0
    have hchanges : Changes path top .filesystem { path := root, place := .directory }
        (fun k => k ∈ keys) s { s with disk := (removeFiles root s.disk 0 keys).1 } := by
      refine serves_of_touches hroot hfounded htouches (fun k hk => ?_)
      rintro ⟨key, hkey, heq⟩
      exact (hk key hkey).2 rfl heq
    simp only [Bool.false_eq_true, if_false]
    split <;> next hfiles => rwa [hfiles] at hchanges
  | @volume number _ hdb hlt =>
    refine ⟨.volume hdb (by simpa using hlt), fun k hk => ?_⟩
    unfold Store.read
    simp only [Bool.false_eq_true, if_false, volume_set hlt, get?_removeKeys, if_neg hk.not_changed]

/-- **Values that are removed are gone, and other values stay.** -/
theorem Serves.invalidate {keys : List String} {removed : Nat}
    (hremove : st.invalidate s keys = (.ok removed, s')) :
    Changes path top b st (fun k => k ∈ keys) s s' ∧ ∀ k ∈ keys, st.read s' k = .ok none := by
  have hchanges := h.changes_invalidate keys
  rw [hremove] at hchanges
  refine ⟨hchanges, fun k hk => ?_⟩
  unfold Store.invalidate at hremove
  unfold Store.read
  cases h with
  | directory _ hfounded =>
    simp only [Bool.false_eq_true, if_false] at hremove
    split at hremove
    · next d' n hfiles =>
      cases hremove
      simp [read_removeFiles hfounded.leads hfiles (.inl hk)]
    · cases hremove
  | volume _ hlt =>
    simp only [Bool.false_eq_true, if_false] at hremove
    cases hremove
    simp [volume_set hlt, get?_removeKeys, hk]

theorem Serves.writeBeside {name : String} {content : ByteArray}
    (hname : Disk.IsName name) (hvalue : ∀ key, fileNameFor key ≠ name)
    (hwrite : s.disk.write (st.path.child name) content = .ok d') :
    Changes path top b st (fun _ => False) s { s with disk := d' } := by
  cases h with
  | directory hroot hfounded =>
    obtain ⟨htouches, -⟩ := hfounded.leads.write_child hname hwrite
    exact serves_of_touches hroot hfounded htouches (fun key _ => hvalue key)
  | volume hdb hlt => exact ⟨.volume hdb hlt, fun _ _ => rfl⟩

end

/-! ## Opening -/

theorem mem_valuesAt {x : Spot} (h : x ∈ valuesAt d top) :
    ∃ name, x = top ++ [name] ∧ ¬ Disk.Passable (d.entryAt? x) := by
  obtain ⟨hmem, hvalue⟩ := mem_filter.mp h
  obtain ⟨name, -, rfl⟩ := mem_map.mp hmem
  refine ⟨name, rfl, ?_⟩
  cases hentry : d.entryAt? (top ++ [name]) with
  | none => exact fun hpass => hpass
  | some e =>
    cases e with
    | file => exact fun hpass => hpass
    | directory | link => simp [hentry] at hvalue

theorem touches_foldl_removeAt (spots : List Spot)
    (h : ∀ x ∈ spots, ∃ name, x = top ++ [name] ∧ ¬ Disk.Passable (d.entryAt? x)) :
    Disk.Touches top (fun _ => True) d (spots.foldl Disk.removeAt d) := by
  induction spots generalizing d with
  | nil => exact .refl top _ d
  | cons _ _ ih =>
    obtain ⟨⟨name, rfl, hold⟩, hrest⟩ := forall_mem_cons.mp h
    refine ((d.touches_removeAt hold).mono fun _ _ => trivial).trans (ih fun y hy => ?_)
    obtain ⟨name', hy', hnot⟩ := hrest y hy
    refine ⟨name', hy', ?_⟩
    rw [d.entryAt?_removeAt (by simp)]
    split
    · exact fun hpass => hpass
    · exact hnot

theorem entryAt?_foldl_removeAt (spots : List Spot) (hspots : ∀ x ∈ spots, x ≠ []) (d : Disk)
    (spot : Spot) :
    (spots.foldl Disk.removeAt d).entryAt? spot
      = if ∃ x ∈ spots, x <+: spot then none else d.entryAt? spot := by
  induction spots generalizing d with
  | nil => simp
  | cons x _ ih =>
    rw [foldl_cons, ih (fun y hy => hspots y (mem_cons_of_mem _ hy)),
      d.entryAt?_removeAt (hspots x mem_cons_self)]
    by_cases hx : x <+: spot <;> simp [hx]

/-- **A directory that was cleared holds no values**, and nothing else has changed in it. -/
theorem clearValues_spec (hclear : clearValues d root = .ok d') :
    ∃ top, d.resolve true root = .ok top ∧ d.entryAt? top = some .directory
      ∧ Disk.Touches top (fun _ => True) d d'
      ∧ ∀ key, key ≠ "" → ∀ value modified executable,
        d'.entryAt? (top ++ [fileNameFor key]) ≠ some (.file value modified executable) := by
  unfold clearValues at hclear
  obtain ⟨names, hlist, hclear⟩ := bind_eq_ok_iff.mp hclear
  obtain ⟨top, hresolve, hclear⟩ := bind_eq_ok_iff.mp hclear
  cases hclear
  have hdirectory : d.entryAt? top = some .directory := by
    unfold Disk.list at hlist
    rw [hresolve] at hlist
    simp only [bind, Except.bind] at hlist
    split at hlist
    · next hentry => exact hentry
    · cases hlist
    · cases hlist
  refine ⟨top, hresolve, hdirectory, touches_foldl_removeAt _ (fun _ => mem_valuesAt),
    fun key hkey value modified executable hentry => ?_⟩
  have hnonempty : ∀ x ∈ valuesAt d top, x ≠ [] := by
    intro x hx
    obtain ⟨name, rfl, -⟩ := mem_valuesAt hx
    simp
  rw [entryAt?_foldl_removeAt _ hnonempty] at hentry
  split at hentry
  · cases hentry
  · next hkept =>
    -- a file with the name of a value is one of those that were removed
    refine hkept ⟨top ++ [fileNameFor key], ?_, prefix_refl _⟩
    have hchild : fileNameFor key ∈ d.childNames top := by
      unfold Disk.entryAt? at hentry
      rw [if_neg (by simp)] at hentry
      unfold Disk.childNames
      refine mem_filterMap.mpr ⟨top ++ [fileNameFor key], ?_, by simp⟩
      exact SortedMap.mem_keys_iff.mpr ⟨_, SortedMap.mem_toList_iff.mpr hentry⟩
    unfold valuesAt
    refine mem_filter.mpr ⟨mem_map.mpr ⟨_, hchild, rfl⟩, ?_⟩
    simp [hentry, extension?_fileNameFor hkey]

/-- A path that leads to a directory database without links; other databases have none. -/
def Direct (path : Path) (top : Spot) (b : Backend) (d : Disk) : Prop :=
  b = .filesystem → Disk.Straight d ((d.absolute path).toOption.getD path) top

theorem open_create_spec (hopen : Store.open s .filesystem path .create = .ok (st, s')) :
    ∃ root d₁ d₂ top, (s.disk.absolute path).toOption.getD path = root
      ∧ st = { path := root, place := .directory } ∧ s' = { s with disk := d₂ }
      ∧ (d₂.absolute path).toOption.getD path = root
      ∧ s.disk.createDirectories root = .ok d₁
      ∧ d₁.resolve true root = .ok top ∧ d₁.entryAt? top = some .directory
      ∧ Disk.Touches top (fun _ => True) d₁ d₂
      ∧ ∀ key, key ≠ "" → ∀ value modified executable,
        d₂.entryAt? (top ++ [fileNameFor key]) ≠ some (.file value modified executable) := by
  delta Store.open openDirectory at hopen
  dsimp only at hopen
  split at hopen
  · cases hopen
  · next d₁ hmade =>
    split at hopen
    · cases hopen
    · next d₂ hclear =>
      cases hopen
      obtain ⟨top, hresolve, hdirectory, htouches, hempty⟩ := clearValues_spec hclear
      refine ⟨_, d₁, d₂, top, rfl, rfl, rfl, ?_, hmade, hresolve, hdirectory, htouches, hempty⟩
      unfold Disk.absolute
      rw [htouches.home, (Disk.Grown.createDirectories hmade).home]

/-- **A store that was made can be opened, and holds nothing.** -/
theorem serves_of_create (h : Direct path top b s.disk)
    (hopen : Store.open s b path .create = .ok (st, s')) :
    Serves path top b st s' ∧ ∀ key, key ≠ "" → ∀ value, st.read s' key ≠ .ok (some value) := by
  cases b with
  | filesystem =>
    obtain ⟨root, d₁, d₂, spot, hroot, rfl, rfl, hroot', hmade, hresolve, hdirectory, htouches,
      hempty⟩ := open_create_spec hopen
    have hstraight := (Disk.Grown.createDirectories hmade).straight (hroot ▸ h rfl)
    obtain ⟨rfl, hmade⟩ := hstraight.founded hresolve hdirectory
    have hfounded := htouches.founded hmade
    refine ⟨.directory hroot' hfounded, fun key hkey value hread => ?_⟩
    unfold Store.read at hread
    simp only [Bool.false_eq_true, if_false] at hread
    split at hread
    · next v hv =>
      obtain ⟨modified, executable, hentry⟩ := entryAt?_of_read hfounded.leads hv
      exact hempty key hkey v modified executable hentry
    · cases hread
    · cases hread
  | memory =>
    simp only [Store.open, openVolume, newVolume] at hopen
    cases hopen
    refine ⟨.volume (by simp) (by simp), fun key _ value hread => ?_⟩
    simp [Store.read, volume] at hread

end Laws

end Store

end SymbolIndex
