import SymbolIndex.Proofs.StoreLaws

/-!
# Directories and volumes are used alike

A store in a directory and a store in memory answer alike, session after session, when nothing was
at the path before the first. `Mirrors` says what ties a directory to a volume: each key has the same
value in both. A request keeps the two tied and gets the same answer from both; creating a database
ties them anew, both being empty.

The names of values tell keys apart: a dash tells the names of keys that are not plain, and the
digest tells these from each other as long as it tells the keys apart. A disk can fail where memory
does not; that is left out.
-/

namespace SymbolIndex

open List
open SortedMap hiding keys

/-! ## Names of values -/

theorem Digest.length_sha256Hex (text : String) : (sha256Hex text).toList.length = 64 := by
  have hpairs : ∀ bytes : List UInt8, (Text.hex bytes).toList.length = 2 * bytes.length := by
    intro bytes
    unfold Text.hex
    rw [String.toList_ofList]
    induction bytes with
    | nil => rfl
    | cons _ _ ih => simp only [flatMap_cons, length_append, length_cons, length_nil, ih]; omega
  unfold sha256Hex
  rw [hpairs]
  rfl

namespace Store

theorem eq_of_fileNameFor {key k : String} (hdigest : Digest.sha256Hex key = Digest.sha256Hex k → key = k)
    (h : fileNameFor key = fileNameFor k) : key = k := by
  by_cases hkey : Plain key
  · exact Classical.byContradiction (fun hne => fileNameFor_ne hkey hne h)
  · by_cases hk : Plain k
    · exact Classical.byContradiction (fun hne => fileNameFor_ne hk (fun heq => hne heq.symm) h.symm)
    · unfold fileNameFor at h
      rw [if_neg hkey, if_neg hk] at h
      have hlist := congrArg String.toList h
      simp only [String.toList_append] at hlist
      have hfront := (append_inj' hlist rfl).1
      refine hdigest (String.toList_inj.mp (append_inj' hfront ?_).2)
      rw [Digest.length_sha256Hex, Digest.length_sha256Hex]

/-! ## Sessions -/

/-- What is asked of an open store. -/
inductive Request where
  | write (key : String) (value : ByteArray)
  | read (key : String)
  | invalidate (keys : List String)
  | close
deriving DecidableEq

def Request.keys : Request → List String
  | .write key _ => [key]
  | .read key => [key]
  | .invalidate keys => keys
  | .close => []

/-- What a store answers: nothing, a value, how many values were removed, or why it refuses. -/
inductive Reply where
  | done
  | value (found : Option ByteArray)
  | removed (count : Nat)
  | refused (kind : String)
deriving DecidableEq

def perform (st : Store) (s : Storage) : Request → Reply × Store × Storage
  | .write key value =>
    match st.write s key value with
    | .ok s' => (.done, st, s')
    | .error e => (.refused e.kind, st, s)
  | .read key =>
    match st.read s key with
    | .ok found => (.value found, st, s)
    | .error e => (.refused e.kind, st, s)
  | .invalidate keys =>
    match st.invalidate s keys with
    | (.ok count, s') => (.removed count, st, s')
    | (.error e, s') => (.refused e.kind, st, s')
  | .close => (.done, st.close, s)

def performAll (st : Store) (s : Storage) : List Request → List Reply × Storage
  | [] => ([], s)
  | request :: rest =>
    let (reply, st, s) := st.perform s request
    let (replies, s) := st.performAll s rest
    (reply :: replies, s)

/-- One use of a database: it is opened, used and closed, and may be asked again when it is. -/
structure Session where
  mode : OpenMode
  requests : List Request := []
  late : List Request := []
deriving DecidableEq

namespace Session

def keys (x : Session) : List String := (x.requests ++ x.late).flatMap Request.keys

/-- Open a store, ask, close it and ask again. -/
def run (b : Backend) (path : Path) (s : Storage) (x : Session) : List Reply × Storage :=
  match Store.open s b path x.mode with
  | .error e => ([.refused e.kind], afterFailure s b path x.mode)
  | .ok (st, s) =>
    let (replies, s) := st.performAll s (x.requests ++ .close :: x.late)
    (.done :: replies, s)

def runAll (b : Backend) (path : Path) (s : Storage) : List Session → List (List Reply)
  | [] => []
  | x :: rest =>
    let (replies, s) := x.run b path s
    replies :: runAll b path s rest

end Session

/-! ## A directory and a volume with the same values -/

/-- The value of a key in a directory. -/
def valueAt? (d : Disk) (top : Spot) (key : String) : Option ByteArray :=
  match d.entryAt? (top ++ [fileNameFor key]) with
  | some (.file content _ _) => some content
  | _ => none

theorem valueAt?_congr {d d' : Disk} {top : Spot} {key : String}
    (h : d'.entryAt? (top ++ [fileNameFor key]) = d.entryAt? (top ++ [fileNameFor key])) :
    valueAt? d' top key = valueAt? d top key := by
  unfold valueAt?
  rw [h]

/-- Different keys have different files. -/
def Distinct (used : String → Prop) : Prop :=
  ∀ key k, used key → used k → fileNameFor key = fileNameFor k → key = k

/-- A directory and a volume have the same values. -/
def Same (used : String → Prop) (d : Disk) (top : Spot) (v : Volume) : Prop :=
  ∀ key, used key → valueAt? d top key = v.get? key

section Steps

variable {used : String → Prop} {d d' : Disk} {root path : Path} {top : Spot} {v : Volume}
  {key : String} {number : Nat} {s m : Storage}

theorem Same.write (h : Same used d top v) (hdistinct : Distinct used) (hkey : used key)
    {value : ByteArray} (hleads : d.Leads root top)
    (hreplace : replaceFile d root (valuePath root key) value = .ok d') :
    Same used d' top (v.insert key value) := by
  obtain ⟨htouches, -, modified, executable, hentry⟩ := replaceFile_spec hleads hreplace
  intro k hk
  simp only [get?_insert, Std.compare_eq_iff_eq]
  by_cases heq : k = key
  · rw [if_pos heq, heq, valueAt?, hentry]
  · rw [if_neg heq, ← h k hk]
    refine valueAt?_congr (htouches.beside _ ?_)
    rintro (hname | ⟨n, hname⟩)
    · exact heq (hdistinct k key hk hkey hname)
    · exact draftName_ne n k hname.symm

theorem Same.removeFiles (hdistinct : Distinct used) (keys : List String)
    (hkeys : ∀ key ∈ keys, used key) (h : Same used d top v) (hleads : d.Leads root top)
    {count removed : Nat} (hremove : removeFiles root d count keys = (d', .ok removed)) :
    (removeKeys v count keys).2 = removed ∧ Same used d' top (removeKeys v count keys).1 := by
  induction keys generalizing d v count with
  | nil =>
    obtain ⟨rfl, hcount⟩ := Prod.mk.inj hremove
    exact ⟨Except.ok.inj hcount, h⟩
  | cons key _ ih =>
    obtain ⟨hkey, hrest⟩ := forall_mem_cons.mp hkeys
    have hvalue := h key hkey
    rw [removeFiles_cons] at hremove
    unfold removeKeys
    split at hremove
    · next d₁ hone =>
      obtain ⟨htouches, ⟨content, modified, executable, hold⟩, hgone⟩ :=
        hleads.removeFile_child (isName_fileNameFor key) hone
      have hsome : v.contains key = true := by
        rw [SortedMap.contains_iff, ← hvalue, valueAt?, hold]
        exact ⟨_, rfl⟩
      rw [if_pos hsome]
      refine ih hrest (fun k hk => ?_) (htouches.leads hleads) hremove
      rw [get?_erase]
      by_cases heq : k = key
      · simp [heq, valueAt?, hgone]
      · have hname : fileNameFor k ≠ fileNameFor key := fun hname => heq (hdistinct k key hk hkey hname)
        rw [valueAt?_congr (htouches.beside _ hname), h k hk]
        simp [heq]
    · next hone =>
      have hread := read_of_removeFile_notFound hleads hone
      have hnone : v.contains key = false := by
        rw [contains_eq_false_iff, ← hvalue, valueAt?,
          ((read_eq_notFound_iff hleads key).mp hread).2]
      simp only [hnone, Bool.false_eq_true, if_false]
      exact ih hrest h hleads hremove
    · cases (Prod.mk.inj hremove).2

/-- A directory and a volume hold the same. -/
structure Mirrors (used : String → Prop) (path root : Path) (top : Spot) (number : Nat)
    (s m : Storage) : Prop where
  spelled : (s.disk.absolute path).toOption.getD path = root
  leads : s.disk.Leads root top
  database : m.databases.get? path = some number
  inside : number < m.volumes.length
  values : Same used s.disk top (volume m number)

namespace Mirrors

variable (h : Mirrors used path root top number s m)

include h

theorem change {touched : String → Prop}
    (htouches : Disk.Touches top touched s.disk d') (hsame : Same used d' top v) :
    Mirrors used path root top number { s with disk := d' }
      { m with volumes := m.volumes.set number v } where
  spelled := by
    show (d'.absolute path).toOption.getD path = root
    unfold Disk.absolute
    rw [htouches.home]
    exact h.spelled
  leads := htouches.leads h.leads
  database := h.database
  inside := by simpa using h.inside
  values := by rwa [volume_set h.inside]

theorem read (hkey : used key) :
    (∃ e, Store.read { path := root, place := .directory } s key = .error (.io e))
      ∨ Store.read { path := root, place := .directory } s key
        = Store.read { path, place := .volume number } m key := by
  unfold Store.read
  simp only [Bool.false_eq_true, if_false, ← h.values key hkey]
  split
  · next value hvalue =>
    obtain ⟨modified, executable, hentry⟩ := entryAt?_of_read h.leads hvalue
    exact .inr (by rw [valueAt?, hentry])
  · next hmissing =>
    exact .inr (by rw [valueAt?, ((read_eq_notFound_iff h.leads key).mp hmissing).2])
  · next e _ _ => exact .inl ⟨e, rfl⟩

/-- **One request.** Both stores answer alike and go on holding the same, or the disk has failed. -/
theorem perform (hdistinct : Distinct used)
    (closed : Bool) (request : Request) (hkeys : ∀ key ∈ request.keys, used key) :
    (Store.perform { path := root, place := .directory, closed } s request).1 = .refused "Io"
      ∨ ∃ reply closed' s' m', Store.perform { path := root, place := .directory, closed } s request
            = (reply, { path := root, place := .directory, closed := closed' }, s')
          ∧ Store.perform { path, place := .volume number, closed } m request
            = (reply, { path, place := .volume number, closed := closed' }, m')
          ∧ Mirrors used path root top number s' m' := by
  cases closed with
  | true => cases request <;> exact .inr ⟨_, _, s, m, rfl, rfl, h⟩
  | false =>
    cases request with
    | close => exact .inr ⟨_, _, s, m, rfl, rfl, h⟩
    | read key =>
      rcases h.read (hkeys key (by simp [Request.keys])) with ⟨e, he⟩ | hsame
      · exact .inl (by simp only [Store.perform, he]; rfl)
      · refine .inr ⟨_, false, s, m, ?_, rfl, h⟩
        simp only [Store.perform, hsame]
        rfl
    | write key value =>
      cases hreplace : replaceFile s.disk root (valuePath root key) value with
      | error => exact .inl (by simp [Store.perform, Store.write, hreplace, StoreError.kind])
      | ok d' =>
        have hvalues := h.values.write hdistinct (hkeys key (by simp [Request.keys])) h.leads hreplace
        refine .inr ⟨.done, false, { s with disk := d' }, _, ?_, rfl,
          h.change (replaceFile_spec h.leads hreplace).1 hvalues⟩
        simp [Store.perform, Store.write, hreplace]
    | invalidate keys =>
      cases hremove : removeFiles root s.disk 0 keys with
      | mk d' result =>
        cases result with
        | error => exact .inl (by simp [Store.perform, Store.invalidate, hremove, StoreError.kind])
        | ok removed =>
          obtain ⟨hcount, hvalues⟩ := h.values.removeFiles hdistinct keys hkeys h.leads hremove
          have htouches := touches_removeFiles keys h.leads 0
          rw [hremove] at htouches
          refine .inr ⟨.removed removed, false, { s with disk := d' }, _, ?_, ?_,
            h.change htouches hvalues⟩
          · simp [Store.perform, Store.invalidate, hremove]
          · rw [← hcount]
            rfl

/-- **Any number of requests.** -/
theorem performAll (hdistinct : Distinct used)
    (closed : Bool) (requests : List Request) (hkeys : ∀ r ∈ requests, ∀ key ∈ r.keys, used key)
    (hdisk : .refused "Io" ∉ (Store.performAll { path := root, place := .directory, closed } s
      requests).1) :
    (Store.performAll { path := root, place := .directory, closed } s requests).1
        = (Store.performAll { path, place := .volume number, closed } m requests).1
      ∧ Mirrors used path root top number
        (Store.performAll { path := root, place := .directory, closed } s requests).2
        (Store.performAll { path, place := .volume number, closed } m requests).2 := by
  induction requests generalizing s m closed with
  | nil => exact ⟨rfl, h⟩
  | cons request _ ih =>
    obtain ⟨hfirst, hrest⟩ := forall_mem_cons.mp hkeys
    unfold Store.performAll at hdisk ⊢
    rcases h.perform hdistinct closed request hfirst with hio | ⟨reply, closed', s', m', hs, hm, h'⟩
    · exact absurd (mem_cons.mpr (.inl hio.symm)) hdisk
    · simp only [hs, hm] at hdisk ⊢
      obtain ⟨hreplies, hmirrors⟩ := ih h' closed' hrest (fun hmem => hdisk (mem_cons_of_mem _ hmem))
      exact ⟨by rw [hreplies], hmirrors⟩

end Mirrors

end Steps

end Store

/-! ## Opening -/

namespace Path

variable {p : Path}

theorem isAbsolute_absoluteFrom? {cwd root : Path} (h : p.isAbsolute = true)
    (hroot : p.absoluteFrom? cwd = some root) : root.isAbsolute = true := by
  have hfold : ∀ (steps : List Component) (start : Path), start.isAbsolute = true →
      (steps.foldl (fun acc c => acc.child c.spelling) start).isAbsolute = true := by
    intro steps
    induction steps with
    | nil => exact fun _ hstart => hstart
    | cons _ _ ih => exact fun start hstart => ih _ (isAbsolute_child hstart _)
  unfold absoluteFrom? at hroot
  split at hroot
  · cases hroot
  · cases hroot
    have hslash : ∀ (slash : Prop) [Decidable slash] (q : Path), q.isAbsolute = true →
        (if slash then q.child "" else q).isAbsolute = true := by
      intro slash _ q hq
      split
      · exact isAbsolute_child hq ""
      · exact hq
    refine hslash _ _ (hfold _ _ ?_)
    rw [if_pos h]
    split <;> rfl

end Path

namespace Disk

theorem isAbsolute_absolute (d : Disk) (h : p.isAbsolute = true) :
    ((d.absolute p).toOption.getD p).isAbsolute = true := by
  unfold absolute
  cases hroot : p.absoluteFrom? d.workingDirectory with
  | none => exact h
  | some => exact Path.isAbsolute_absoluteFrom? h hroot

/-- No link lies in the directory that a path leads to once it is made. -/
def Unlinked (d : Disk) (p : Path) : Prop :=
  ∀ d' top, d.createDirectories p = .ok d' → d'.resolve true p = .ok top →
    ∀ name target, d.entryAt? (top ++ [name]) ≠ some (.link target)

/-- A path that leads to no directory, and to one without links when it is made. It can be one that
was there before: a directory above was missing, and `..` leads out of it. -/
structure Vacant (d : Disk) (p : Path) : Prop where
  missing : d.isDirectory p = false
  unlinked : Unlinked d p

variable {d d' : Disk} {p : Path} {top : Spot}

theorem Grown.keeps (h : Grown d d') : Keeps d d' := by
  intro s _ hpass
  rcases h.entries s with hsame | ⟨hnone, -⟩
  · exact hsame
  · rw [hnone] at hpass
    exact hpass.elim

theorem Grown.plain (h : Grown d d')
    (hplain : ∀ name target, d.entryAt? (top ++ [name]) ≠ some (.link target)) (name : String)
    (target : Path) : d'.entryAt? (top ++ [name]) ≠ some (.link target) := by
  rcases h.entries (top ++ [name]) with hsame | ⟨-, hdirectory⟩
  · rw [hsame]
    exact hplain name target
  · rw [hdirectory]
    exact nofun

theorem Leads.unlinked (h : Leads d p top) : Unlinked d p := by
  intro d' top' hmade hresolve
  have hgrown := Grown.createDirectories hmade
  have hleads := h.keeps hgrown.keeps (hgrown.plain h.plain)
  cases hleads.resolves.symm.trans hresolve
  exact h.plain

end Disk

namespace Store

variable {used : String → Prop} {path root : Path} {s m : Storage}

/-- **A database that is made holds nothing**, in a directory as in a volume. -/
theorem mirrors_of_create (habsolute : root.isAbsolute = true)
    (hroot : (s.disk.absolute path).toOption.getD path = root) (hunlinked : s.disk.Unlinked root)
    (hused : ∀ key, used key → key ≠ "") {st : Store} {s' : Storage}
    (hopen : Store.open s .filesystem path .create = .ok (st, s')) :
    st = { path := root, place := .directory }
      ∧ ∃ top, Mirrors used path root top m.volumes.length s' { m with
          volumes := m.volumes ++ [∅]
          databases := m.databases.insert path m.volumes.length } := by
  obtain ⟨_, d₁, d₂, top, hroot', rfl, rfl, hagain, hmade, hresolve, hdirectory, htouches, hempty⟩ :=
    open_create_spec hopen
  obtain rfl := hroot.symm.trans hroot'
  have hleads : d₁.Leads root top := ⟨habsolute, hresolve, hdirectory,
    (Disk.Grown.createDirectories hmade).plain (hunlinked d₁ top hmade hresolve)⟩
  refine ⟨rfl, top, hagain, htouches.leads hleads, by simp, by simp, fun key hkey => ?_⟩
  rw [valueAt?]
  split
  · next content modified executable hentry =>
    exact absurd hentry (hempty key (hused key hkey) content modified executable)
  · simp [volume]

theorem kind_of_create {e : StoreError} (h : Store.open s .filesystem path .create = .error e) :
    e.kind = "Io" := by
  delta Store.open openDirectory at h
  dsimp only at h
  split at h
  · rw [← Except.error.inj h]
    rfl
  · split at h
    · rw [← Except.error.inj h]
      rfl
    · cases h

/-- Two storages hold the same database, or neither has one. -/
inductive Tied (used : String → Prop) (path : Path) (s m : Storage) : Prop where
  | missing : s.disk.Vacant ((s.disk.absolute path).toOption.getD path) →
      m.databases.get? path = none → Tied used path s m
  | made {root : Path} {top : Spot} {number : Nat} : Mirrors used path root top number s m →
      Tied used path s m

section

variable (h : Tied used path s m) (habsolute : path.isAbsolute = true) (hdistinct : Distinct used)
  (hused : ∀ key, used key → key ≠ "")

include h habsolute hdistinct hused

/-- **One session.** -/
theorem Tied.run (x : Session)
    (hkeys : ∀ key ∈ x.keys, used key) (hdisk : .refused "Io" ∉ (x.run .filesystem path s).1) :
    (x.run .filesystem path s).1 = (x.run .memory path m).1
      ∧ Tied used path (x.run .filesystem path s).2 (x.run .memory path m).2 := by
  have hall : ∀ r ∈ x.requests ++ .close :: x.late, ∀ key ∈ r.keys, used key := by
    intro r hr key hkey
    rcases mem_append.mp hr with hr | hr
    · exact hkeys key (mem_flatMap.mpr ⟨r, mem_append_left _ hr, hkey⟩)
    · rcases mem_cons.mp hr with rfl | hr
      · exact absurd hkey (by simp [Request.keys])
      · exact hkeys key (mem_flatMap.mpr ⟨r, mem_append_right _ hr, hkey⟩)
  -- what is left once both are open on the same values
  have hopened : ∀ {root : Path} {top : Spot} {number : Nat} {s₁ m₁ : Storage},
      Mirrors used path root top number s₁ m₁ →
      Store.open s .filesystem path x.mode = .ok ({ path := root, place := .directory }, s₁) →
      Store.open m .memory path x.mode = .ok ({ path, place := .volume number }, m₁) →
      (x.run .filesystem path s).1 = (x.run .memory path m).1
        ∧ Tied used path (x.run .filesystem path s).2 (x.run .memory path m).2 := by
    intro root top number s₁ m₁ hmirrors hs hm
    unfold Session.run at hdisk ⊢
    simp only [hs, hm] at hdisk ⊢
    obtain ⟨hreplies, hend⟩ := hmirrors.performAll hdistinct false _ hall
      (fun hmem => hdisk (mem_cons_of_mem _ hmem))
    exact ⟨by rw [hreplies], .made hend⟩
  cases hmode : x.mode with
  | create =>
    have hunlinked : s.disk.Unlinked ((s.disk.absolute path).toOption.getD path) := by
      cases h with
      | missing hvacant => exact hvacant.unlinked
      | made hmirrors => exact hmirrors.spelled ▸ hmirrors.leads.unlinked
    cases hopen : Store.open s .filesystem path .create with
    | error =>
      refine absurd ?_ hdisk
      unfold Session.run
      rw [hmode, hopen]
      exact mem_singleton.mpr (congrArg Reply.refused (kind_of_create hopen).symm)
    | ok result =>
      obtain ⟨st, s₁⟩ := result
      obtain ⟨rfl, top, hmirrors⟩ := mirrors_of_create (m := m) (s.disk.isAbsolute_absolute habsolute)
        rfl hunlinked hused hopen
      exact hopened hmirrors (by rw [hmode]; exact hopen) (by rw [hmode]; rfl)
  | readWrite =>
    cases h with
    | missing hvacant hnone =>
      have hs : Store.open s .filesystem path .readWrite
          = .error (.notFound ((s.disk.absolute path).toOption.getD path)) := by
        delta Store.open openDirectory
        simp only [hvacant.missing, Bool.false_eq_true, if_false]
      have hm : Store.open m .memory path .readWrite = .error (.notFound path) := by
        simp only [Store.open, openVolume, hnone]
      unfold Session.run
      rw [hmode, hs, hm]
      exact ⟨rfl, .missing hvacant hnone⟩
    | made hmirrors =>
      refine hopened hmirrors ?_ ?_
      · rw [hmode]
        delta Store.open openDirectory
        simp only [hmirrors.spelled, hmirrors.leads.isDirectory, if_true]
      · simp only [hmode, Store.open, openVolume, hmirrors.database]

/-- **Any number of sessions.** -/
theorem Tied.runAll (sessions : List Session)
    (hkeys : ∀ x ∈ sessions, ∀ key ∈ x.keys, used key)
    (hdisk : ∀ replies ∈ Session.runAll .filesystem path s sessions, .refused "Io" ∉ replies) :
    Session.runAll .filesystem path s sessions = Session.runAll .memory path m sessions := by
  induction sessions generalizing s m with
  | nil => rfl
  | cons x _ ih =>
    unfold Session.runAll at hdisk ⊢
    obtain ⟨hfirst, hothers⟩ := forall_mem_cons.mp hdisk
    obtain ⟨hx, hrest⟩ := forall_mem_cons.mp hkeys
    obtain ⟨hreplies, hend⟩ := h.run habsolute hdistinct hused x hx hfirst
    simp only
    rw [hreplies, ih hend hrest hothers]

end

/-- **The two backends agree.** Any sessions on one absolute path where there was no database at
first get the same answers from a directory and from memory: the same values, the same numbers of
removed values and the same refusals, as long as the digest tells the keys in use apart and the disk
does not fail. -/
theorem backends_agree (path : Path) (s : Storage) (sessions : List Session)
    (habsolute : path.isAbsolute = true)
    (hvacant : s.disk.Vacant ((s.disk.absolute path).toOption.getD path))
    (hnone : s.databases.get? path = none)
    (hkeys : ∀ key ∈ sessions.flatMap Session.keys, key ≠ "")
    (hdigest : ∀ key ∈ sessions.flatMap Session.keys, ∀ k ∈ sessions.flatMap Session.keys,
      Digest.sha256Hex key = Digest.sha256Hex k → key = k)
    (hdisk : ∀ replies ∈ Session.runAll .filesystem path s sessions, .refused "Io" ∉ replies) :
    Session.runAll .filesystem path s sessions = Session.runAll .memory path s sessions := by
  have htied : Tied (· ∈ sessions.flatMap Session.keys) path s s := .missing hvacant hnone
  refine htied.runAll habsolute (fun key k hkey hk => ?_) hkeys sessions (fun x hx key hkey => ?_) hdisk
  · exact eq_of_fileNameFor (hdigest key hkey k hk)
  · exact List.mem_flatMap.mpr ⟨x, hx, hkey⟩

def threeUses : List Session := [
  { mode := .readWrite },
  { mode := .create
    requests := [.write DbKey.sources "[]".toUTF8, .write (DbKey.symbols ⟨"/a.c"⟩) "{}".toUTF8,
      .invalidate [DbKey.sources, DbKey.sources]]
    late := [.read DbKey.sources] },
  { mode := .readWrite, requests := [.read DbKey.sources, .read (DbKey.symbols ⟨"/a.c"⟩)] }]

theorem threeUses_agree :
    Session.runAll .filesystem ⟨"/db"⟩ {} threeUses = Session.runAll .memory ⟨"/db"⟩ {} threeUses := by
  refine backends_agree ⟨"/db"⟩ {} threeUses rfl ⟨by decide +kernel, ?_⟩ rfl (by decide +kernel)
    (by decide +kernel) (by decide +kernel)
  intro d' top _ _ name target
  simp [Disk.entryAt?]

end Store

end SymbolIndex
