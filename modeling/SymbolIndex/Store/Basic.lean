import SymbolIndex.Digest.Sha256
import SymbolIndex.Disk.Change

/-!
# Key-value stores

The index is kept as values under keys. A store is a directory with one file for each value, or a
volume in memory; both are reached by a path and are empty when they are created.
-/

namespace SymbolIndex

inductive StoreError where
  | notFound (path : Path)
  | closed (path : Path)
  | io (error : DiskError)
deriving DecidableEq, Inhabited

namespace StoreError

def kind : StoreError → String
  | .notFound _ => "NotFound"
  | .closed _ => "Closed"
  | .io _ => "Io"

def message : StoreError → String
  | .notFound path => "Database not found at " ++ path.text
  | .closed path => "Database at " ++ path.text ++ " is closed"
  | .io error => "IO error: " ++ error.message

end StoreError

inductive OpenMode where
  | create
  | readWrite
deriving DecidableEq, Inhabited

inductive Backend where
  | filesystem
  | memory
deriving DecidableEq, Inhabited

abbrev Volume := SortedMap String ByteArray

structure Storage where
  disk : Disk := {}
  volumes : List Volume := []
  databases : SortedMap Path Nat := ∅
deriving DecidableEq, Inhabited

inductive StorePlace where
  | directory
  | volume (number : Nat)
deriving DecidableEq, Inhabited

structure Store where
  path : Path
  place : StorePlace
  closed : Bool := false
deriving DecidableEq, Inhabited

namespace Store

/-! ## File names -/

def isAlphanumeric (c : Char) : Bool :=
  let n := c.toNat
  (48 ≤ n && n ≤ 57) || (65 ≤ n && n ≤ 90) || (97 ≤ n && n ≤ 122)

/-- The name of the file that holds a key: the key itself when it is plain, and otherwise what
stands before its first colon with the digest of the key. -/
def fileNameFor (key : String) : String :=
  if key.toList.all isAlphanumeric then key ++ ".json"
  else
    let label := (key.toList.takeWhile (· ≠ ':')).filter isAlphanumeric
    String.ofList label ++ "-" ++ Digest.sha256Hex key ++ ".json"

def valuePath (root : Path) (key : String) : Path := root.child (fileNameFor key)

/-! ## Opening -/

def valuesAt (disk : Disk) (spot : Spot) : List Spot :=
  ((disk.childNames spot).map (fun name => spot ++ [name])).filter (fun value =>
    match disk.entryAt? value, value.getLast? with
    | some (.file _ _ _), some name => (Path.mk name).extension? = some "json"
    | _, _ => false)

def valueCount (disk : Disk) (root : Path) : Nat :=
  match disk.resolve true root with
  | .ok spot => (valuesAt disk spot).length
  | .error _ => 0

def clearValues (disk : Disk) (root : Path) : Except DiskError Disk := do
  let _ ← disk.list root
  let spot ← disk.resolve true root
  return (valuesAt disk spot).foldl Disk.removeAt disk

def openDirectory (s : Storage) (path : Path) (mode : OpenMode) :
    Except StoreError (Store × Storage) :=
  let root := (s.disk.absolute path).toOption.getD path
  match mode with
  | .create =>
    match s.disk.createDirectories root with
    | .error e => .error (.io e)
    | .ok disk =>
      match clearValues disk root with
      | .error e => .error (.io e)
      | .ok disk => .ok ({ path := root, place := .directory }, { s with disk })
  | .readWrite =>
    if s.disk.isDirectory root then .ok ({ path := root, place := .directory }, s)
    else .error (.notFound root)

def newVolume (s : Storage) (path : Path) : Store × Storage :=
  ({ path, place := .volume s.volumes.length }, { s with volumes := s.volumes ++ [∅] })

def openVolume (s : Storage) (path : Path) (mode : OpenMode) :
    Except StoreError (Store × Storage) :=
  match mode with
  | .create =>
    let (store, t) := newVolume s path
    .ok (store, { t with databases := t.databases.insert path s.volumes.length })
  | .readWrite =>
    match s.databases.get? path with
    | some number => .ok ({ path, place := .volume number }, s)
    | none => .error (.notFound path)

def «open» (s : Storage) (backend : Backend) (path : Path) (mode : OpenMode) :
    Except StoreError (Store × Storage) :=
  match backend with
  | .filesystem => openDirectory s path mode
  | .memory => openVolume s path mode

/-- What is left of an attempt to open a store that has failed: the directories made on the way. -/
def afterFailure (s : Storage) (backend : Backend) (path : Path) (mode : OpenMode) : Storage :=
  match backend, mode with
  | .filesystem, .create =>
    { s with disk := s.disk.tryDirectories ((s.disk.absolute path).toOption.getD path) }
  | _, _ => s

def close (st : Store) : Store := { st with closed := true }

/-! ## Values -/

def volume (s : Storage) (number : Nat) : Volume := s.volumes.getD number ∅

def read (st : Store) (s : Storage) (key : String) : Except StoreError (Option ByteArray) :=
  if st.closed then .error (.closed st.path)
  else match st.place with
    | .volume number => .ok ((volume s number).get? key)
    | .directory =>
      match s.disk.read (valuePath st.path key) with
      | .ok value => .ok (some value)
      | .error .notFound => .ok none
      | .error e => .error (.io e)

def replaceFile (disk : Disk) (directory target : Path) (value : ByteArray) :
    Except DiskError Disk := do
  let (draft, written) ← disk.createTemporary directory ".tmp" ""
  let written ← written.write draft value
  written.rename draft target

def write (st : Store) (s : Storage) (key : String) (value : ByteArray) :
    Except StoreError Storage :=
  if st.closed then .error (.closed st.path)
  else match st.place with
    | .volume number =>
      .ok { s with volumes := s.volumes.set number ((volume s number).insert key value) }
    | .directory =>
      match replaceFile s.disk st.path (valuePath st.path key) value with
      | .ok disk => .ok { s with disk }
      | .error e => .error (.io e)

def removeFiles (root : Path) (disk : Disk) (removed : Nat) :
    List String → Disk × Except DiskError Nat
  | [] => (disk, .ok removed)
  | key :: rest =>
    match disk.removeFile (valuePath root key) with
    | .ok disk => removeFiles root disk (removed + 1) rest
    | .error .notFound => removeFiles root disk removed rest
    | .error e => (disk, .error e)

def removeKeys (v : Volume) (removed : Nat) : List String → Volume × Nat
  | [] => (v, removed)
  | key :: rest =>
    if v.contains key then removeKeys (v.erase key) (removed + 1) rest
    else removeKeys v removed rest

def invalidate (st : Store) (s : Storage) (keys : List String) :
    Except StoreError Nat × Storage :=
  if st.closed then (.error (.closed st.path), s)
  else match st.place with
    | .volume number =>
      let (v, removed) := removeKeys (volume s number) 0 keys
      (.ok removed, { s with volumes := s.volumes.set number v })
    | .directory =>
      match removeFiles st.path s.disk 0 keys with
      | (disk, .ok removed) => (.ok removed, { s with disk })
      | (disk, .error e) => (.error (.io e), { s with disk })

def keys? (st : Store) (s : Storage) : Option (List String) :=
  match st.place with
  | .volume number => some (volume s number).keys
  | .directory => none

end Store

end SymbolIndex
