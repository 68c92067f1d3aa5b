import SymbolIndex.IndexState
import SymbolIndex.Project.SourceTree
import SymbolIndex.Store.Basic

/-!
# Databases

How an index is laid out over the keys of a store. Besides the symbol records themselves there is,
for each file, the list of the symbols that have a place in it. Every change to a store is a
`Mutation`, so a run is known by the list of its mutations.
-/

namespace SymbolIndex

inductive DatabaseError where
  | store (error : StoreError)
  | malformed (key : String)
  | sourceDir (error : ProjectError)
deriving DecidableEq, Inhabited

namespace DatabaseError

def kind : DatabaseError → String
  | .store error => error.kind
  | .malformed _ => "Malformed"
  | .sourceDir error => error.kind

def message : DatabaseError → String
  | .store error => "Store error: " ++ error.message
  | .malformed key => "Malformed value under " ++ key
  | .sourceDir error => "Source directory error: " ++ error.message

end DatabaseError

/-! ## Keys -/

namespace DbKey

def sources : String := "sources"
def pch : String := "pch"
def filesByName : String := "filesByName"
def entities : String := "entities"
def files : String := "files"
def sourceDir : String := "sourceDir"

def symbols (p : Path) : String := "symbols:" ++ p.text

end DbKey

abbrev Entities := SortedMap Usr Entity

namespace Entities

def encode (m : Entities) : Json := .ofMap id Entity.encode m

def decode? (j : Json) : Option Entities := j.map? id Entity.decode?

def symbolsByFile (m : Entities) : SortedMap FileId (SortedSet Usr) :=
  m.toList.foldl
    (fun acc e => e.2.files.members.foldl
      (fun acc file => acc.insert file (((acc.get? file).getD ∅).add e.1)) acc)
    ∅

def pruneFiles (m : Entities) (ids : SortedSet FileId) : Entities :=
  (m.mapValues (fun _ e => e.pruneFiles ids)).filter (fun _ e => !e.isEmpty)

end Entities

/-! ## Mutations -/

inductive Mutation where
  | write (key : String) (value : Json)
  | remove (keys : List String)
deriving Inhabited

namespace Mutation

def apply (st : Store) (s : Storage) : Mutation → Except StoreError Unit × Storage
  | .write key value =>
    match st.write s key value.render.toUTF8 with
    | .ok s => (.ok (), s)
    | .error e => (.error e, s)
  | .remove keys =>
    match st.invalidate s keys with
    | (.ok _, s) => (.ok (), s)
    | (.error e, s) => (.error e, s)

def applyAll (st : Store) (s : Storage) : List Mutation → Except StoreError Unit × Storage
  | [] => (.ok (), s)
  | m :: rest =>
    match m.apply st s with
    | (.ok (), s) => applyAll st s rest
    | (.error e, s) => (.error e, s)

end Mutation

namespace Database

def sourcesMutation (sources : List Source) : Mutation :=
  .write DbKey.sources (.ofList Source.encode sources)

def pchMutation (pch : SortedMap String PchEntry) : Mutation :=
  .write DbKey.pch (.ofMap id PchEntry.encode pch)

def fileTableMutation (files : FileTable) : Mutation := .write DbKey.filesByName files.encode

def entitiesMutations (m : Entities) (files : FileTable) : List Mutation :=
  m.symbolsByFile.toList.filterMap (fun e =>
    (files.path? e.1).map (fun p => .write (DbKey.symbols p) (.ofSet .str e.2)))
    ++ [.write DbKey.entities m.encode]

def listingMutations (root : Path) (listing : SortedSet Path) : List Mutation :=
  [.write DbKey.sourceDir root.encode, .write DbKey.files (.ofSet Path.encode listing)]

def saveMutations (state : IndexState) : List Mutation :=
  [fileTableMutation state.files] ++ entitiesMutations state.graph.entities state.files
    ++ [sourcesMutation state.sources, pchMutation state.pch.toMap]

def invalidation (m : Entities) (dirty : SortedSet Path) (files : FileTable) :
    List Mutation × Entities :=
  if dirty.isEmpty then ([], m)
  else
    let ids := SortedSet.ofList (dirty.members.filterMap files.id?)
    let kept := m.pruneFiles ids
    ([.remove (dirty.members.map DbKey.symbols), .write DbKey.entities kept.encode], kept)

/-! ## Reading -/

def readValue (st : Store) (s : Storage) (key : String) (default : α) (decode? : Json → Option α) :
    Except DatabaseError α :=
  match st.read s key with
  | .error e => .error (.store e)
  | .ok none => .ok default
  | .ok (some bytes) =>
    match (Json.readBytes? bytes).bind decode? with
    | some value => .ok value
    | none => .error (.malformed key)

structure Loaded where
  sources : List Source := []
  pch : SortedMap String PchEntry := ∅
  files : FileTable := {}
deriving DecidableEq, Inhabited

def load (st : Store) (s : Storage) : Except DatabaseError Loaded := do
  let sources ← readValue st s DbKey.sources [] (Json.list? Source.decode?)
  let pch ← readValue st s DbKey.pch ∅ (Json.map? id PchEntry.decode?)
  let files ← readValue st s DbKey.filesByName {} FileTable.decode?
  return { sources, pch, files }

/-! ## Writing -/

def commit (st : Store) (s : Storage) (ms : List Mutation) : Except DatabaseError Unit × Storage :=
  match Mutation.applyAll st s ms with
  | (.ok (), s) => (.ok (), s)
  | (.error e, s) => (.error (.store e), s)

def invalidate (st : Store) (s : Storage) (dirty : SortedSet Path) (files : FileTable) :
    Except DatabaseError Entities × Storage :=
  match readValue st s DbKey.entities ∅ Entities.decode? with
  | .error e => (.error e, s)
  | .ok m =>
    let (mutations, kept) := invalidation m dirty files
    match commit st s mutations with
    | (.ok (), s) => (.ok kept, s)
    | (.error e, s) => (.error e, s)

/-- Record the files below a directory; the answer is their number. -/
def writeListing (st : Store) (s : Storage) (root : Path) : Except DatabaseError Nat × Storage :=
  match listSourceTree s.disk root with
  | .error e => (.error (.sourceDir e), s)
  | .ok listing =>
    match commit st s (listingMutations root listing) with
    | (.ok (), s) => (.ok listing.size, s)
    | (.error e, s) => (.error e, s)

end Database

end SymbolIndex
