import SymbolIndex.Database

/-!
# What a database holds

The documents of a database as one object, and a portable form of it: in that form places carry
paths, and nothing depends on the order in which units were parsed.
-/

namespace SymbolIndex.Database

def document? (st : Store) (s : Storage) (key : String) : Option Json :=
  match st.read s key with
  | .ok (some bytes) => some (((Json.parseBytes? bytes).map Json.canonical).getD (.ofBytes bytes))
  | .ok none => none
  | .error e => some (.obj [("error", .str e.kind)])

def memberNames : Json → List String
  | .obj members => members.map Prod.fst
  | _ => []

def fileTable (st : Store) (s : Storage) : FileTable :=
  (readValue st s DbKey.filesByName {} FileTable.decode?).toOption.getD {}

def contents (st : Store) (s : Storage) : List (String × Json) :=
  let keys := [DbKey.sources, DbKey.pch, DbKey.filesByName, DbKey.entities, DbKey.files,
    DbKey.sourceDir] ++ (fileTable st s).toMap.keys.map DbKey.symbols
  keys.filterMap (fun key => (document? st s key).map (fun j => (key, j)))

/-! ## The portable form -/

def placeText (files : FileTable) (l : Location) : String :=
  match files.path? l.file with
  | some path => (SourcePosition.mk path l.line l.column).text
  | none => l.text

def placeTexts (files : FileTable) (s : SortedSet Location) : Json :=
  .ofSet .str (SortedSet.ofList (s.members.map (placeText files)))

def portableEntity (files : FileTable) (e : Entity) : Json :=
  .obj ([("symbol_name", .str e.symbolName),
      ("definition", .ofOption (fun l => .str (placeText files l)) e.definition),
      ("declarations", placeTexts files e.declarations),
      ("extra_declarations", placeTexts files e.extraDeclarations),
      ("references", placeTexts files e.references),
      ("super", .ofOption (fun l => .str (placeText files l)) e.superLocation)]
    ++ (e.overriddenUsr.map (fun u => ("overridden_usr", Json.str u))).toList
    ++ [("subs", placeTexts files e.subs), ("cursor_scope", .ofList .str e.cursorScope)])

def portableDocument (files : FileTable) (key : String) (j : Json) : Json :=
  if key = DbKey.filesByName then
    match j with
    | .obj _ => .ofSet .str (SortedSet.ofList (memberNames j))
    | _ => j
  else if key = DbKey.entities then
    ((Entities.decode? j).map (.ofMap id (portableEntity files))).getD j
  else if key = DbKey.sources then
    match j with
    | .arr items => .arr (items.mergeSort (fun a b => compare a.render b.render != .gt))
    | _ => j
  else j

def portableContents (st : Store) (s : Storage) : List (String × Json) :=
  (contents st s).map (fun (key, j) => (key, portableDocument (fileTable st s) key j))

end SymbolIndex.Database
