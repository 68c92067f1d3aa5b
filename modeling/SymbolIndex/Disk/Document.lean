import SymbolIndex.Disk.Change
import SymbolIndex.Json.Codec

/-!
# File trees as documents

A tree is written as a list of objects, one for each file, directory and link.
-/

namespace SymbolIndex.Disk

def pathOf (s : Spot) : Path := ⟨"/" ++ String.intercalate "/" s⟩

/-- Put what an object describes, with the directories above it. A relative path is seen from
`base`, and what cannot be put is left out. -/
def addDocument (base : Path) (d : Disk) (j : Json) : Disk :=
  let p := base.join ⟨((j.field? "path").bind Json.str?).getD ""⟩
  if j.field? "dir" == some (.bool true) then d.tryDirectories p
  else
    let d := d.tryDirectories (p.parent?.getD p)
    match (j.field? "link").bind Json.str? with
    | some target => (d.createLink p ⟨target⟩).toOption.getD d
    | none =>
      let content := ((j.field? "content").bind Json.bytes?).getD .empty
      let modified := match j.field? "mtime_us" with
        | some (.int us) => some us
        | _ => none
      let executable := j.field? "program" == some (.bool true)
      (d.install p content modified executable).toOption.getD d

def addDocuments (base : Path) (d : Disk) (js : List Json) : Disk := js.foldl (addDocument base) d

def documentOf (s : Spot) : Entry → Json
  | .file content modified executable =>
    .obj [("path", (pathOf s).encode), ("content", .ofBytes content), ("mtime_us", .int modified),
      ("program", .bool executable)]
  | .directory => .obj [("path", (pathOf s).encode), ("dir", .bool true)]
  | .link target => .obj [("path", (pathOf s).encode), ("link", target.encode)]

def documents (d : Disk) : List Json := d.entries.toList.map (fun e => documentOf e.1 e.2)

end SymbolIndex.Disk
