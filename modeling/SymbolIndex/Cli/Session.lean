import SymbolIndex.Cli.Program
import SymbolIndex.Disk.Document

/-!
# Sessions

A run of the program for which commands are answered from outside, one after the other. With some
commands answered the run is known up to the next one; it is repeated with each answer until every
command it runs has been answered.
-/

namespace SymbolIndex.Cli

structure Session where
  words : List String
  environment : Environment := ∅
  pid : String := "0"
  disk : Disk := {}
  answers : List (Call × Child) := []
deriving Inhabited

namespace Session

def ofJson (words : List String) (j : Json) : Session :=
  let directory : Path := ⟨((j.field? "directory").bind Json.str?).getD "/"⟩
  let files := ((j.field? "files").bind Json.arr?).getD []
  let bare : Disk := [directory, ⟨"/tmp"⟩].foldl Disk.tryDirectories {}
  { words
    environment := ((j.field? "environment").bind (Json.map? id Json.str?)).getD ∅
    disk := { bare.addDocuments directory files with workingDirectory := directory } }

def behaviour (s : Session) (c : Call) : Child :=
  ((s.answers.find? (fun a => a.1 = c)).map Prod.snd).getD {}

def outcome (s : Session) : Outcome := run s.words s.environment s.pid s.behaviour s.disk

def pending? (s : Session) : Option Call :=
  s.outcome.calls.find? (fun c => s.answers.all (fun a => a.1 ≠ c))

def answer (s : Session) (c : Call) (child : Child) : Session :=
  { s with answers := s.answers ++ [(c, child)] }

end Session

def Outcome.encode (o : Outcome) : Json :=
  .obj [("exit", .ofNat o.exit.toNat), ("messages", .ofList .str o.messages),
    ("files", .arr o.disk.documents)]

end SymbolIndex.Cli
