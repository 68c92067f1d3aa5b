import SymbolIndex.Disk.Change
import SymbolIndex.Frontend.Event
import SymbolIndex.Invocation.Basic
import SymbolIndex.Log.Record

/-!
# Front ends

A front end parses one unit: given the disk and a request it tells the events it reported, how the
parse ended, and the disk it left behind.
-/

namespace SymbolIndex

inductive FrontendError where
  | parseFailed (path : Path) (reason : String)
  | process (reason : String)
  | saveFailed (path : Path) (reason : String)
  | io (error : DiskError)
deriving DecidableEq, Inhabited

namespace FrontendError

def kind : FrontendError → String
  | .parseFailed _ _ => "ParseFailed"
  | .process _ => "Process"
  | .saveFailed _ _ => "SaveFailed"
  | .io _ => "Io"

def message : FrontendError → String
  | .parseFailed path reason => "Failed to parse " ++ path.text ++ ": " ++ reason
  | .process reason => "Frontend executable failed: " ++ reason
  | .saveFailed path reason =>
    "Failed to save translation unit to " ++ path.text ++ ": " ++ reason
  | .io error => "IO error: " ++ error.message

end FrontendError

abbrev UnsavedFiles := SortedMap Path ByteArray

structure ParseRequest where
  invocation : Invocation
  arguments : List String
  unsaved : UnsavedFiles := ∅
deriving DecidableEq, Inhabited

def ParseRequest.encode (r : ParseRequest) : Json :=
  .obj ([("input", r.invocation.input.encode), ("arguments", .ofList .str r.arguments)]
    ++ if r.unsaved.isEmpty then [] else [("unsaved", .ofMap Path.text .ofBytes r.unsaved)])

inductive UnitImage where
  | bytes (content : ByteArray)
  | unsavable (reason : String)
  | staged (artifact : Path)
deriving DecidableEq, Inhabited

namespace UnitImage

def save (image : UnitImage) (disk : Disk) (target : Path) : Except FrontendError Disk :=
  match image with
  | .unsavable reason => .error (.saveFailed target reason)
  | .bytes content => (disk.write target content).mapError (fun e => .saveFailed target e.message)
  | .staged artifact =>
    let copied : Except DiskError Disk := do
      let (draft, written) ← disk.createTemporary (target.parent?.getD ⟨"."⟩) ".tmp" ""
      let content ← written.read artifact
      let written ← written.write draft content
      written.rename draft target
    copied.mapError (fun e => .saveFailed target e.message)

def discard (image : UnitImage) (disk : Disk) : Disk :=
  match image with
  | .staged artifact => (disk.removeFile artifact).toOption.getD disk
  | _ => disk

end UnitImage

inductive ParseEnd where
  | parsed (image : UnitImage)
  | failed (error : FrontendError)
  | crashed
deriving DecidableEq, Inhabited

structure Call where
  before : List String
  after : List String
  unsaved : UnsavedFiles
  directory : Path
deriving DecidableEq, Inhabited

namespace Call

def input (c : Call) : String := c.after.getLast?.getD ""

def encode (c : Call) : Json :=
  .obj [("before", .ofList .str c.before), ("after", .ofList .str c.after),
    ("unsaved", .ofMap Path.text .ofBytes c.unsaved), ("cwd", c.directory.encode)]

end Call

structure ParseRun where
  disk : Disk
  events : List Event := []
  ending : ParseEnd
  call : Option Call := none
  log : List LogRecord := []
deriving DecidableEq, Inhabited

abbrev Frontend := Disk → ParseRequest → ParseRun

end SymbolIndex
