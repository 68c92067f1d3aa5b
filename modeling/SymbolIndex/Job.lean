import SymbolIndex.Invocation.Basic
import SymbolIndex.Symbol.Location

/-!
# Jobs

A job is the parsing of one unit, here or on a remote worker. Its state moves along a fixed set of
transitions and ends in one of four terminal states.
-/

namespace SymbolIndex

structure JobId where
  val : UInt64
deriving DecidableEq, Inhabited

namespace JobId

instance : Ord JobId where
  compare := compareOn val

instance : Std.TransOrd JobId := inferInstanceAs (Std.TransCmp (compareOn val))

def text (id : JobId) : String := "#" ++ toString id.val.toNat

end JobId

inductive JobKind where
  | compile
  | dirty
  | pch
deriving DecidableEq, Inhabited

namespace JobKind

def all : List JobKind := [.compile, .dirty, .pch]

def name : JobKind → String
  | .compile => "Compile"
  | .dirty => "Dirty"
  | .pch => "Pch"

def decode? (j : Json) : Option JobKind := j.named? name all

end JobKind

inductive JobState where
  | queued
  | runningLocal
  | remote
  | rescheduled
  | completeLocal
  | completeRemote
  | crashed
  | aborted
deriving DecidableEq, Inhabited

namespace JobState

def all : List JobState :=
  [.queued, .runningLocal, .remote, .rescheduled, .completeLocal, .completeRemote, .crashed,
    .aborted]

def name : JobState → String
  | .queued => "Queued"
  | .runningLocal => "RunningLocal"
  | .remote => "Remote"
  | .rescheduled => "Rescheduled"
  | .completeLocal => "CompleteLocal"
  | .completeRemote => "CompleteRemote"
  | .crashed => "Crashed"
  | .aborted => "Aborted"

def decode? (j : Json) : Option JobState := j.named? name all

def isTerminal : JobState → Bool
  | .completeLocal | .completeRemote | .crashed | .aborted => true
  | _ => false

def canMoveTo : JobState → JobState → Bool
  | .queued, .runningLocal | .queued, .remote | .queued, .aborted => true
  | .runningLocal, .completeLocal | .runningLocal, .crashed | .runningLocal, .aborted => true
  | .remote, .completeRemote | .remote, .rescheduled | .remote, .aborted => true
  | .rescheduled, .runningLocal | .rescheduled, .remote | .rescheduled, .aborted => true
  | _, _ => false

end JobState

inductive JobError where
  | unknownJob (id : JobId)
  | invalidTransition (id : JobId) (source target : JobState)
  | aborted (id : JobId)
  | failed (id : JobId) (reason : String)
  | notPrecompilable (path : Path)
  | pchUnavailable (key : String)
deriving DecidableEq, Inhabited

namespace JobError

def kind : JobError → String
  | .unknownJob _ => "UnknownJob"
  | .invalidTransition _ _ _ => "InvalidTransition"
  | .aborted _ => "Aborted"
  | .failed _ _ => "Failed"
  | .notPrecompilable _ => "NotPrecompilable"
  | .pchUnavailable _ => "PchUnavailable"

def message : JobError → String
  | .unknownJob id => "Unknown job " ++ id.text
  | .invalidTransition id source target =>
    "Job " ++ id.text ++ " cannot move from " ++ source.name ++ " to " ++ target.name
  | .aborted id => "Job " ++ id.text ++ " was aborted"
  | .failed id reason => "Job " ++ id.text ++ " failed: " ++ reason
  | .notPrecompilable path => path.text ++ " does not produce a precompiled header"
  | .pchUnavailable key => "Precompiled header " ++ key ++ " could not be built"

end JobError

structure Job where
  id : JobId
  kind : JobKind
  fromRemote : Bool := false
  state : JobState := .queued
  destination : Option String := none
  port : Option UInt16 := none
  invocation : Invocation
  sourceFile : Path
  blockedFiles : SortedMap Path UInt32 := ∅
  visited : SortedSet FileId := ∅
  started : Bool := false
  attempts : UInt32 := 0
deriving DecidableEq, Inhabited

namespace Job

def make (id : JobId) (kind : JobKind) (invocation : Invocation) (fromRemote : Bool) : Job :=
  { id, kind, fromRemote, invocation, sourceFile := invocation.input }

def transition (j : Job) (next : JobState) : Except JobError Job :=
  if j.state.canMoveTo next then
    .ok { j with state := next, started := j.started || next == .runningLocal }
  else .error (.invalidTransition j.id j.state next)

def advance (j : Job) (next : JobState) : Job := (j.transition next).toOption.getD j

def text (j : Job) : String :=
  let marks := [j.kind.name] ++ (if j.fromRemote then ["FromRemote"] else []) ++ [j.state.name]
  j.id.text ++ " " ++ j.sourceFile.text ++ " [" ++ String.intercalate "|" marks ++ "]"
    ++ (match j.destination, j.port with
      | some destination, some port => " -> " ++ destination ++ ":" ++ toString port.toNat
      | _, _ => "")

def encode (j : Job) : Json :=
  .obj [("id", .ofUInt64 j.id.val), ("kind", .str j.kind.name), ("from_remote", .bool j.fromRemote),
    ("state", .str j.state.name), ("destination", .ofOption .str j.destination),
    ("port", .ofOption (fun p => .ofNat p.toNat) j.port), ("invocation", j.invocation.encode),
    ("source_file", j.sourceFile.encode),
    ("blocked_files", .ofMap Path.text .ofUInt32 j.blockedFiles),
    ("visited", .ofSet FileId.encode j.visited), ("started", .bool j.started),
    ("attempts", .ofUInt32 j.attempts)]

end Job

end SymbolIndex
