import SymbolIndex.Data.SortedMap
import SymbolIndex.Path

/-!
# File trees

A disk is a value: directories, regular files with their bytes and times, and symbolic links, each
under the names that lead to it from the root. Paths are resolved as POSIX resolves them: segment
by segment, through links, with `..` taken in the directory that is reached.
-/

namespace SymbolIndex

inductive DiskError where
  | notFound
  | permissionDenied
  | busy
  | fileExists
  | notDirectory
  | isDirectory
  | invalidArgument
  | nameTooLong
  | directoryNotEmpty
  | tooManyLinks
  | nulInName
  | nulInCommand
  | emptyPath
  | notText
deriving DecidableEq, Inhabited

namespace DiskError

def message : DiskError → String
  | .notFound => "No such file or directory (os error 2)"
  | .permissionDenied => "Permission denied (os error 13)"
  | .busy => "Device or resource busy (os error 16)"
  | .fileExists => "File exists (os error 17)"
  | .notDirectory => "Not a directory (os error 20)"
  | .isDirectory => "Is a directory (os error 21)"
  | .invalidArgument => "Invalid argument (os error 22)"
  | .nameTooLong => "File name too long (os error 36)"
  | .directoryNotEmpty => "Directory not empty (os error 39)"
  | .tooManyLinks => "Too many levels of symbolic links (os error 40)"
  | .nulInName => "file name contained an unexpected NUL byte"
  | .nulInCommand => "nul byte found in provided data"
  | .emptyPath => "cannot make an empty path absolute"
  | .notText => "stream did not contain valid UTF-8"

end DiskError

abbrev Spot := List String

namespace Disk

instance decidableEqBytes : DecidableEq ByteArray := fun a b =>
  decidable_of_iff (a.data = b.data) ByteArray.ext_iff.symm

inductive Entry where
  | file (content : ByteArray) (modified : Int) (executable : Bool)
  | directory
  | link (target : Path)
deriving DecidableEq, Inhabited

end Disk

structure Disk where
  entries : SortedMap Spot Disk.Entry := ∅
  workingDirectory : Path := ⟨"/"⟩
  now : Int := 0
  temporaries : Nat := 0
deriving DecidableEq, Inhabited

namespace Disk

def entryAt? (d : Disk) (s : Spot) : Option Entry :=
  if s = [] then some .directory else d.entries.get? s

def maxLinks : Nat := 40

def maxName : Nat := 255
def maxPath : Nat := 4095

inductive Stop where
  | reached (spot : Spot)
  | detour (base : Spot) (target : Path) (rest : List String)

/-- Walk along segments without following links. A link at the very end is followed only when
`follow` says so. -/
def walk (d : Disk) (follow : Bool) (here : Spot) : List String → Except DiskError Stop
  | [] => .ok (.reached here)
  | segment :: rest =>
    match d.entryAt? here with
    | some .directory =>
      if segment = "" ∨ segment = "." then walk d follow here rest
      else if segment = ".." then walk d follow here.dropLast rest
      else if segment.utf8ByteSize > maxName then .error .nameTooLong
      else
        let next := here ++ [segment]
        match d.entryAt? next with
        | none => .error .notFound
        | some (.link target) =>
          if rest = [] ∧ !follow then .ok (.reached next) else .ok (.detour here target rest)
        | some _ => walk d follow next rest
    | some _ => .error .notDirectory
    | none => .error .notFound

def segmentsOf (p : Path) : List String := (Path.segments p.text.toList).map String.ofList

def walkThrough (d : Disk) (follow : Bool) (links : Nat) (here : Spot) (segments : List String) :
    Except DiskError Spot := do
  match ← d.walk follow here segments with
  | .reached spot => return spot
  | .detour base target rest =>
    match links with
    | 0 => .error .tooManyLinks
    | links + 1 =>
      if target.text = "" then .error .notFound
      else
        d.walkThrough follow links (if target.isAbsolute then [] else base)
          (segmentsOf target ++ rest)

def route (d : Disk) (p : Path) : Except DiskError (List String) :=
  if p.text = "" then .error .notFound
  else if p.text.toList.contains '\x00' then .error .nulInName
  else if p.text.utf8ByteSize > maxPath then .error .nameTooLong
  else .ok (segmentsOf (d.workingDirectory.join p))

def resolve (d : Disk) (follow : Bool) (p : Path) : Except DiskError Spot := do
  d.walkThrough follow maxLinks [] (← d.route p)

def stat (d : Disk) (p : Path) : Except DiskError Entry := do
  let spot ← d.resolve true p
  match d.entryAt? spot with
  | some e => return e
  | none => .error .notFound

def «exists» (d : Disk) (p : Path) : Bool := (d.stat p).toOption.isSome

def isFile (d : Disk) (p : Path) : Bool :=
  match d.stat p with
  | .ok (.file _ _ _) => true
  | _ => false

def isDirectory (d : Disk) (p : Path) : Bool :=
  match d.stat p with
  | .ok .directory => true
  | _ => false

/-- Milliseconds since the epoch of a time in microseconds, 0 before the epoch. -/
def millis (micros : Int) : UInt64 := UInt64.ofNat (micros.toNat / 1000)

def lastModified (d : Disk) (p : Path) : UInt64 :=
  match d.stat p with
  | .ok (.file _ modified _) => millis modified
  | .ok _ => millis d.now
  | .error _ => 0

def checkExecutable (d : Disk) (p : Path) : Except DiskError Unit := do
  match ← d.stat p with
  | .file _ _ true => return ()
  | _ => .error .permissionDenied

def read (d : Disk) (p : Path) : Except DiskError ByteArray := do
  match ← d.stat p with
  | .file content _ _ => return content
  | _ => .error .isDirectory

def childNames (d : Disk) (s : Spot) : List String :=
  d.entries.keys.filterMap (fun k =>
    match k.getLast? with
    | some name => if k.dropLast = s then some name else none
    | none => none)

def list (d : Disk) (p : Path) : Except DiskError (List String) := do
  let spot ← d.resolve true p
  match d.entryAt? spot with
  | some .directory => return d.childNames spot
  | some _ => .error .notDirectory
  | none => .error .notFound

def count (d : Disk) (p : Path) : Nat := ((d.list p).toOption.getD []).length

def absolute (d : Disk) (p : Path) : Except DiskError Path :=
  match p.absoluteFrom? d.workingDirectory with
  | some q => .ok q
  | none => .error .emptyPath

end Disk

end SymbolIndex
