import SymbolIndex.Disk.Basic

/-!
# Changing file trees

Each operation gives the new disk or the reason it fails. A failed operation changes nothing, apart
from the directories that were made on the way to a missing one.
-/

namespace SymbolIndex.Disk

/-- Let time pass, so that the next file written is newer. -/
def tick (d : Disk) : Disk := { d with now := d.now + 1000 }

def put (d : Disk) (s : Spot) (e : Entry) : Disk := { d with entries := d.entries.insert s e }

def removeAt (d : Disk) (s : Spot) : Disk :=
  { d with entries := d.entries.filter (fun k _ => !s.isPrefixOf k) }

structure LastStep where
  directory : Spot
  name : String
  slashes : Bool
deriving DecidableEq, Inhabited

namespace LastStep

def isSpecial (l : LastStep) : Bool := l.name = "" ∨ l.name = "." ∨ l.name = ".."

def spot (l : LastStep) : Spot := l.directory ++ [l.name]

end LastStep

def lastStepFrom (d : Disk) (here : Spot) (segments : List String) :
    Except DiskError LastStep := do
  let steps := segments.reverse.dropWhile (· = "")
  let directory ← d.walkThrough true maxLinks here steps.tail.reverse
  let name := steps.head?.getD ""
  match d.entryAt? directory with
  | some .directory =>
    if name.utf8ByteSize > maxName then .error .nameTooLong
    else return { directory, name, slashes := segments.getLast? = some "" }
  | _ => .error .notDirectory

def lastStep (d : Disk) (p : Path) : Except DiskError LastStep := do
  d.lastStepFrom [] (← d.route p)

def place (d : Disk) (p : Path) : Except DiskError Spot := do
  let l ← d.lastStep p
  if l.isSpecial then .error .fileExists else return l.spot

/-- The place where a new file is made: a link that leads nowhere stands for what it should lead to,
through at most `links` links. -/
def creationSpot (d : Disk) (links : Nat) (here : Spot) (segments : List String) :
    Except DiskError Spot := do
  let l ← d.lastStepFrom here segments
  if l.isSpecial ∨ l.slashes then .error .isDirectory
  else match d.entryAt? l.spot with
    | some (.link target) =>
      match links with
      | 0 => .error .tooManyLinks
      | links + 1 =>
        if target.text = "" then .error .notFound
        else
          d.creationSpot links (if target.isAbsolute then [] else l.directory) (segmentsOf target)
    | some _ => .error .fileExists
    | none => return l.spot

def write (d : Disk) (p : Path) (content : ByteArray) : Except DiskError Disk := do
  match d.resolve true p with
  | .ok spot =>
    match d.entryAt? spot with
    | some (.file _ _ executable) => return (d.put spot (.file content d.now executable)).tick
    | _ => .error .isDirectory
  | .error .notFound =>
    let spot ← d.creationSpot maxLinks [] (← d.route p)
    return (d.put spot (.file content d.now false)).tick
  | .error e => .error e

def firstSecond : Int := -2147483648

def lastSecond : Int := 15032385535

/-- The time that a file gets when one in microseconds is asked for: times outside of the range
become its ends, and the seconds at its ends are not divided. -/
def fileTime (asked : Int) : Int :=
  let second := max firstSecond (min lastSecond (asked / 1000000))
  if second = firstSecond ∨ second = lastSecond then second * 1000000 else asked

def install (d : Disk) (p : Path) (content : ByteArray) (modified : Option Int)
    (executable : Bool) : Except DiskError Disk := do
  let written ← d.write p content
  let spot ← written.resolve true p
  return written.put spot (.file content (modified.elim d.now fileTime) executable)

/-- Open a file for adding lines at its end, making it when it is missing. -/
def touchLog (d : Disk) (p : Path) : Except DiskError Disk :=
  match d.read p with
  | .ok content => d.write p content
  | .error .notFound => d.write p ByteArray.empty
  | .error e => .error e

def createLink (d : Disk) (p target : Path) : Except DiskError Disk := do
  let l ← d.lastStep p
  if l.isSpecial then .error .fileExists
  else match d.entryAt? l.spot with
    | some _ => .error .fileExists
    | none => if l.slashes then .error .notFound else return d.put l.spot (.link target)

def createDirectory (d : Disk) (p : Path) : Except DiskError Disk := do
  let spot ← d.place p
  match d.entryAt? spot with
  | some _ => .error .fileExists
  | none => return d.put spot .directory

def ensureDirectory (d : Disk) (p : Path) : Disk × Option DiskError :=
  match d.createDirectory p with
  | .ok d => (d, none)
  | .error e => (d, if d.isDirectory p then none else some e)

/-- Make a directory and those above it, given the path and its parents, innermost first. What was
made before a failure stays. -/
def createChain (d : Disk) : List Path → Disk × Option DiskError
  | [] => (d, some .notFound)
  | p :: above =>
    if p.text = "" then (d, none)
    else match d.ensureDirectory p with
      | (d, some .notFound) =>
        match d.createChain above with
        | (d, some e) => (d, some e)
        | (d, none) => d.ensureDirectory p
      | made => made

def ancestors (fuel : Nat) (p : Path) : List Path :=
  match fuel with
  | 0 => []
  | fuel + 1 =>
    match p.parent? with
    | some q => p :: ancestors fuel q
    | none => [p]

def createDirectories (d : Disk) (p : Path) : Except DiskError Disk :=
  match d.createChain (ancestors (p.text.length + 1) p) with
  | (d, none) => .ok d
  | (_, some e) => .error e

def tryDirectories (d : Disk) (p : Path) : Disk :=
  (d.createChain (ancestors (p.text.length + 1) p)).1

def removeFile (d : Disk) (p : Path) : Except DiskError Disk := do
  let l ← d.lastStep p
  if l.isSpecial then .error .isDirectory
  else match d.entryAt? l.spot with
    | some .directory => .error .isDirectory
    | some _ => if l.slashes then .error .notDirectory else return d.removeAt l.spot
    | none => .error .notFound

def removeTree (d : Disk) (p : Path) : Disk :=
  match d.resolve false p with
  | .ok spot => d.removeAt spot
  | .error _ => d

def move (d : Disk) (old new : Spot) : Disk :=
  let below := d.entries.toList.filter (fun e => old.isPrefixOf e.1)
  below.foldl (fun d e => d.put (new ++ e.1.drop old.length) e.2)
    ((d.removeAt old).removeAt new)

/-- Why an entry cannot replace what stands at `new`: a directory replaces an empty directory only,
and anything else replaces no directory. -/
def replaceError? (d : Disk) (e : Entry) (new : Spot) : Option DiskError :=
  match e, d.entryAt? new with
  | .directory, some .directory =>
    if d.childNames new = [] then none else some .directoryNotEmpty
  | .directory, some _ => some .notDirectory
  | _, some .directory => some .isDirectory
  | _, _ => none

/-- Give an entry another place, with all below it. Only the path of a directory may end in a slash,
and a directory is not moved below itself. -/
def rename (d : Disk) (source target : Path) : Except DiskError Disk := do
  let old ← d.lastStep source
  let new ← d.lastStep target
  if old.isSpecial ∨ new.isSpecial then .error .busy
  else match d.entryAt? old.spot with
    | none => .error .notFound
    | some e =>
      if e ≠ .directory ∧ (old.slashes ∨ new.slashes) then .error .notDirectory
      else if old.spot = new.spot then return d
      else if old.spot.isPrefixOf new.spot then .error .invalidArgument
      else if new.spot.isPrefixOf old.spot then .error .directoryNotEmpty
      else match d.replaceError? e new.spot with
        | some error => .error error
        | none => return d.move old.spot new.spot

def temporaryMark (n : Nat) : String :=
  let digits := Nat.toDigits 10 n
  String.ofList (List.replicate (6 - digits.length) '0' ++ digits)

/-- A text in which the unique part of the temporary names that begin with `start` is written as a
star. -/
def hideMarks (text start : String) : String :=
  match text.splitOn start with
  | [] => text
  | first :: rest =>
    first ++ String.join (rest.map (fun piece =>
      let mark := piece.toList.take 6
      start ++ (if mark.length = 6 ∧ mark.all Char.isAlphanum then
        "*" ++ String.ofList (piece.toList.drop 6) else piece)))

/-- A new empty file in a directory, its name made unique between `start` and `ending`. Its path is
absolute. -/
def createTemporary (d : Disk) (directory : Path) (start ending : String) :
    Except DiskError (Path × Disk) := do
  let p := (d.workingDirectory.join directory).child
    (start ++ temporaryMark d.temporaries ++ ending)
  let d ← { d with temporaries := d.temporaries + 1 }.write p ByteArray.empty
  return (p, d)

/-- A new empty directory in a directory, its name made unique after `start`. Its path is
absolute. -/
def createTemporaryDirectory (d : Disk) (directory : Path) (start : String) :
    Except DiskError (Path × Disk) := do
  let p := (d.workingDirectory.join directory).child (start ++ temporaryMark d.temporaries)
  let d ← { d with temporaries := d.temporaries + 1 }.createDirectory p
  return (p, d)

end SymbolIndex.Disk
