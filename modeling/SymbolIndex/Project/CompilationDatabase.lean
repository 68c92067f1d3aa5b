import SymbolIndex.Disk.Basic
import SymbolIndex.Invocation.CommandLine
import SymbolIndex.Json.Reader
import SymbolIndex.Text.Shell

/-!
# Compilation databases

A compilation database is a JSON array with one entry for each compiled file: its directory, its
command line, whole or in arguments, and perhaps its output.
-/

namespace SymbolIndex

inductive CompilationDatabaseError where
  | fileNotFound (path : Path)
  | read (error : DiskError)
  /-- The file does not hold a list of entries, or reading it fails halfway. -/
  | parse (cause : Option DiskError)
  | empty
deriving DecidableEq, Inhabited

namespace CompilationDatabaseError

def message : CompilationDatabaseError → String
  | .fileNotFound path => "Compilation database file not found: " ++ path.text
  | .read error => "Failed to read compilation database file: " ++ error.message
  | .parse cause =>
    "Failed to parse compilation database JSON"
      ++ (cause.map (fun e => ": " ++ e.message)).getD ""
  | .empty => "Compilation database is empty"

end CompilationDatabaseError

structure CompileCommand where
  file : Path
  directory : Path
  arguments : List String
  output : Option Path := none
deriving DecidableEq, Inhabited

namespace CompileCommand

structure Fields where
  directory : Option Path := none
  file : Option Path := none
  output : Option Path := none
  arguments : Option (List String) := none
  command : Option String := none

def Fields.set? (f : Fields) (name : String) (value : Json) : Option Fields :=
  match name with
  | "directory" => (Path.decode? value).map (fun v => { f with directory := some v })
  | "file" => (Path.decode? value).map (fun v => { f with file := some v })
  | "output" => (Path.decode? value).map (fun v => { f with output := some v })
  | "arguments" => (value.list? Json.str?).map (fun v => { f with arguments := some v })
  | "command" => value.str?.map (fun v => { f with command := some v })
  | _ => none

def decode? (j : Json) : Option CompileCommand := do
  match j with
  | .obj members =>
    let f ← members.foldlM (fun f m => f.set? m.1 m.2) ({} : Fields)
    let arguments ← match f.arguments, f.command with
      | some arguments, none => some arguments
      | none, some command => Text.Shell.split? command
      | _, _ => none
    return { directory := ← f.directory, file := ← f.file, output := f.output, arguments }
  | _ => none

def encode (c : CompileCommand) : Json :=
  .obj [("file", c.file.encode), ("directory", c.directory.encode),
    ("arguments", .ofList .str c.arguments), ("output", .ofOption Path.encode c.output)]

def invocation (c : CompileCommand) : Except InvocationError Invocation :=
  Invocation.ofCommand c.directory c.arguments (some c.file) c.output

end CompileCommand

structure CompilationDatabase where
  path : Path
  entries : List CompileCommand
deriving DecidableEq, Inhabited

namespace CompilationDatabase

def entriesOfBytes? (bytes : ByteArray) : Option (List CompileCommand) :=
  (Json.readBytes? bytes).bind (Json.list? CompileCommand.decode?)

def load (disk : Disk) (path : Path) : Except CompilationDatabaseError CompilationDatabase :=
  match disk.stat path with
  | .error _ => .error (.fileNotFound path)
  | .ok (.file content _ _) =>
    match entriesOfBytes? content with
    | none => .error (.parse none)
    | some [] => .error .empty
    | some entries => .ok { path, entries }
  | .ok _ => .error (.parse (some .isDirectory))

def containsFile (db : CompilationDatabase) (p : Path) : Bool :=
  db.entries.any (fun e => e.file.same p)

def invocations (db : CompilationDatabase) : List Invocation :=
  db.entries.filterMap (fun e => e.invocation.toOption)

end CompilationDatabase

end SymbolIndex
