import SymbolIndex.Project.CompilationDatabase

/-!
# Source trees

The regular files below a directory, without those in hidden directories and without links.
-/

namespace SymbolIndex

inductive ProjectError where
  | io (error : DiskError)
  | notAFile (path : Path)
  | sourceRootNotFound (path : Path)
  | invalidInvocation (error : InvocationError)
  | compilationDatabase (error : CompilationDatabaseError)
deriving DecidableEq, Inhabited

namespace ProjectError

def kind : ProjectError → String
  | .io _ => "Io"
  | .notAFile _ => "NotAFile"
  | .sourceRootNotFound _ => "SourceRootNotFound"
  | .invalidInvocation _ => "InvalidInvocation"
  | .compilationDatabase (.fileNotFound _) => "FileNotFound"
  | .compilationDatabase (.read _) => "ReadError"
  | .compilationDatabase (.parse _) => "ParseError"
  | .compilationDatabase .empty => "EmptyDatabase"

def message : ProjectError → String
  | .io error => "IO error: " ++ error.message
  | .notAFile path => "Not a regular file: " ++ path.text
  | .sourceRootNotFound path => "Source root directory not found: " ++ path.text
  | .invalidInvocation error => error.message
  | .compilationDatabase error => "Compilation database error: " ++ error.message

end ProjectError

def isHiddenName (name : String) : Bool := name.toList.head? == some '.'

def listSourceTree (disk : Disk) (root : Path) : Except ProjectError (SortedSet Path) :=
  match disk.resolve true root with
  | .error _ => .error (.sourceRootNotFound root)
  | .ok spot =>
    if disk.entryAt? spot ≠ some .directory then .error (.sourceRootNotFound root)
    else
      .ok (SortedSet.ofList (disk.entries.toList.filterMap (fun e =>
        match e.2 with
        | .file _ _ _ =>
          match List.isPrefixOf? spot e.1 with
          | some names =>
            if names.dropLast.any isHiddenName then none
            else some ⟨String.intercalate "/" names⟩
          | none => none
        | _ => none)))

end SymbolIndex
