import SymbolIndex.Invocation.Basic
import SymbolIndex.Text.Blank
import SymbolIndex.Text.Count

/-!
# Configuration

Where the database is, how many units are parsed at once, and what is added to every command line.
Values come from the environment first and from the command line on top.
-/

namespace SymbolIndex

structure Flags where
  verbose : Bool := false
  /-- Neither build nor use precompiled headers. -/
  disablePch : Bool := false
  dontIndex : Bool := false
  systemHeaderDependencies : Bool := false
  debugAllSymbols : Bool := false
deriving DecidableEq, Inhabited

def Flags.or (f g : Flags) : Flags :=
  { verbose := f.verbose || g.verbose
    disablePch := f.disablePch || g.disablePch
    dontIndex := f.dontIndex || g.dontIndex
    systemHeaderDependencies := f.systemHeaderDependencies || g.systemHeaderDependencies
    debugAllSymbols := f.debugAllSymbols || g.debugAllSymbols }

def Flags.encode (f : Flags) : Json :=
  .obj [("verbose", .bool f.verbose), ("disable_pch", .bool f.disablePch),
    ("dont_index", .bool f.dontIndex),
    ("system_header_dependencies", .bool f.systemHeaderDependencies),
    ("debug_all_symbols", .bool f.debugAllSymbols)]

def Flags.ofNames (names : List String) : Flags :=
  { verbose := names.contains "verbose"
    disablePch := names.contains "disable_pch"
    dontIndex := names.contains "dont_index"
    systemHeaderDependencies := names.contains "system_header_dependencies"
    debugAllSymbols := names.contains "debug_all_symbols" }

abbrev Environment := SortedMap String String

structure Config where
  dbPath : Path := ⟨".cxref"⟩
  /-- The number of units parsed at once, the machine's own number when not given. -/
  concurrency : Option UInt64 := none
  flags : Flags := {}
  extraDefines : List String := []
  includePaths : List Path := []
  systemIncludes : List Path := [⟨"/usr/include"⟩, ⟨"/usr/local/include"⟩]
  stagingDir : Option Path := none
deriving DecidableEq, Inhabited

structure ConfigOverrides where
  dbPath : Option Path := none
  concurrency : Option UInt64 := none
  flags : Flags := {}
  extraDefines : List String := []
  includePaths : List Path := []
  systemIncludes : List Path := []
deriving DecidableEq, Inhabited

namespace Config

/-- A number of workers: white space around it is ignored and zero is refused. -/
def parseThreadCount? (s : String) : Option UInt64 :=
  (Text.count? (Text.trim s)).filter (· ≠ 0)

def ofEnvironment (env : Environment) : Config :=
  let nonEmpty (name : String) : Option Path :=
    ((env.get? name).filter (· ≠ "")).map Path.mk
  { concurrency := (env.get? "CXREF_THREAD_COUNT").bind parseThreadCount?
    dbPath := (nonEmpty "CXREF_DB").getD ⟨".cxref"⟩
    stagingDir := nonEmpty "CXREF_STAGING_DIR" }

def override (c : Config) (o : ConfigOverrides) : Config :=
  { c with
    dbPath := o.dbPath.getD c.dbPath
    concurrency := (o.concurrency.filter (· ≠ 0)) <|> c.concurrency
    flags := c.flags.or o.flags
    extraDefines := c.extraDefines ++ o.extraDefines
    includePaths := c.includePaths ++ o.includePaths
    systemIncludes := c.systemIncludes ++ o.systemIncludes }

def stagingPath (c : Config) : Path := c.stagingDir.getD (c.dbPath.child "staging")

def frontendArguments (c : Config) (i : Invocation) : List String :=
  i.arguments ++ c.extraDefines.map ("-D" ++ ·) ++ c.includePaths.map ("-I" ++ ·.text)
    ++ c.systemIncludes.flatMap (fun p => ["-isystem", p.text])

def encode (c : Config) : Json :=
  .obj [("db_path", c.dbPath.encode),
    ("concurrency", match c.concurrency with
      | some n => .ofUInt64 n
      | none => .str "default"),
    ("flags", c.flags.encode), ("extra_defines", .ofList .str c.extraDefines),
    ("include_paths", .ofList Path.encode c.includePaths),
    ("system_includes", .ofList Path.encode c.systemIncludes),
    ("staging_dir", .ofOption Path.encode c.stagingDir), ("staging_path", c.stagingPath.encode)]

end Config

end SymbolIndex
