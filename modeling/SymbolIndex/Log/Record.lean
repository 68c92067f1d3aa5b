import SymbolIndex.Json.Value

/-!
# Log records

What the program tells about its work. Each part of the program writes its records to the value it
works on, in the order of the work; which of them are shown is decided at the end.
-/

namespace SymbolIndex

inductive LogLevel where
  | error
  | warn
  | info
  | debug
  | trace
deriving DecidableEq, Inhabited

namespace LogLevel

def name : LogLevel → String
  | .error => "ERROR"
  | .warn => "WARN"
  | .info => "INFO"
  | .debug => "DEBUG"
  | .trace => "TRACE"

def detail : LogLevel → Nat
  | .error => 1
  | .warn => 2
  | .info => 3
  | .debug => 4
  | .trace => 5

end LogLevel

inductive LogSource where
  | program
  | configuration
  | compilationDatabase
  | process
  | complaint
  | unit
  | state
  | dependencies
  | header
  | latch
  | scheduler
  | errorLog
  | store
  | writer
  | engine
deriving DecidableEq, Inhabited

def LogSource.target : LogSource → String
  | .program => "cxref"
  | .configuration => "cxref::config"
  | .compilationDatabase => "cxref::project::compilation_database"
  | .process => "cxref::frontend::process"
  | .complaint => "cxref::frontend"
  | .unit => "cxref::index::resolver"
  | .state => "cxref::index::state"
  | .dependencies => "cxref::index::dependencies"
  | .header => "cxref::index::pch"
  | .latch => "cxref::index::latch"
  | .scheduler => "cxref::index::scheduler"
  | .errorLog => "cxref::index::diagnostics"
  | .store => "cxref::database::filesystem"
  | .writer => "cxref::database::writer"
  | .engine => "cxref::engine"

structure LogRecord where
  level : LogLevel
  source : LogSource
  message : String
  fields : List (String × String) := []
deriving DecidableEq, Inhabited

namespace LogRecord

def fieldNames (r : LogRecord) : List String := "message" :: r.fields.map Prod.fst

def line (r : LogRecord) (jsonFormat : Bool) : String :=
  if jsonFormat then
    (Json.obj [("level", .str r.level.name),
      ("fields", .obj (("message", .str r.message) :: r.fields.map (fun f => (f.1, .str f.2)))),
      ("target", .str r.source.target)]).render
  else
    r.level.name ++ " " ++ r.source.target ++ ": " ++ r.message
      ++ String.join (r.fields.map (fun f => " " ++ f.1 ++ "=" ++ f.2))

end LogRecord

end SymbolIndex
