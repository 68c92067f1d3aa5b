import SymbolIndex.Config

/-!
# Logging

Which messages are logged and where to: by environment variables first, by the command line on top.
-/

namespace SymbolIndex

structure LogConfig where
  filter : String := "warn,cxref=info"
  filePath : Option Path := none
  jsonFormat : Bool := false
deriving DecidableEq, Inhabited

namespace LogConfig

def withProcessId (p : Path) (pid : String) : Path :=
  match p.stem? with
  | none => p
  | some stem =>
    match p.extension? with
    | some ext => p.withFileName (stem ++ "." ++ pid ++ "." ++ ext)
    | none => p.withFileName (stem ++ "." ++ pid)

def isOn (env : Environment) (name : String) : Bool := env.get? name == some "true"

def ofEnvironment (env : Environment) (pid : String) : LogConfig :=
  { filter := (env.get? "RUST_LOG").getD "warn,cxref=info"
    filePath := (env.get? "CXREF_LOG_FILE").map (fun name =>
      if isOn env "CXREF_LOG_UNIQUE" then withProcessId ⟨name⟩ pid else ⟨name⟩)
    jsonFormat := isOn env "CXREF_LOG_JSON" }

def override (c : LogConfig) (filter : Option String) (filePath : Option Path)
    (jsonFormat : Bool) : LogConfig :=
  { filter := filter.getD c.filter
    filePath := filePath <|> c.filePath
    jsonFormat := c.jsonFormat || jsonFormat }

end LogConfig

end SymbolIndex
