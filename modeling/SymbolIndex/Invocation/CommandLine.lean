import SymbolIndex.Invocation.Basic

/-!
# Reading compiler command lines

A command line is cut into pieces, each a flag with the value it takes or a file, and the pieces are
then sorted into the input, the output, the language and the flags that matter for the index.
-/

namespace SymbolIndex

inductive InvocationError where
  | emptyCommand
  | noInput
deriving DecidableEq, Inhabited

def InvocationError.reason : InvocationError → String
  | .emptyCommand => "empty command line"
  | .noInput => "no input file"

def InvocationError.message (e : InvocationError) : String :=
  "Invalid compiler invocation: " ++ e.reason

namespace CommandLine

def valueFlags : List String :=
  ["-D", "-U", "-I", "-include", "-imacros", "-isystem", "-iquote", "-idirafter", "-isysroot",
    "-target", "-arch", "-x", "-o"]

def dependencyValueFlags : List String := ["-MF", "-MT", "-MQ"]

def dependencyFlags : List String := ["-M", "-MM", "-MD", "-MMD", "-MP", "-MG"]

inductive Shape where
  | ignored
  | ignoredWithValue
  | output
  | joinedOutput (value : String)
  | language
  | joinedLanguage (value : String)
  | valued
  | option
  | positional
deriving DecidableEq

def shape (arg : String) : Shape :=
  if arg = "-c" ∨ arg ∈ dependencyFlags then .ignored
  else if arg ∈ dependencyValueFlags then .ignoredWithValue
  else if arg = "-o" then .output
  else if arg = "-x" then .language
  else match Text.after? "-o" arg with
    | some value => .joinedOutput value
    | none =>
      if arg ∈ valueFlags then .valued
      else match Text.after? "-x" arg with
        | some value => .joinedLanguage value
        | none => if (Text.after? "-" arg).isSome then .option else .positional

inductive Piece where
  | dropped (args : List String)
  | output (value : Option String)
  | language (value : String)
  | joinedLanguage (value : String)
  | valued (flag : String) (value : Option String)
  | option (arg : String)
  | positional (arg : String)
deriving DecidableEq

def pieces : List String → List Piece
  | [] => []
  | arg :: rest =>
    match shape arg with
    | .ignored => .dropped [arg] :: pieces rest
    | .ignoredWithValue =>
      match rest with
      | [] => [.dropped [arg]]
      | value :: rest => .dropped [arg, value] :: pieces rest
    | .output =>
      match rest with
      | [] => [.output none]
      | value :: rest => .output (some value) :: pieces rest
    | .joinedOutput value => .output (some value) :: pieces rest
    | .language =>
      match rest with
      | [] => [.dropped [arg]]
      | value :: rest => .language value :: pieces rest
    | .joinedLanguage value => .joinedLanguage value :: pieces rest
    | .valued =>
      match rest with
      | [] => [.valued arg none]
      | value :: rest => .valued arg (some value) :: pieces rest
    | .option => .option arg :: pieces rest
    | .positional => .positional arg :: pieces rest

structure Reading where
  arguments : List String := []
  positional : Option Path := none
  output : Option Path := none
  language : Option Language := none

/-- Take in one piece. Without an explicit input the last file is the input and the files before it
are arguments; with one, the files that are not the input are arguments. -/
def absorb (directory : Path) (explicitInput : Option Path) (r : Reading) : Piece → Reading
  | .dropped _ => r
  | .output value => { r with output := value.map (directory.child ·) }
  | .language value =>
    { r with
      language := some (Language.ofFlag value)
      arguments := r.arguments ++ ["-x", value] }
  | .joinedLanguage value =>
    { r with
      language := some (Language.ofFlag value)
      arguments := r.arguments ++ ["-x" ++ value] }
  | .valued flag value => { r with arguments := r.arguments ++ flag :: value.toList }
  | .option arg => { r with arguments := r.arguments ++ [arg] }
  | .positional arg =>
    let candidate := directory.child arg
    match explicitInput with
    | some input =>
      if input.same candidate then r else { r with arguments := r.arguments ++ [arg] }
    | none =>
      { r with
        positional := some candidate
        arguments := r.arguments ++ (r.positional.map Path.text).toList }

end CommandLine

namespace Invocation

/-- The invocation that a command line in `directory` describes. A given `file` is the input
whatever the line says, and a given `output` goes before `-o`. -/
def ofCommand (directory : Path) (command : List String) (file output : Option Path) :
    Except InvocationError Invocation :=
  match command with
  | [] => .error .emptyCommand
  | compiler :: args =>
    let explicitInput := file.map (directory.join ·)
    let r := (CommandLine.pieces args).foldl (CommandLine.absorb directory explicitInput) {}
    match explicitInput <|> r.positional with
    | none => .error .noInput
    | some input =>
      .ok
        { directory
          compiler
          input
          output := (output.map (directory.join ·)) <|> r.output
          language := (r.language.filter (· ≠ .undefined)).getD (Language.guess input)
          arguments := r.arguments }

end Invocation

end SymbolIndex
