import SymbolIndex.Log.FieldValue
import SymbolIndex.Log.Record
import SymbolIndex.Text.Affix
import SymbolIndex.Text.Bytes
import SymbolIndex.Text.Count

/-!
# Log filters

Which records are shown. A filter is a list of directives divided by commas. A directive has a
target, a span with fields in square brackets, and a level, and may lack any of them:
`target[span{field}]=level`. It is for the records whose target begins with its own and that
tell all its fields; of several directives for a record the most special one decides. This program
opens no spans, so a directive that names a span, or the value of a field, is for no record.
-/

namespace SymbolIndex

inductive FilterError where
  | malformed
  | insideCharacter (position : Nat) (text : String)
deriving DecidableEq, Inhabited

def FilterError.message : FilterError → String
  | .malformed => "invalid filter directive"
  | .insideCharacter position text =>
    let shown := String.ofList (Text.fitting 256 text.toList)
    "byte index " ++ toString position ++ " is not a char boundary of `" ++ shown ++ "`"
      ++ (if shown = text then "" else "[...]")

structure LogDirective where
  target : Option String := none
  span : Option String := none
  fields : List String := []
  detail : Nat := 5
deriving DecidableEq, Inhabited

namespace LogDirective

/-! ## Reading directives -/

/-- The detail a word stands for: a number, or a name in whatever case it is written. -/
def detail? (word : String) : Option Nat :=
  match (Text.count? word).filter (· ≤ 5) with
  | some n => some n.toNat
  | none =>
    match word.toLower with
    | "off" => some 0
    | "" | "error" => some 1
    | "warn" => some 2
    | "info" => some 3
    | "debug" => some 4
    | "trace" => some 5
    | _ => none

inductive Place where
  | start
  | word
  | span (first : Nat)
  | field (first : Nat)
  | fields
  | target
  | level (first : Nat)
deriving DecidableEq, Inhabited

structure Draft where
  place : Place := .start
  directive : LogDirective := {}
deriving DecidableEq, Inhabited

def isInitial (c : Char) : Bool :=
  Text.isAlphanumeric c || c = '-' || c = ':' || c = '_'

/-- Whether a field is well formed: it has a name, and its value is one if it has any. The value is
what stands between the first two equals signs. -/
def isField (field : String) : Bool :=
  match Text.cutAt '=' field.toList with
  | [] | [[]] => false
  | [_] => true
  | _ :: value :: _ => Log.isFieldValue value

def cut (text : List Char) (first last : Nat) : Except FilterError String :=
  match Text.slice text first last with
  | .ok part => .ok (String.ofList part)
  | .error position => .error (.insideCharacter position (String.ofList text))

def Draft.step (text : List Char) (d : Draft) (i : Nat) (c : Char) : Except FilterError Draft :=
  match d.place with
  | .start =>
    if c = '[' then .ok { d with place := .span (i + 1) }
    else if isInitial c then .ok { d with place := .word }
    else .error .malformed
  | .word =>
    if c = '=' ∨ c = '[' then do
      let target := some (← cut text 0 i)
      return { place := if c = '=' then .level (i + 1) else .span (i + 1)
               directive := { d.directive with target } }
    else .ok d
  | .span first =>
    if c = ']' then do
      let name ← cut text first i
      return { place := .target, directive := { d.directive with span := some name } }
    else if c = '\x7b' then do
      let name ← cut text first i
      return { place := .field (i + 1)
               directive := { d.directive with span := if name = "" then none else some name } }
    else .ok d
  | .field first =>
    if c = '\x7d' then do
      let name ← cut text first i
      if !isField name then .error .malformed
      else
        return { place := .fields
                 directive := { d.directive with fields := d.directive.fields ++ [name] } }
    else .ok d
  | .fields => if c = ']' then .ok { d with place := .target } else .error .malformed
  | .target => if c = '=' then .ok { d with place := .level (i + 1) } else .error .malformed
  | .level _ => .ok d

def Draft.steps (text : List Char) (d : Draft) (i : Nat) : List Char → Except FilterError Draft
  | [] => .ok d
  | c :: cs => do (← d.step text i c).steps text (i + c.utf8Size) cs

def Draft.finish (text : List Char) (d : Draft) : Except FilterError LogDirective :=
  match d.place with
  | .word =>
    let word := String.ofList text
    match detail? word with
    | some detail => .ok { d.directive with detail }
    | none => .ok { d.directive with target := some word }
  | .target => .ok d.directive
  | .level first => do
    let word ← cut text first (Text.byteLength text)
    if word = "" then return d.directive
    else match detail? word with
      | some detail => return { d.directive with detail }
      | none => .error .malformed
  | _ => .error .malformed

/-- Read a directive. Positions are counted in bytes without the white space around it, but the
parts are cut out of the text as it is, so behind wide white space a cut may miss the characters. -/
def parse (text : List Char) : Except FilterError LogDirective := do
  (← ({} : Draft).steps text 0 (Text.trim (String.ofList text)).toList).finish text

/-! ## Choosing records -/

def isStatic (d : LogDirective) : Bool :=
  d.span.isNone && d.fields.all (fun f => !f.toList.contains '=')

def fits (d : LogDirective) (r : LogRecord) : Bool :=
  d.isStatic && d.target.all (fun start => (Text.after? start r.source.target).isSome)
    && d.fields.all r.fieldNames.contains

def targetWeight (d : LogDirective) : Nat := d.target.elim 0 (fun start => start.utf8ByteSize + 1)

/-- Whether `d` is at least as special as `e`, for a record that both are for: by the length of the
target, then by the number of fields, then by their names. -/
def outweighs (d e : LogDirective) : Bool :=
  (compare d.targetWeight e.targetWeight).then
    ((compare d.fields.length e.fields.length).then (compare d.fields e.fields)) != .lt

end LogDirective

abbrev LogFilter := List LogDirective

namespace LogFilter

/-- Read a filter; the first directive that cannot be read decides how it fails. -/
def parse (text : String) : Except FilterError LogFilter :=
  ((Text.cutAt ',' text.toList).filter (· ≠ [])).mapM LogDirective.parse

/-- The directive that decides about a record: the most special one, of equal ones the last. -/
def decisive? (f : LogFilter) (r : LogRecord) : Option LogDirective :=
  f.foldl (fun best d => if d.fits r && best.all d.outweighs then some d else best) none

def keeps (f : LogFilter) (r : LogRecord) : Bool :=
  (f.decisive? r).any (fun d => r.level.detail ≤ d.detail)

end LogFilter

end SymbolIndex
