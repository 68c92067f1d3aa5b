import SymbolIndex.Frontend.Basic

/-!
# Replayed parses

A front end that repeats recorded parses, one for each input. An input without a recording is
parsed without events.
-/

namespace SymbolIndex

structure Recording where
  events : List Event := []
  failure : Option String := none
  saveFailure : Option String := none
  crashes : Bool := false
  artifact : Option ByteArray := none
deriving DecidableEq, Inhabited

namespace Recording

def decode? (j : Json) : Option Recording := do
  let text (name : String) : Option String := (j.field? name).bind Json.str?
  return { events := ← ((j.field? "events").getD (.arr [])).list? Event.decode?
           failure := text "fail"
           saveFailure := text "save_fail"
           crashes := j.field? "panic" == some (.bool true)
           artifact := (j.field? "artifact").bind Json.bytes? }

def ending (r : Recording) (input : Path) : ParseEnd :=
  if r.crashes then .crashed
  else match r.failure with
    | some reason => .failed (.parseFailed input reason)
    | none =>
      match r.saveFailure with
      | some reason => .parsed (.unsavable reason)
      | none => .parsed (.bytes (r.artifact.getD ("unit:" ++ input.text).toUTF8))

end Recording

def Frontend.replay (recordings : SortedMap Path Recording) : Frontend := fun disk request =>
  let input := request.invocation.input
  let r := (recordings.get? input).getD {}
  { disk, events := r.events, ending := r.ending input }

end SymbolIndex
