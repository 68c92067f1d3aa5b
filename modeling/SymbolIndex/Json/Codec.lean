import SymbolIndex.Data.SortedMap
import SymbolIndex.Json.Value
import SymbolIndex.Path
import SymbolIndex.Text.Hex

/-!
# Stored forms

How values of the index are written as JSON documents and read back. A record is an object whose
unknown members are ignored, or an array with the fields in their order; a plain name may also be
written as an object with that one member and no value. What is ignored may be unreadable. A
document that names its kind is read as a whole first, so nothing in it may be.
-/

namespace SymbolIndex.Json

/-! ## Records -/

def uniqueMember? (members : List (String × Json)) (name : String) : Option (Option Json) :=
  match members.filter (fun m => m.1 == name) with
  | [] => some none
  | [m] => some (some m.2)
  | _ => none

/-- The fields `names` of a record, each absent or present. In an array the last `omissible` fields
may be left out. -/
def record? (names : List String) (omissible : Nat) : Json → Option (List (Option Json))
  | .obj members => names.mapM (uniqueMember? members)
  | .arr items =>
    if items.length ≤ names.length ∧ names.length ≤ items.length + omissible then
      some (items.map some ++ List.replicate (names.length - items.length) none)
    else none
  | _ => none

def required (decode? : Json → Option α) : Option Json → Option α
  | none => none
  | some j => decode? j

def nullable (decode? : Json → Option α) : Json → Option (Option α)
  | .null => some none
  | j => (decode? j).map some

def optional (decode? : Json → Option α) : Option Json → Option (Option α)
  | none => some none
  | some j => nullable decode? j

def defaulted (default : α) (decode? : Json → Option α) : Option Json → Option α
  | none => some default
  | some j => decode? j

/-- A document that names its kind: the member `tag` of an object or the first item of an array,
with what remains. -/
def tagged? (tag : String) (j : Json) : Option (String × Json) :=
  if j.isReadable then
    match j with
    | .obj members => do
      match ← uniqueMember? members tag with
      | some (.str kind) => return (kind, .obj (members.filter (fun m => m.1 != tag)))
      | _ => none
    | .arr (.str kind :: items) => some (kind, .arr items)
    | _ => none
  else none

/-! ## Plain values -/

def ofOption (encode : α → Json) : Option α → Json
  | none => .null
  | some a => encode a

def ofUInt32 (n : UInt32) : Json := .int n.toNat

def ofUInt64 (n : UInt64) : Json := .int n.toNat

def ofNat (n : Nat) : Json := .int n

def uint32? (j : Json) : Option UInt32 := (j.natBelow? UInt32.size).map UInt32.ofNat

def uint64? (j : Json) : Option UInt64 := (j.natBelow? UInt64.size).map UInt64.ofNat

def named? (name : α → String) (all : List α) : Json → Option α
  | .str s => all.find? (fun a => name a == s)
  | .obj [(s, .null)] => all.find? (fun a => name a == s)
  | _ => none

/-- The value whose name a part of a document with a kind gives: an empty object also counts as no
value there. -/
def namedPart? (name : α → String) (all : List α) : Json → Option α
  | .obj [(s, .obj [])] => all.find? (fun a => name a == s)
  | j => j.named? name all

def ofBytes (bytes : ByteArray) : Json :=
  match String.fromUTF8? bytes with
  | some s => .str s
  | none => .obj [("hex", .str (Text.hex bytes.toList))]

def bytes? : Json → Option ByteArray
  | .str s => some s.toUTF8
  | .obj [("hex", .str digits)] =>
    (Text.unhex? digits.toList).map (fun bytes => ⟨bytes.toArray⟩)
  | _ => none

/-! ## Collections -/

def list? (decode? : Json → Option α) (j : Json) : Option (List α) :=
  j.arr?.bind (fun items => items.mapM decode?)

def ofList (encode : α → Json) (l : List α) : Json := .arr (l.map encode)

def ofSet [Ord κ] (encode : κ → Json) (s : SortedSet κ) : Json := ofList encode s.members

def set? [Ord κ] [Std.TransOrd κ] (decode? : Json → Option κ) (j : Json) :
    Option (SortedSet κ) :=
  (list? decode? j).map SortedSet.ofList

def ofMap [Ord κ] (keyText : κ → String) (encode : υ → Json) (m : SortedMap κ υ) : Json :=
  .obj (m.toList.map (fun e => (keyText e.1, encode e.2)))

/-- Read the bindings of an object one after the other; a later one replaces an equal one. -/
def map? [Ord κ] [Std.TransOrd κ] (key : String → κ) (decode? : Json → Option υ) (j : Json) :
    Option (SortedMap κ υ) :=
  match j with
  | .obj members =>
    (members.mapM (fun m => (decode? m.2).map (fun v => (key m.1, v)))).map SortedMap.ofList
  | _ => none

end SymbolIndex.Json

namespace SymbolIndex.Path

def encode (p : Path) : Json := .str p.text

def decode? (j : Json) : Option Path := j.str?.map Path.mk

end SymbolIndex.Path
