/-!
# Letters

Bytes that are meant to be text, but need not be. They are read as letters: a character, or one
byte that belongs to no character. The letters of a proper text are its characters.
-/

namespace SymbolIndex.Text

abbrev Letter := Option Char

def letters (s : String) : List Letter := s.toList.map some

def leading? (bytes : List UInt8) : Option (Char × Nat) :=
  [1, 2, 3, 4].findSome? (fun width =>
    (String.fromUTF8? ⟨(bytes.take width).toArray⟩).bind (fun s =>
      s.toList.head?.map (fun c => (c, width))))

def damagedLetters (skip : Nat) : List UInt8 → List Letter
  | [] => []
  | b :: rest =>
    match skip with
    | skip + 1 => damagedLetters skip rest
    | 0 =>
      match leading? (b :: rest) with
      | some (c, width) => some c :: damagedLetters (width - 1) rest
      | none => none :: damagedLetters 0 rest

def lettersOfBytes (bytes : ByteArray) : List Letter :=
  match String.fromUTF8? bytes with
  | some s => letters s
  | none => damagedLetters 0 bytes.toList

end SymbolIndex.Text
