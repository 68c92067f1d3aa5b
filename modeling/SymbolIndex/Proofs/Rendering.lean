import Mathlib.Data.List.TakeDrop
import SymbolIndex.Json.Reader

/-!
# Reading back what was written

The text of a document is read back as the document, so what a database holds under a key is what
was put there. The documents in question are those that `Fits` describes: integers of 64 bits,
strings, and containers that are not nested too deep. Every statement is about a text with something
behind it, since that is how the reader meets the parts of a document; a number needs to know in
addition that what is behind it does not belong to it.
-/

namespace SymbolIndex

open List Nat Option

namespace Text

theorem lettersOfBytes_toUTF8 (s : String) : lettersOfBytes s.toUTF8 = letters s := by
  have hread : String.fromUTF8? s.toUTF8 = some s := dif_pos s.isValidUTF8
  unfold lettersOfBytes
  rw [hread]

@[simp] theorem letters_append (s t : String) : letters (s ++ t) = letters s ++ letters t := by
  unfold letters
  rw [String.toList_append, map_append]

end Text

namespace Json

open Text

/-! ## Strings -/

theorem hexValue?_hexDigit : ∀ n < 16, hexValue? (hexDigit n) = some n := by decide

variable {n depth : Nat} {c : Char} {i : Int} {rest : List Letter}
  {item : List Letter → Option (Json × List Letter)} {j : Json}

theorem hex4?_hexDigit (h : n < 32) (rest : List Letter) :
    hex4? (some '0' :: some '0' :: some (hexDigit (n / 16)) :: some (hexDigit (n % 16)) :: rest)
      = some (n, rest) := by
  have hhigh := hexValue?_hexDigit (n / 16) (by omega)
  have hlow := hexValue?_hexDigit (n % 16) (by omega)
  have hzero : hexValue? '0' = some 0 := rfl
  unfold hex4?
  simp only [hhigh, hlow, hzero, bind, Option.bind, pure, Option.some.injEq, Prod.mk.injEq,
    and_true]
  omega

theorem stringBody?_plain (hquote : c ≠ '"') (hslash : c ≠ '\\') (hctrl : ¬ c.toNat < 32)
    (fuel : Nat) (acc rest : List Letter) :
    stringBody? (fuel + 1) acc (some c :: rest) = stringBody? fuel (some c :: acc) rest := by
  rw [stringBody?.eq_def]
  simp [hquote, hslash]
  omega

theorem stringBody?_escapeChar (fuel : Nat) (acc rest : List Letter) (c : Char) :
    stringBody? (fuel + 1) acc ((escapeChar c).map some ++ rest)
      = stringBody? fuel (some c :: acc) rest := by
  unfold escapeChar
  split
  · next h => subst h; rfl
  split
  · next h => subst h; rfl
  split
  · next h => subst h; rfl
  split
  · next h => subst h; rfl
  split
  · next h => subst h; rfl
  split
  · next h => subst h; rfl
  split
  · next h => subst h; rfl
  split
  · next hctrl =>
    have hunit : unitLetter c.toNat rest = (some c, rest) := by
      unfold unitLetter
      rw [if_neg (by omega), if_neg (by omega), Char.ofNat_toNat]
    have hescape : escape? (some 'u' :: some '0' :: some '0' :: some (hexDigit (c.toNat / 16))
        :: some (hexDigit (c.toNat % 16)) :: rest) = some (some c, rest) := by
      rw [← hunit]
      exact congrArg (Option.map _) (hex4?_hexDigit hctrl rest)
    exact congrArg (· >>= fun e => stringBody? fuel (e.1 :: acc) e.2) hescape
  · next hquote hslash _ _ _ _ _ hctrl => exact stringBody?_plain hquote hslash hctrl fuel acc rest

theorem stringBody?_escaped (cs : List Char) (fuel : Nat) (h : cs.length < fuel)
    (acc rest : List Letter) :
    stringBody? fuel acc ((cs.flatMap escapeChar).map some ++ some '"' :: rest)
      = some (acc.reverse ++ cs.map some, rest) := by
  induction cs generalizing fuel acc with
  | nil =>
    obtain ⟨fuel, rfl⟩ := Nat.exists_eq_add_of_lt h
    simp [stringBody?]
  | cons _ _ ih =>
    obtain _ | fuel := fuel
    · omega
    rw [flatMap_cons, map_append, append_assoc, stringBody?_escapeChar,
      ih fuel (by simpa using h)]
    simp

theorem length_le_flatMap_escapeChar (cs : List Char) :
    cs.length ≤ (cs.flatMap escapeChar).length := by
  induction cs with
  | nil => simp
  | cons c =>
    have hone : 1 ≤ (escapeChar c).length := by
      unfold escapeChar
      repeat' split
      all_goals simp
    simp only [flatMap_cons, length_append, length_cons]
    omega

theorem string?_escaped (s : String) (rest : List Letter) :
    string? ((s.toList.flatMap escapeChar).map some ++ some '"' :: rest) = some (some s, rest) := by
  have hfuel : s.toList.length
      < ((s.toList.flatMap escapeChar).map some ++ some '"' :: rest).length + 1 := by
    have := length_le_flatMap_escapeChar s.toList
    simp only [length_append, length_map]
    omega
  have htext : textOf? (s.toList.map some) = some s := by
    have hmap : ∀ cs : List Char, (cs.map some).mapM (fun l => l) = some cs := by
      intro cs
      induction cs with
      | nil => rfl
      | cons _ _ ih => simp [ih]
    unfold textOf?
    rw [hmap, map_some, String.ofList_toList]
  unfold string?
  rw [stringBody?_escaped _ _ hfuel]
  simp [htext]

theorem letters_quote (s : String) :
    letters (quote s) = some '"' :: (s.toList.flatMap escapeChar).map some ++ [some '"'] := by
  unfold quote letters
  simp

/-! ## Numbers -/

def Ends (ls : List Letter) : Prop := ∀ l, ls.head? = some l → isNumberLetter l = false

theorem isDigit_of_mem_repr (h : c ∈ n.repr.toList) : isDigit c = true := by
  rw [Nat.toList_repr] at h
  have hdigit := isDigit_of_mem_toDigits (by omega) (by omega) h
  simpa [isDigit, Char.isDigit, UInt32.le_iff_toNat_le] using hdigit

theorem digitsValue_repr (n : Nat) : digitsValue n.repr.toList = n := by
  have h := Nat.ofDigitChars_toDigits (n := n) (show 1 < 10 by omega) (Nat.le_refl 10)
  rw [Nat.ofDigitChars_eq_foldl] at h
  unfold digitsValue digitValue
  rw [Nat.toList_repr]
  simpa [Nat.mul_comm] using h

theorem head?_repr (h : 0 < n) : n.repr.toList.head? ≠ some '0' := by
  rw [Nat.toList_repr]
  induction n using Nat.strongRecOn with
  | ind n ih =>
    by_cases hlt : n < 10
    · have hdigit : ∀ k < 10, 0 < k → [k.digitChar].head? ≠ some '0' := by decide
      rw [toDigits_of_lt_base hlt]
      exact hdigit n hlt h
    · have hhead := ih (n / 10) (by omega) (by omega)
      rw [toDigits_of_base_le (by omega) (by omega), head?_append]
      cases hfirst : (Nat.toDigits 10 (n / 10)).head? with
      | none => exact absurd (head?_eq_none_iff.mp hfirst) toDigits_ne_nil
      | some => rwa [hfirst] at hhead

theorem span_append {α : Type u} {p : α → Bool} {row rest : List α} (hrow : ∀ a ∈ row, p a = true)
    (hrest : ∀ a, rest.head? = some a → p a = false) : (row ++ rest).span p = (row, rest) := by
  have hstop : rest.takeWhile p = [] ∧ rest.dropWhile p = rest := by
    cases rest with
    | nil => exact ⟨rfl, rfl⟩
    | cons a => simp [hrest a rfl]
  rw [span_eq_takeWhile_dropWhile, takeWhile_append_of_pos hrow,
    dropWhile_append_of_pos hrow, hstop.1, hstop.2, append_nil]

theorem whole?_repr (n : Nat) : Numeral.whole? n.repr.toList = some (n.repr.toList, []) := by
  have hspan : n.repr.toList.span isDigit = (n.repr.toList, []) := by
    have h : (n.repr.toList ++ []).span isDigit = (n.repr.toList, []) :=
      span_append (fun c hc => isDigit_of_mem_repr hc) (by simp)
    rwa [append_nil] at h
  unfold Numeral.whole?
  rw [hspan]
  by_cases hzero : n = 0
  · subst hzero
    rfl
  · have hhead := head?_repr (n := n) (by omega)
    cases hrow : n.repr.toList with
    | nil => rw [Nat.toList_repr] at hrow; exact absurd hrow toDigits_ne_nil
    | cons =>
      rw [hrow] at hhead
      split <;> simp_all

theorem parse?_repr (n : Nat) (negative : Bool) :
    Numeral.parse? ((if negative then ['-'] else []) ++ n.repr.toList)
      = some { negative, whole := n.repr.toList } := by
  have hsign : ∀ cs, n.repr.toList ≠ '-' :: cs := by
    intro cs h
    have hdigit : isDigit '-' = true := isDigit_of_mem_repr (n := n) (by rw [h]; simp)
    cases hdigit
  have hwhole := whole?_repr n
  generalize n.repr.toList = digits at hsign hwhole
  unfold Numeral.parse?
  cases negative with
  | true => simp [hwhole, Numeral.fraction?, Numeral.exponent?]
  | false =>
    simp [hwhole, Numeral.fraction?, Numeral.exponent?]

theorem number?_toString (hlow : -9223372036854775808 ≤ i) (hhigh : i < 18446744073709551616) :
    number? (toString i).toList = some (.int i) := by
  rw [Int.toString_eq_repr, Int.repr_eq_if]
  unfold number?
  by_cases hsign : 0 ≤ i
  · have hparse := parse?_repr i.toNat false
    have hsize : i.toNat < Nat.pow 2 64 := by
      show _ < 18446744073709551616
      omega
    simp only [Bool.false_eq_true, if_false, nil_append] at hparse
    rw [if_pos hsign, hparse, map_some]
    unfold Numeral.document
    rw [digitsValue_repr, if_pos ⟨⟨rfl, rfl⟩, rfl, hsize⟩, Int.toNat_of_nonneg hsign]
  · have hparse := parse?_repr (-i).toNat true
    have hsize : (-i).toNat ≤ Nat.pow 2 63 := by
      show _ ≤ 9223372036854775808
      omega
    simp only [if_true] at hparse
    rw [if_neg hsign, String.toList_append, show "-".toList = ['-'] from rfl, hparse,
      map_some]
    unfold Numeral.document
    rw [digitsValue_repr, if_neg (by simp), if_pos ⟨⟨rfl, rfl⟩, rfl, by omega, hsize⟩,
      Int.toNat_of_nonneg (by omega), Int.neg_neg]

def IsSpelling (c : Char) : Prop := isDigit c = true ∨ c = '-'

theorem isSpelling_of_mem_toString (h : c ∈ (toString i).toList) : IsSpelling c := by
  rw [Int.toString_eq_repr, Int.repr_eq_if] at h
  split at h
  · exact .inl (isDigit_of_mem_repr h)
  · rw [String.toList_append, mem_append] at h
    rcases h with h | h
    · exact .inr (mem_singleton.mp h)
    · exact .inl (isDigit_of_mem_repr h)

theorem isNumberLetter_of_isSpelling (h : IsSpelling c) : isNumberLetter (some c) = true := by
  unfold isNumberLetter
  rcases h with h | rfl
  · simp [h]
  · decide

theorem toString_ne_nil (i : Int) : (toString i).toList ≠ [] := by
  rw [Int.toString_eq_repr, Int.repr_eq_if]
  split
  · rw [Nat.toList_repr]
    exact toDigits_ne_nil
  · simp

theorem leadingNumber?_toString (hlow : -9223372036854775808 ≤ i) (hhigh : i < 18446744073709551616)
    (hrest : Ends rest) : leadingNumber? (letters (toString i) ++ rest) = some (.int i, rest) := by
  have hrow : ∀ l ∈ letters (toString i), isNumberLetter l = true := by
    intro l hl
    obtain ⟨c, hc, rfl⟩ := mem_map.mp hl
    exact isNumberLetter_of_isSpelling (isSpelling_of_mem_toString hc)
  have hspelling : (letters (toString i)).filterMap (fun l => l) = (toString i).toList := by
    unfold letters
    rw [filterMap_map]
    exact filterMap_some
  unfold leadingNumber?
  rw [span_append hrow hrest]
  simp only [hspelling, number?_toString hlow hhigh, map_some]

/-! ## Scalars -/

def Begins (c : Char) : Prop := isBlank (some c) = false ∧ c ≠ '[' ∧ c ≠ '\x7b'

theorem skipBlanks_cons (h : isBlank (some c) = false) (ls : List Letter) :
    skipBlanks (some c :: ls) = some c :: ls := by
  unfold skipBlanks
  rw [dropWhile_cons, h]
  rfl

theorem value?_of_begins (h : Begins c) (depth : Nat) (ls : List Letter) :
    value? depth (some c :: ls) = scalar? (some c :: ls) := by
  obtain ⟨hblank, harr, hobj⟩ := h
  rw [value?.eq_def, skipBlanks_cons hblank]
  split
  · next heq => simp_all
  · next heq => simp_all
  · rfl

theorem not_of_isSpelling (h : IsSpelling c) :
    Begins c ∧ c ≠ 'n' ∧ c ≠ 't' ∧ c ≠ 'f' ∧ c ≠ '"' := by
  rcases h with h | rfl
  · refine ⟨⟨?_, ?_, ?_⟩, ?_, ?_, ?_, ?_⟩
    · rw [← Bool.not_eq_true]
      intro hblank
      unfold isBlank at hblank
      rcases of_decide_eq_true hblank with hc | hc | hc | hc <;>
        (obtain rfl := some.inj hc; exact absurd h (by decide))
    all_goals rintro rfl; cases h
  · unfold Begins
    decide

theorem scalar?_of_isSpelling (h : IsSpelling c) (ls : List Letter) :
    scalar? (some c :: ls) = leadingNumber? (some c :: ls) := by
  obtain ⟨-, hn, ht, hf, hq⟩ := not_of_isSpelling h
  unfold scalar?
  split <;> simp_all

theorem value?_toString (hlow : -9223372036854775808 ≤ i) (hhigh : i < 18446744073709551616)
    (depth : Nat) (hrest : Ends rest) :
    value? depth (letters (toString i) ++ rest) = some (.int i, rest) := by
  rw [← leadingNumber?_toString hlow hhigh hrest]
  cases hchars : (toString i).toList with
  | nil => exact absurd hchars (toString_ne_nil i)
  | cons c cs =>
    have hc : IsSpelling c := isSpelling_of_mem_toString (by rw [hchars]; exact mem_cons_self ..)
    have hletters : letters (toString i) = some c :: cs.map some := by
      unfold letters
      rw [hchars]
      rfl
    rw [hletters, cons_append, value?_of_begins (not_of_isSpelling hc).1, scalar?_of_isSpelling hc]

theorem value?_quote (s : String) (depth : Nat) (rest : List Letter) :
    value? depth (letters (quote s) ++ rest) = some (.str s, rest) := by
  have hbegins : Begins '"' := by
    unfold Begins
    decide
  rw [letters_quote, cons_append, cons_append, append_assoc, singleton_append,
    value?_of_begins hbegins]
  show (string? _).map _ = _
  rw [string?_escaped]
  rfl

/-! ## Containers -/

/-- A document that its text gives back: all of it has a value, and no container is nested deeper
than `depth`. -/
inductive Fits : Nat → Json → Prop where
  | null {depth : Nat} : Fits depth .null
  | bool {depth : Nat} (value : Bool) : Fits depth (.bool value)
  | int {depth : Nat} {value : Int} : -9223372036854775808 ≤ value →
      value < 18446744073709551616 → Fits depth (.int value)
  | str {depth : Nat} (text : String) : Fits depth (.str text)
  | arr {depth : Nat} {items : List Json} : (∀ j ∈ items, Fits depth j) →
      Fits (depth + 1) (.arr items)
  | obj {depth : Nat} {members : List (String × Json)} : (∀ m ∈ members, Fits depth m.2) →
      Fits (depth + 1) (.obj members)

theorem ends_cons (h : isNumberLetter (some c) = false) (ls : List Letter) :
    Ends (some c :: ls) := by
  intro l hl
  cases hl
  exact h

def Reads (item : List Letter → Option (Json × List Letter)) (j : Json) : Prop :=
  ∀ rest, Ends rest → item (letters j.render ++ rest) = some (j, rest)

theorem renderItems_cons_cons (j k : Json) (js : List Json) :
    renderItems (j :: k :: js) = j.render ++ "," ++ renderItems (k :: js) := by
  rw [renderItems]
  simp

theorem items?_render (js : List Json) (j : Json) (h : ∀ k ∈ j :: js, Reads item k) (fuel : Nat)
    (hfuel : js.length < fuel) (acc : List Json) (rest : List Letter) :
    items? item fuel acc (letters (renderItems (j :: js)) ++ some ']' :: rest)
      = some (acc.reverse ++ j :: js, rest) := by
  induction js generalizing j fuel acc with
  | nil =>
    obtain _ | fuel := fuel
    · omega
    have hj := h j (mem_cons_self ..) (some ']' :: rest) (ends_cons (by decide) _)
    rw [items?, renderItems, hj]
    simp [skipBlanks_cons (c := ']') (by decide)]
  | cons k js ih =>
    obtain _ | fuel := fuel
    · omega
    have hj := h j (mem_cons_self ..)
      (some ',' :: (letters (renderItems (k :: js)) ++ some ']' :: rest)) (ends_cons (by decide) _)
    have hrest := ih k (fun i hi => h i (mem_cons_of_mem _ hi)) fuel (by simpa using hfuel)
      (j :: acc)
    rw [items?, renderItems_cons_cons, letters_append, letters_append, append_assoc,
      append_assoc, show letters "," = [some ','] from rfl, singleton_append, hj]
    simp only [bind, Option.bind, skipBlanks_cons (c := ',') (by decide)]
    rw [hrest]
    simp

theorem renderMembers_cons_cons (m n : String × Json) (ms : List (String × Json)) :
    renderMembers (m :: n :: ms)
      = quote m.1 ++ ":" ++ m.2.render ++ "," ++ renderMembers (n :: ms) := by
  obtain ⟨name, j⟩ := m
  rw [renderMembers]
  simp

theorem afterName?_quote (name : String) (rest : List Letter) :
    afterName? (letters (quote name) ++ some ':' :: rest) = some (some name, rest) := by
  unfold afterName?
  rw [letters_quote, cons_append, cons_append, append_assoc, singleton_append,
    skipBlanks_cons (by decide)]
  simp only
  rw [string?_escaped]
  simp [skipBlanks_cons (c := ':') (by decide)]

theorem members?_render (ms : List (String × Json)) (m : String × Json)
    (h : ∀ n ∈ m :: ms, Reads item n.2) (fuel : Nat) (hfuel : ms.length < fuel)
    (acc : List RawMember) (rest : List Letter) :
    members? item fuel acc (letters (renderMembers (m :: ms)) ++ some '\x7d' :: rest)
      = some (acc.reverse ++ (m :: ms).map (fun n => (some n.1, n.2)), rest) := by
  induction ms generalizing m fuel acc with
  | nil =>
    obtain _ | fuel := fuel
    · omega
    obtain ⟨name, j⟩ := m
    have hj := h (name, j) (mem_cons_self ..) (some '\x7d' :: rest) (ends_cons (by decide) _)
    rw [members?, renderMembers, letters_append, letters_append, append_assoc,
      append_assoc, show letters ":" = [some ':'] from rfl, singleton_append,
      afterName?_quote]
    simp only [bind, Option.bind, hj, skipBlanks_cons (c := '\x7d') (by decide)]
    simp
  | cons n ms ih =>
    obtain _ | fuel := fuel
    · omega
    have hj := h m (mem_cons_self ..)
      (some ',' :: (letters (renderMembers (n :: ms)) ++ some '\x7d' :: rest))
      (ends_cons (by decide) _)
    have hrest := ih n (fun i hi => h i (mem_cons_of_mem _ hi)) fuel (by simpa using hfuel)
      ((some m.1, m.2) :: acc)
    rw [members?, renderMembers_cons_cons]
    simp only [letters_append, append_assoc, show letters ":" = [some ':'] from rfl,
      show letters "," = [some ','] from rfl, cons_append, nil_append, afterName?_quote,
      bind, Option.bind, hj, skipBlanks_cons (c := ',') (by decide)]
    rw [hrest]
    simp

theorem objectOf_named (ms : List (String × Json)) :
    objectOf (ms.map (fun n => (some n.1, n.2))) = .obj ms := by
  have hmap : (ms.map (fun n => ((some n.1, n.2) : RawMember))).mapM RawMember.named? = some ms := by
    induction ms with
    | nil => rfl
    | cons _ _ ih => simp [ih, RawMember.named?]
  unfold objectOf
  rw [hmap]
  rfl

theorem length_renderItems (js : List Json) (j : Json) :
    js.length ≤ (letters (renderItems (j :: js))).length := by
  induction js generalizing j with
  | nil => simp
  | cons k _ ih =>
    have := ih k
    rw [renderItems_cons_cons, letters_append, letters_append, show letters "," = [some ','] from rfl]
    simp only [length_append, length_cons, length_nil]
    omega

theorem length_renderMembers (ms : List (String × Json)) (m : String × Json) :
    ms.length ≤ (letters (renderMembers (m :: ms))).length := by
  induction ms generalizing m with
  | nil => simp
  | cons n _ ih =>
    have := ih n
    rw [renderMembers_cons_cons, letters_append, letters_append,
      show letters "," = [some ','] from rfl]
    simp only [length_append, length_cons, length_nil]
    omega

theorem Fits.begins (h : Fits depth j) :
    ∃ c ls, letters j.render = some c :: ls ∧ isBlank (some c) = false ∧ c ≠ ']' := by
  cases h with
  | null => exact ⟨_, _, rfl, by decide, by decide⟩
  | bool value => cases value <;> exact ⟨_, _, rfl, by decide, by decide⟩
  | @int _ i _ _ =>
    cases hchars : (toString i).toList with
    | nil => exact absurd hchars (toString_ne_nil i)
    | cons c cs =>
      have hc : IsSpelling c :=
        isSpelling_of_mem_toString (by rw [hchars]; exact mem_cons_self ..)
      refine ⟨c, cs.map some, ?_, (not_of_isSpelling hc).1.1, ?_⟩
      · rw [render]
        unfold letters
        rw [hchars]
        rfl
      · rintro rfl
        rcases hc with hc | hc <;> cases hc
  | str =>
    rw [render, letters_quote]
    exact ⟨_, _, rfl, by decide, by decide⟩
  | arr =>
    rw [render, letters_append, letters_append]
    exact ⟨_, _, rfl, by decide, by decide⟩
  | obj =>
    rw [render, letters_append, letters_append]
    exact ⟨_, _, rfl, by decide, by decide⟩

theorem Fits.begins_items (h : Fits depth j) (js : List Json) :
    ∃ c ls, letters (renderItems (j :: js)) = some c :: ls ∧ isBlank (some c) = false
      ∧ c ≠ ']' := by
  obtain ⟨c, ls, hletters, hblank, hclose⟩ := h.begins
  cases js with
  | nil => exact ⟨c, ls, by rw [renderItems, hletters], hblank, hclose⟩
  | cons k js =>
    refine ⟨c, ls ++ (letters "," ++ letters (renderItems (k :: js))), ?_, hblank, hclose⟩
    rw [renderItems_cons_cons, letters_append, letters_append, hletters, append_assoc,
      cons_append]

theorem begins_members (m : String × Json) (ms : List (String × Json)) :
    ∃ ls, letters (renderMembers (m :: ms)) = some '"' :: ls := by
  cases ms with
  | nil =>
    obtain ⟨name, j⟩ := m
    rw [renderMembers, letters_append, letters_append, letters_quote]
    exact ⟨_, rfl⟩
  | cons =>
    simp only [renderMembers_cons_cons, letters_append, letters_quote]
    exact ⟨_, rfl⟩

theorem value?_arr {items : List Json} (hfits : ∀ j ∈ items, Fits depth j)
    (h : ∀ j ∈ items, Reads (value? depth) j) (rest : List Letter) :
    value? (depth + 1) (letters (render (.arr items)) ++ rest) = some (.arr items, rest) := by
  rw [render, letters_append, letters_append, value?.eq_def, append_assoc, append_assoc,
    show letters "[" = [some '['] from rfl, show letters "]" = [some ']'] from rfl,
    singleton_append, singleton_append, skipBlanks_cons (by decide)]
  simp only
  cases items with
  | nil =>
    rw [show letters (renderItems []) = [] from rfl, nil_append, skipBlanks_cons (by decide)]
    rfl
  | cons j js =>
    have hitems := items?_render js j h
      (letters (renderItems (j :: js)) ++ some ']' :: rest).length (by
        have := length_renderItems js j
        simp only [length_append, length_cons]
        omega) [] rest
    obtain ⟨c, ls, hletters, hblank, hclose⟩ := (hfits j (mem_cons_self ..)).begins_items js
    rw [hletters, cons_append] at hitems ⊢
    rw [skipBlanks_cons hblank]
    split
    · next heq => exact absurd (some.inj (List.cons.inj heq).1) hclose
    · rw [hitems]
      rfl

theorem value?_obj {members : List (String × Json)} (h : ∀ m ∈ members, Reads (value? depth) m.2)
    (rest : List Letter) :
    value? (depth + 1) (letters (render (.obj members)) ++ rest) = some (.obj members, rest) := by
  rw [render, letters_append, letters_append, value?.eq_def, append_assoc, append_assoc,
    show letters "\x7b" = [some '\x7b'] from rfl, show letters "\x7d" = [some '\x7d'] from rfl,
    singleton_append, singleton_append, skipBlanks_cons (by decide)]
  simp only
  cases members with
  | nil =>
    rw [show letters (renderMembers []) = [] from rfl, nil_append, skipBlanks_cons (by decide)]
    rfl
  | cons m ms =>
    have hmembers := members?_render ms m h
      (letters (renderMembers (m :: ms)) ++ some '\x7d' :: rest).length (by
        have := length_renderMembers ms m
        simp only [length_append, length_cons]
        omega) [] rest
    obtain ⟨ls, hletters⟩ := begins_members m ms
    rw [hletters, cons_append] at hmembers ⊢
    rw [skipBlanks_cons (by decide)]
    show (members? _ _ _ _).map _ = _
    rw [hmembers, map_some, reverse_nil, nil_append, objectOf_named]

/-! ## Documents -/

/-- **Reading undoes writing.** The text of a document is read back as the document, whatever
follows it that is no part of a number. -/
theorem Fits.reads (h : Fits depth j) : Reads (value? depth) j := by
  induction h with
  | null =>
    intro rest _
    rw [render, show letters "null" = some 'n' :: [some 'u', some 'l', some 'l'] from rfl,
      cons_append, value?_of_begins (by unfold Begins; decide)]
    rfl
  | bool value =>
    intro rest _
    cases value with
    | true =>
      rw [render, show letters "true" = some 't' :: [some 'r', some 'u', some 'e'] from rfl,
        cons_append, value?_of_begins (by unfold Begins; decide)]
      rfl
    | false =>
      rw [render,
        show letters "false" = some 'f' :: [some 'a', some 'l', some 's', some 'e'] from rfl,
        cons_append, value?_of_begins (by unfold Begins; decide)]
      rfl
  | int hlow hhigh =>
    intro rest hrest
    rw [render]
    exact value?_toString hlow hhigh _ hrest
  | str text =>
    intro rest _
    rw [render]
    exact value?_quote text _ rest
  | arr hfits ih => exact fun rest _ => value?_arr hfits ih rest
  | obj _ ih => exact fun rest _ => value?_obj ih rest

theorem Fits.readBytes? (h : Fits maxDepth j) : Json.readBytes? j.render.toUTF8 = some j := by
  have hread := h.reads [] (fun l hl => absurd hl (by simp))
  rw [append_nil] at hread
  unfold Json.readBytes? ofLetters?
  rw [lettersOfBytes_toUTF8, hread]
  rfl

end Json

end SymbolIndex
