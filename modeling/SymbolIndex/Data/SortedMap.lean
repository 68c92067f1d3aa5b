/-!
# Finite maps in key order

A map is the list of its bindings, strictly increasing in the order of its keys, so two maps with
the same bindings are the same list. Keys are compared with `compare` only: two keys may be equal
in the order and still be written differently, and then the spelling that came first stays while
the value is replaced.
-/

namespace SymbolIndex

structure SortedMap (κ : Type u) (υ : Type v) [Ord κ] where
  entries : List (κ × υ)
  sorted : entries.Pairwise (fun a b => compare a.1 b.1 = .lt)
deriving DecidableEq

namespace SortedMap

section Lists

variable {κ : Type u} {υ : Type v} [Ord κ]

/-- Bind `k` in an increasing list; an equal key keeps its spelling and takes the new value. -/
def insertEntry (k : κ) (v : υ) : List (κ × υ) → List (κ × υ)
  | [] => [(k, v)]
  | (k', v') :: rest =>
    match compare k k' with
    | .lt => (k, v) :: (k', v') :: rest
    | .eq => (k', v) :: rest
    | .gt => (k', v') :: insertEntry k v rest

def findValue? (k : κ) : List (κ × υ) → Option υ
  | [] => none
  | (k', v) :: rest => if compare k k' = .eq then some v else findValue? k rest

theorem mem_insertEntry {k : κ} {v : υ} {l : List (κ × υ)} {e : κ × υ}
    (h : e ∈ insertEntry k v l) : e.1 = k ∨ ∃ e' ∈ l, e.1 = e'.1 := by
  induction l with
  | nil => exact .inl (by simp [insertEntry] at h; rw [h])
  | cons head rest ih =>
    obtain ⟨k', v'⟩ := head
    unfold insertEntry at h
    split at h
    · rcases List.mem_cons.mp h with rfl | h
      · exact .inl rfl
      · exact .inr ⟨e, h, rfl⟩
    · rcases List.mem_cons.mp h with rfl | h
      · exact .inr ⟨(k', v'), List.mem_cons_self, rfl⟩
      · exact .inr ⟨e, List.mem_cons_of_mem _ h, rfl⟩
    · rcases List.mem_cons.mp h with rfl | h
      · exact .inr ⟨(k', v'), List.mem_cons_self, rfl⟩
      · rcases ih h with h | ⟨e', he', hk⟩
        · exact .inl h
        · exact .inr ⟨e', List.mem_cons_of_mem _ he', hk⟩

theorem pairwise_insertEntry [Std.TransOrd κ] (k : κ) (v : υ) {l : List (κ × υ)}
    (h : l.Pairwise (fun a b => compare a.1 b.1 = .lt)) :
    (insertEntry k v l).Pairwise (fun a b => compare a.1 b.1 = .lt) := by
  induction l with
  | nil => simp [insertEntry]
  | cons head rest ih =>
    obtain ⟨k', v'⟩ := head
    have hhead := (List.pairwise_cons.mp h).1
    have hrest := (List.pairwise_cons.mp h).2
    unfold insertEntry
    split
    case h_1 hlt =>
      refine List.pairwise_cons.mpr ⟨?_, h⟩
      intro e he
      rcases List.mem_cons.mp he with rfl | he
      · exact hlt
      · exact Std.TransCmp.lt_trans hlt (hhead e he)
    case h_2 => exact List.pairwise_cons.mpr ⟨hhead, hrest⟩
    case h_3 hgt =>
      refine List.pairwise_cons.mpr ⟨?_, ih hrest⟩
      intro e he
      rcases mem_insertEntry he with hk | ⟨e', he', hk⟩
      · simp only [hk]; exact Std.OrientedCmp.gt_iff_lt.mp hgt
      · simp only [hk]; exact hhead e' he'

end Lists

variable {κ : Type u} {υ : Type v} [Ord κ]

def empty : SortedMap κ υ := ⟨[], .nil⟩

instance : EmptyCollection (SortedMap κ υ) := ⟨empty⟩

instance : Inhabited (SortedMap κ υ) := ⟨empty⟩

def toList (m : SortedMap κ υ) : List (κ × υ) := m.entries

def keys (m : SortedMap κ υ) : List κ := m.entries.map Prod.fst

def values (m : SortedMap κ υ) : List υ := m.entries.map Prod.snd

def size (m : SortedMap κ υ) : Nat := m.entries.length

def isEmpty (m : SortedMap κ υ) : Bool := m.entries.isEmpty

def get? (m : SortedMap κ υ) (k : κ) : Option υ := findValue? k m.entries

def contains (m : SortedMap κ υ) (k : κ) : Bool := (m.get? k).isSome

def insert [Std.TransOrd κ] (m : SortedMap κ υ) (k : κ) (v : υ) : SortedMap κ υ :=
  ⟨insertEntry k v m.entries, pairwise_insertEntry k v m.sorted⟩

def insertIfNew [Std.TransOrd κ] (m : SortedMap κ υ) (k : κ) (v : υ) : SortedMap κ υ :=
  if m.contains k then m else m.insert k v

def filter (m : SortedMap κ υ) (keep : κ → υ → Bool) : SortedMap κ υ :=
  ⟨m.entries.filter (fun e => keep e.1 e.2), m.sorted.sublist List.filter_sublist⟩

def erase (m : SortedMap κ υ) (k : κ) : SortedMap κ υ :=
  m.filter (fun k' _ => compare k k' != .eq)

def mapValues (m : SortedMap κ υ) (f : κ → υ → ω) : SortedMap κ ω :=
  ⟨m.entries.map (fun e => (e.1, f e.1 e.2)), List.pairwise_map.mpr m.sorted⟩

def modify [Std.TransOrd κ] (m : SortedMap κ υ) (k : κ) (f : υ → υ) : SortedMap κ υ :=
  match m.get? k with
  | some v => m.insert k (f v)
  | none => m

def ofList [Std.TransOrd κ] (l : List (κ × υ)) : SortedMap κ υ :=
  l.foldl (fun m e => m.insert e.1 e.2) empty

/-- Bind the pairs of a list all at once: of equal keys the last one stands, spelling included. -/
def collect [Std.TransOrd κ] (l : List (κ × υ)) : SortedMap κ υ :=
  l.foldr (fun e m => m.insertIfNew e.1 e.2) empty

end SortedMap

/-- A finite set in the order of its members; an equal member keeps the spelling that came first. -/
abbrev SortedSet (κ : Type u) [Ord κ] := SortedMap κ Unit

namespace SortedSet

variable {κ : Type u} [Ord κ]

def members (s : SortedSet κ) : List κ := SortedMap.keys s

def add [Std.TransOrd κ] (s : SortedSet κ) (k : κ) : SortedSet κ := SortedMap.insert s k ()

def restrict (s : SortedSet κ) (keep : κ → Bool) : SortedSet κ :=
  SortedMap.filter s (fun k _ => keep k)

def addAll [Std.TransOrd κ] (s : SortedSet κ) (l : List κ) : SortedSet κ := l.foldl add s

def ofList [Std.TransOrd κ] (l : List κ) : SortedSet κ := addAll SortedMap.empty l

/-- The set of the elements of a list; of equal elements the last spelling stands. -/
def collect [Std.TransOrd κ] (l : List κ) : SortedSet κ :=
  l.foldr (fun k s => s.add k) SortedMap.empty

end SortedSet

end SymbolIndex
