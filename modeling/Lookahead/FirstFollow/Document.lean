import Lookahead.FirstFollow.Basic
import Lookahead.Json.Token

namespace Lookahead.FirstFollow

open Json (Token)

def textOf (items : List Json.Item) : Option String := (Json.decode items).map String.ofList

def readItems : List Token → Option (List Symbol × List Token)
  | .string items :: .comma :: rest =>
    match textOf items with
    | some s => (readItems rest).map fun (more, rest) => (s :: more, rest)
    | none => none
  | .string items :: .endArray :: rest => (textOf items).map fun s => ([s], rest)
  | _ => none

def readSet : List Token → Option (SymbolSet × List Token)
  | .beginArray :: .endArray :: rest => some (∅, rest)
  | .beginArray :: rest => (readItems rest).map fun (l, rest) => (.ofList l, rest)
  | _ => none

theorem readItems_length_le {ts rest : List Token} {l : List Symbol}
    (h : readItems ts = some (l, rest)) : rest.length ≤ ts.length := by
  fun_induction readItems ts generalizing l with
  | case1 items tail s hs ih =>
    obtain ⟨⟨more, r⟩, htail, heq⟩ := Option.map_eq_some_iff.1 h
    cases heq
    have := ih htail
    simp only [List.length_cons]; omega
  | case2 => contradiction
  | case3 items tail =>
    obtain ⟨s, _, heq⟩ := Option.map_eq_some_iff.1 h
    cases heq
    simp only [List.length_cons]; omega
  | case4 => contradiction

theorem readSet_length_le {ts rest : List Token} {set : SymbolSet}
    (h : readSet ts = some (set, rest)) : rest.length ≤ ts.length := by
  unfold readSet at h
  split at h
  · cases h; simp only [List.length_cons]; omega
  · obtain ⟨⟨l, r⟩, hread, heq⟩ := Option.map_eq_some_iff.1 h
    cases heq
    have := readItems_length_le hread
    simp only [List.length_cons]; omega
  · contradiction

def readEntries (ts : List Token) : Option (List (Symbol × SymbolSet) × List Token) :=
  match ts with
  | .string items :: .colon :: rest =>
    match textOf items, h : readSet rest with
    | some name, some (set, .comma :: more) =>
      have := readSet_length_le h
      (readEntries more).map fun (entries, rest) => ((name, set) :: entries, rest)
    | some name, some (set, .endObject :: more) => some ([(name, set)], more)
    | _, _ => none
  | _ => none
termination_by ts.length
decreasing_by simp only [List.length_cons] at *; omega

/-- Of two members with one name the later counts. -/
def readDict : List Token → Option (Dict SymbolSet × List Token)
  | .beginObject :: .endObject :: rest => some (∅, rest)
  | .beginObject :: rest => (readEntries rest).map fun (entries, rest) => (.ofList entries, rest)
  | _ => none

theorem readEntries_length_le {ts rest : List Token} {entries : List (Symbol × SymbolSet)}
    (h : readEntries ts = some (entries, rest)) : rest.length ≤ ts.length := by
  fun_induction readEntries ts generalizing entries with
  | case1 items tail name set more hset hname _ ih =>
    obtain ⟨⟨entries', r⟩, hread, heq⟩ := Option.map_eq_some_iff.1 h
    cases heq
    have := ih hread
    have := readSet_length_le hset
    simp only [List.length_cons] at *; omega
  | case2 items tail name set more hset hname =>
    cases h
    have := readSet_length_le hset
    simp only [List.length_cons] at *; omega
  | case3 => contradiction
  | case4 => contradiction

theorem readDict_length_le {ts rest : List Token} {d : Dict SymbolSet}
    (h : readDict ts = some (d, rest)) : rest.length ≤ ts.length := by
  unfold readDict at h
  split at h
  · cases h; simp only [List.length_cons]; omega
  · obtain ⟨⟨l, r⟩, hread, heq⟩ := Option.map_eq_some_iff.1 h
    cases heq
    have := readEntries_length_le hread
    simp only [List.length_cons]; omega
  · contradiction

structure Draft where
  first : Option (Dict SymbolSet)
  follow : Option (Dict SymbolSet)

/-- A member that is missing stands for an empty map. -/
def Draft.finish (d : Draft) : FirstFollow := ⟨d.first.getD ∅, d.follow.getD ∅⟩

/-- Neither of the two members may come twice; others are passed over. -/
def readMember (name : String) (d : Draft) (ts : List Token) : Option (Draft × List Token) :=
  if name = "first" then
    if d.first.isSome then none
    else (readDict ts).map fun (first, rest) => ({ d with first := some first }, rest)
  else if name = "follow" then
    if d.follow.isSome then none
    else (readDict ts).map fun (follow, rest) => ({ d with follow := some follow }, rest)
  else (Json.skipValue ts).map fun rest => (d, rest)

theorem readMember_length_le {name : String} {d d' : Draft} {ts rest : List Token}
    (h : readMember name d ts = some (d', rest)) : rest.length ≤ ts.length := by
  unfold readMember at h
  split at h
  · split at h
    · contradiction
    · obtain ⟨⟨_, _⟩, hread, heq⟩ := Option.map_eq_some_iff.1 h
      cases heq
      exact readDict_length_le hread
  · split at h
    · split at h
      · contradiction
      · obtain ⟨⟨_, _⟩, hread, heq⟩ := Option.map_eq_some_iff.1 h
        cases heq
        exact readDict_length_le hread
    · obtain ⟨_, hskip, heq⟩ := Option.map_eq_some_iff.1 h
      cases heq
      exact Nat.le_of_lt (Json.skip_length_lt hskip)

def readMembers (d : Draft) (ts : List Token) : Option (Draft × List Token) :=
  match ts with
  | .string items :: .colon :: rest =>
    match textOf items with
    | none => none
    | some name =>
      match h : readMember name d rest with
      | some (d, .comma :: more) =>
        have := readMember_length_le h
        readMembers d more
      | some (d, .endObject :: more) => some (d, more)
      | _ => none
  | _ => none
termination_by ts.length
decreasing_by simp only [List.length_cons] at *; omega

/-- A document is an object with the members `first` and `follow`, or an array of up to two
elements that stand for them in this order. -/
def readDocument : List Token → Option (FirstFollow × List Token)
  | .beginObject :: .endObject :: rest => some (⟨∅, ∅⟩, rest)
  | .beginObject :: rest => (readMembers ⟨none, none⟩ rest).map fun (d, rest) => (d.finish, rest)
  | .beginArray :: .endArray :: rest => some (⟨∅, ∅⟩, rest)
  | .beginArray :: rest =>
    match readDict rest with
    | some (first, .endArray :: rest) => some (⟨first, ∅⟩, rest)
    | some (first, .comma :: rest) =>
      match readDict rest with
      | some (follow, .endArray :: rest) => some (⟨first, follow⟩, rest)
      | _ => none
    | _ => none
  | _ => none

def ofDocument (text : String) : Option FirstFollow :=
  match (Json.tokens text.toList).bind readDocument with
  | some (sets, []) => some sets
  | _ => none

/-- Bracketed items, one a line, two spaces deeper than the brackets; no items, no line. -/
def writeItems (indent : Nat) (opening closing : Char) : List (List Char) → List Char
  | [] => [opening, closing]
  | item :: rest =>
    let line (item : List Char) := '\n' :: List.replicate (indent + 2) ' ' ++ item
    opening :: line item ++ rest.flatMap (fun item => ',' :: line item) ++
      '\n' :: List.replicate indent ' ' ++ [closing]

def writeMember (name : String) (value : List Char) : List Char :=
  Json.quote name ++ ':' :: ' ' :: value

def writeSet (indent : Nat) (set : SymbolSet) : List Char :=
  writeItems indent '[' ']' (set.toList.map Json.quote)

def writeDict (indent : Nat) (d : Dict SymbolSet) : List Char :=
  writeItems indent '\x7b' '\x7d' (d.entries.map fun (name, set) =>
    writeMember name (writeSet (indent + 2) set))

def toDocument (sets : FirstFollow) : String :=
  String.ofList <| writeItems 0 '\x7b' '\x7d'
    [writeMember "first" (writeDict 2 sets.first), writeMember "follow" (writeDict 2 sets.follow)]

end Lookahead.FirstFollow
