import Lookahead.FirstFollow.Document
import Lookahead.Proofs.Json.Printing
import Mathlib.Data.List.Induction

namespace Lookahead

theorem SymbolSet.ofList_toList (set : SymbolSet) : ofList set.toList = set :=
  SymbolSet.ext fun x => by simp

namespace Dict

variable {β : Type}

theorem insertSorted_of_lt {k : Symbol} {v : β} {l : List (Symbol × β)} (h : ∀ e ∈ l, e.1 < k) :
    insertSorted k v l = l ++ [(k, v)] := by
  induction l with
  | nil => rfl
  | cons e l ih =>
    have hlt : e.1 < k := h e List.mem_cons_self
    have hne : k ≠ e.1 := fun heq => String.lt_irrefl k (heq ▸ hlt)
    rw [insertSorted, if_neg (String.lt_asymm hlt), if_neg hne,
      ih fun x hx => h x (List.mem_cons_of_mem e hx), List.cons_append]

/-- Entries that come in order are inserted one behind the other. -/
theorem entries_ofList {l : List (Symbol × β)} (h : l.Pairwise (·.1 < ·.1)) :
    (ofList l).entries = l := by
  induction l using List.reverseRecOn with
  | nil => rfl
  | append_singleton l e ih =>
    obtain ⟨hl, -, hlt⟩ := List.pairwise_append.1 h
    have hlast : (ofList (l ++ [e])).entries = insertSorted e.1 e.2 (ofList l).entries := by
      simp [ofList, insert]
    rw [hlast, ih hl]
    exact insertSorted_of_lt fun x hx => hlt x hx e List.mem_cons_self

theorem ofList_entries (d : Dict β) : ofList d.entries = d := by
  have hentries := entries_ofList d.sorted
  cases d with
  | mk entries sorted => exact (Dict.mk.injEq ..).mpr hentries

end Dict

namespace FirstFollow

open Json (Token Prints itemsOf)

section Tokens

def separated (items : List (List Token)) : List Token := [Token.comma].intercalate items

theorem separated_cons_cons (item next : List Token) (items : List (List Token)) :
    separated (item :: next :: items) = item ++ .comma :: separated (next :: items) := by
  simp [separated, List.intercalate_cons_cons]

theorem separated_singleton (item : List Token) : separated [item] = item := by
  simp [separated]

def nameTokens (name : String) : List Token := [.string (itemsOf name)]

def setTokens (set : SymbolSet) : List Token :=
  .beginArray :: separated (set.toList.map nameTokens) ++ [.endArray]

def memberTokens (name : String) (value : List Token) : List Token :=
  nameTokens name ++ .colon :: value

def dictTokens (d : Dict SymbolSet) : List Token :=
  .beginObject :: separated (d.entries.map fun e => memberTokens e.1 (setTokens e.2)) ++
    [.endObject]

def documentTokens (sets : FirstFollow) : List Token :=
  .beginObject :: separated [memberTokens "first" (dictTokens sets.first),
    memberTokens "follow" (dictTokens sets.follow)] ++ [.endObject]

end Tokens

section Writing

variable {α : Type} {write : α → List Char} {toks : α → List Token}

/-- Items on lines of their own, with commas at the line ends. -/
theorem prints_separated (h : ∀ x, Prints (write x) (toks x)) (indent : Nat) (x : α)
    (l : List α) :
    Prints ('\n' :: List.replicate indent ' ' ++ write x ++
        (l.map write).flatMap fun item => ',' :: ('\n' :: List.replicate indent ' ' ++ item))
      (separated ((x :: l).map toks)) := by
  have hitem (x : α) : Prints ('\n' :: List.replicate indent ' ' ++ write x) (toks x) :=
    (Prints.newline indent).append (h x)
  induction l generalizing x with
  | nil =>
    rw [List.map_singleton, separated_singleton]
    simpa using hitem x
  | cons y l ih =>
    have hcomma : Prints [','] [Token.comma] := .token rfl fun _ => rfl
    have htext := (hitem x).append (hcomma.append (ih y))
    simpa [separated_cons_cons] using htext

theorem prints_writeItems {opening closing : Char} {first last : Token}
    (hopen : Prints [opening] [first]) (hclose : Prints [closing] [last])
    (h : ∀ x, Prints (write x) (toks x)) (indent : Nat) (l : List α) :
    Prints (writeItems indent opening closing (l.map write))
      (first :: separated (l.map toks) ++ [last]) := by
  cases l with
  | nil => exact hopen.append hclose
  | cons x l =>
    have hitems := prints_separated h (indent + 2) x l
    have htext := hopen.append (hitems.append ((Prints.newline indent).append hclose))
    simpa [writeItems] using htext

theorem prints_writeSet (indent : Nat) (set : SymbolSet) :
    Prints (writeSet indent set) (setTokens set) :=
  prints_writeItems (.token rfl fun _ => rfl) (.token rfl fun _ => rfl) Prints.quote indent
    set.toList

theorem prints_writeMember (name : String) {value : List Char} {ts : List Token}
    (h : Prints value ts) : Prints (writeMember name value) (memberTokens name ts) := by
  have hcolon : Prints [':'] [Token.colon] := .token rfl fun _ => rfl
  have hspace : Prints [' '] [] := .space rfl
  exact (Prints.quote name).append (hcolon.append (hspace.append h))

theorem prints_object (h : ∀ x, Prints (write x) (toks x)) (indent : Nat) (l : List α) :
    Prints (writeItems indent '\x7b' '\x7d' (l.map write))
      (.beginObject :: separated (l.map toks) ++ [.endObject]) :=
  prints_writeItems (.token rfl fun _ => rfl) (.token rfl fun _ => rfl) h indent l

theorem prints_writeDict (indent : Nat) (d : Dict SymbolSet) :
    Prints (writeDict indent d) (dictTokens d) := by
  have hentry (e : Symbol × SymbolSet) : Prints (writeMember e.1 (writeSet (indent + 2) e.2))
      (memberTokens e.1 (setTokens e.2)) :=
    prints_writeMember e.1 (prints_writeSet (indent + 2) e.2)
  exact prints_object hentry indent d.entries

theorem tokens_toDocument (sets : FirstFollow) :
    Json.tokens (toDocument sets).toList = some (documentTokens sets) := by
  have hmember (e : String × Dict SymbolSet) : Prints (writeMember e.1 (writeDict 2 e.2))
      (memberTokens e.1 (dictTokens e.2)) :=
    prints_writeMember e.1 (prints_writeDict 2 e.2)
  rw [toDocument, String.toList_ofList]
  exact (prints_object hmember 0 [("first", sets.first), ("follow", sets.follow)]).tokens_eq

end Writing

section Reading

theorem textOf_itemsOf (s : String) : textOf (itemsOf s) = some s := by
  rw [textOf, Json.decode_itemsOf, Option.map_some, String.ofList_toList]

theorem readItems_separated {l : List Symbol} (h : l ≠ []) (rest : List Token) :
    readItems (separated (l.map nameTokens) ++ .endArray :: rest) = some (l, rest) := by
  induction l with
  | nil => contradiction
  | cons s l ih =>
    cases l with
    | nil =>
      rw [List.map_singleton, separated_singleton]
      simp [nameTokens, readItems, textOf_itemsOf]
    | cons t l =>
      rw [List.map_cons, List.map_cons, separated_cons_cons]
      simp only [nameTokens, List.cons_append, List.nil_append, readItems, textOf_itemsOf]
      rw [← nameTokens, ← List.map_cons, ih (by simp)]
      rfl

theorem readSet_of_readItems {ts rest : List Token} {l : List Symbol}
    (h : readItems ts = some (l, rest)) :
    readSet (.beginArray :: ts) = some (.ofList l, rest) := by
  rw [readSet, h]
  · rfl
  -- no item begins with a closing bracket, so this is not the empty array
  · rintro more rfl
    simp [readItems] at h

theorem readSet_setTokens (set : SymbolSet) (rest : List Token) :
    readSet (setTokens set ++ rest) = some (set, rest) := by
  by_cases hl : set.toList = []
  · have hset : set = ∅ := by rw [← SymbolSet.ofList_toList set, hl]; rfl
    rw [hset]
    rfl
  · have hread := readSet_of_readItems (readItems_separated hl rest)
    rw [SymbolSet.ofList_toList] at hread
    simpa [setTokens] using hread

theorem memberTokens_append (name : String) (ts rest : List Token) :
    memberTokens name ts ++ rest = memberTokens name (ts ++ rest) := by
  simp [memberTokens]

theorem readEntries_comma {ts more : List Token} {set : SymbolSet} (name : String)
    (h : readSet ts = some (set, .comma :: more)) :
    readEntries (memberTokens name ts) =
      (readEntries more).map fun (entries, rest) => ((name, set) :: entries, rest) := by
  rw [memberTokens, nameTokens, List.singleton_append, readEntries]
  simp only [textOf_itemsOf]
  split <;> simp_all

theorem readEntries_endObject {ts more : List Token} {set : SymbolSet} (name : String)
    (h : readSet ts = some (set, .endObject :: more)) :
    readEntries (memberTokens name ts) = some ([(name, set)], more) := by
  rw [memberTokens, nameTokens, List.singleton_append, readEntries]
  simp only [textOf_itemsOf]
  split <;> simp_all

theorem readEntries_separated {l : List (Symbol × SymbolSet)} (h : l ≠ []) (rest : List Token) :
    readEntries (separated (l.map fun e => memberTokens e.1 (setTokens e.2)) ++
      .endObject :: rest) = some (l, rest) := by
  induction l with
  | nil => contradiction
  | cons e l ih =>
    cases l with
    | nil =>
      rw [List.map_singleton, separated_singleton, memberTokens_append]
      exact readEntries_endObject e.1 (readSet_setTokens e.2 _)
    | cons e' l =>
      rw [List.map_cons, List.map_cons, separated_cons_cons, List.append_assoc,
        List.cons_append, memberTokens_append, readEntries_comma e.1 (readSet_setTokens e.2 _)]
      rw [List.map_cons] at ih
      rw [ih (List.cons_ne_nil e' l)]
      rfl

theorem readDict_of_readEntries {ts rest : List Token} {l : List (Symbol × SymbolSet)}
    (h : readEntries ts = some (l, rest)) :
    readDict (.beginObject :: ts) = some (.ofList l, rest) := by
  rw [readDict, h]
  · rfl
  · rintro more rfl
    simp [readEntries] at h

theorem readDict_dictTokens (d : Dict SymbolSet) (rest : List Token) :
    readDict (dictTokens d ++ rest) = some (d, rest) := by
  by_cases hl : d.entries = []
  · have hd : d = ∅ := by rw [← Dict.ofList_entries d, hl]; rfl
    rw [hd]
    rfl
  · have hread := readDict_of_readEntries (readEntries_separated hl rest)
    rw [Dict.ofList_entries] at hread
    simpa [dictTokens] using hread

theorem readMembers_comma {d d' : Draft} {ts more : List Token} {name : String}
    (h : readMember name d ts = some (d', .comma :: more)) :
    readMembers d (memberTokens name ts) = readMembers d' more := by
  rw [memberTokens, nameTokens, List.singleton_append, readMembers]
  simp only [textOf_itemsOf]
  split <;> simp_all

theorem readMembers_endObject {d d' : Draft} {ts more : List Token} {name : String}
    (h : readMember name d ts = some (d', .endObject :: more)) :
    readMembers d (memberTokens name ts) = some (d', more) := by
  rw [memberTokens, nameTokens, List.singleton_append, readMembers]
  simp only [textOf_itemsOf]
  split <;> simp_all

theorem readDocument_of_readMembers {d : Draft} {ts rest : List Token}
    (h : readMembers ⟨none, none⟩ ts = some (d, rest)) :
    readDocument (.beginObject :: ts) = some (d.finish, rest) := by
  rw [readDocument, h]
  · rfl
  · rintro more rfl
    simp [readMembers] at h

theorem readDocument_documentTokens (sets : FirstFollow) :
    readDocument (documentTokens sets) = some (sets, []) := by
  have hfirst (rest : List Token) : readMember "first" ⟨none, none⟩
      (dictTokens sets.first ++ rest) = some (⟨some sets.first, none⟩, rest) := by
    simp [readMember, readDict_dictTokens]
  have hfollow (rest : List Token) : readMember "follow" ⟨some sets.first, none⟩
      (dictTokens sets.follow ++ rest) = some (⟨some sets.first, some sets.follow⟩, rest) := by
    simp [readMember, readDict_dictTokens]
  have hread : readMembers ⟨none, none⟩ (separated [memberTokens "first" (dictTokens sets.first),
      memberTokens "follow" (dictTokens sets.follow)] ++ [.endObject]) =
      some (⟨some sets.first, some sets.follow⟩, []) := by
    rw [separated_cons_cons, separated_singleton, List.append_assoc, List.cons_append,
      memberTokens_append, readMembers_comma (hfirst _), memberTokens_append,
      readMembers_endObject (hfollow _)]
  exact readDocument_of_readMembers hread

end Reading

/-- Sets with any symbols, empty sets and maps among them, come back from their document. -/
theorem ofDocument_toDocument (sets : FirstFollow) : ofDocument (toDocument sets) = some sets := by
  rw [ofDocument, tokens_toDocument, Option.bind_some, readDocument_documentTokens]

end FirstFollow

end Lookahead
