import Lookahead.Symbol

namespace Lookahead

/-- A finite map from symbols, kept in key order, so maps with the same entries are equal. -/
structure Dict (β : Type) where
  entries : List (Symbol × β)
  sorted : entries.Pairwise (·.1 < ·.1)
deriving DecidableEq

namespace Dict

variable {β : Type}

def insertSorted (k : Symbol) (v : β) : List (Symbol × β) → List (Symbol × β)
  | [] => [(k, v)]
  | e :: rest =>
    if k < e.1 then (k, v) :: e :: rest
    else if k = e.1 then (k, v) :: rest
    else e :: insertSorted k v rest

theorem mem_of_mem_insertSorted {k : Symbol} {v : β} {e : Symbol × β} {l : List (Symbol × β)}
    (h : e ∈ insertSorted k v l) : e = (k, v) ∨ e ∈ l := by
  fun_induction insertSorted k v l <;> grind

theorem sorted_insertSorted {k : Symbol} {v : β} {l : List (Symbol × β)}
    (h : l.Pairwise (·.1 < ·.1)) : (insertSorted k v l).Pairwise (·.1 < ·.1) := by
  fun_induction insertSorted k v l with
  | case1 => simp
  | case2 e rest hlt =>
    refine .cons (fun x hx => ?_) h
    rcases List.mem_cons.1 hx with rfl | hx
    · exact hlt
    · exact String.lt_trans hlt (List.rel_of_pairwise_cons h hx)
  | case3 e rest hlt heq =>
    exact .cons (fun x hx => heq ▸ List.rel_of_pairwise_cons h hx) h.of_cons
  | case4 e rest hlt hne ih =>
    refine .cons (fun x hx => ?_) (ih h.of_cons)
    rcases mem_of_mem_insertSorted hx with rfl | hx
    · exact Symbol.lt_of_not_lt_of_ne hlt hne
    · exact List.rel_of_pairwise_cons h hx

def empty : Dict β := ⟨[], .nil⟩

instance : EmptyCollection (Dict β) := ⟨empty⟩

instance : Inhabited (Dict β) := ⟨empty⟩

def insert (k : Symbol) (v : β) (d : Dict β) : Dict β :=
  ⟨insertSorted k v d.entries, sorted_insertSorted d.sorted⟩

def get? (d : Dict β) (k : Symbol) : Option β :=
  (d.entries.find? (·.1 = k)).map (·.2)

def keys (d : Dict β) : List Symbol :=
  d.entries.map (·.1)

def size (d : Dict β) : Nat :=
  d.entries.length

/-- Of two entries with one key the later counts. -/
def ofList (l : List (Symbol × β)) : Dict β :=
  l.foldl (fun d e => d.insert e.1 e.2) ∅

@[simp] theorem get?_empty (k : Symbol) : (∅ : Dict β).get? k = none := rfl

theorem find?_insertSorted {k x : Symbol} {v : β} {l : List (Symbol × β)} :
    (insertSorted k v l).find? (·.1 = x) =
      if k = x then some (k, v) else l.find? (·.1 = x) := by
  fun_induction insertSorted k v l with
  | case1 => by_cases h : k = x <;> simp [h]
  | case2 e rest => by_cases h : k = x <;> simp [h]
  | case3 e rest hlt heq => by_cases h : k = x <;> simp [h, ← heq]
  | case4 e rest hlt hne ih =>
    by_cases h : e.1 = x
    · simp [h, h ▸ hne]
    · simp [h, ih]

@[simp] theorem get?_insert {k x : Symbol} {v : β} {d : Dict β} :
    (d.insert k v).get? x = if k = x then some v else d.get? x := by
  simp only [get?, insert, find?_insertSorted]
  split <;> rfl

end Dict

end Lookahead
