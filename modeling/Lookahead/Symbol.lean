namespace Lookahead

/-- Terminals and rule names share one name space: a symbol is a rule's name or it is not. -/
abbrev Symbol := String

namespace Symbol

/-- Stands for the empty string and is never read from the input. -/
def epsilon : Symbol := "EPSILON"

/-- The kind of the token that ends every input. -/
def eof : Symbol := "EOF"

theorem lt_of_not_lt_of_ne {s t : Symbol} (h : ¬s < t) (hne : s ≠ t) : t < s := by
  rw [String.not_lt] at h
  exact Std.lt_of_le_of_ne h (Ne.symm hne)

end Symbol

/-- Symbols in increasing order, so sets with the same members are equal. -/
structure SymbolSet where
  toList : List Symbol
  sorted : toList.Pairwise (· < ·)
deriving DecidableEq

namespace SymbolSet

def insertSorted (s : Symbol) : List Symbol → List Symbol
  | [] => [s]
  | t :: rest =>
    if s < t then s :: t :: rest else if s = t then t :: rest else t :: insertSorted s rest

theorem mem_insertSorted {s x : Symbol} {l : List Symbol} :
    x ∈ insertSorted s l ↔ x = s ∨ x ∈ l := by
  fun_induction insertSorted s l <;> grind

theorem sorted_insertSorted {s : Symbol} {l : List Symbol} (h : l.Pairwise (· < ·)) :
    (insertSorted s l).Pairwise (· < ·) := by
  fun_induction insertSorted s l with
  | case1 => simp
  | case2 t rest hlt =>
    refine .cons (fun x hx => ?_) h
    rcases List.mem_cons.1 hx with rfl | hx
    · exact hlt
    · exact String.lt_trans hlt (List.rel_of_pairwise_cons h hx)
  | case3 => exact h
  | case4 t rest hlt hne ih =>
    refine .cons (fun x hx => ?_) (ih h.tail)
    rcases mem_insertSorted.1 hx with rfl | hx
    · exact Symbol.lt_of_not_lt_of_ne hlt hne
    · exact List.rel_of_pairwise_cons h hx

def empty : SymbolSet := ⟨[], .nil⟩

instance : EmptyCollection SymbolSet := ⟨empty⟩

instance : Inhabited SymbolSet := ⟨empty⟩

instance : Membership Symbol SymbolSet := ⟨fun set s => s ∈ set.toList⟩

instance (s : Symbol) (set : SymbolSet) : Decidable (s ∈ set) :=
  inferInstanceAs (Decidable (s ∈ set.toList))

def insert (s : Symbol) (set : SymbolSet) : SymbolSet :=
  ⟨insertSorted s set.toList, sorted_insertSorted set.sorted⟩

def singleton (s : Symbol) : SymbolSet := ⟨[s], by simp⟩

def ofList (l : List Symbol) : SymbolSet :=
  l.foldl (fun set s => set.insert s) ∅

def union (a b : SymbolSet) : SymbolSet :=
  b.toList.foldl (fun set s => set.insert s) a

instance : Union SymbolSet := ⟨union⟩

def filter (p : Symbol → Bool) (set : SymbolSet) : SymbolSet :=
  ⟨set.toList.filter p, set.sorted.filter p⟩

def withoutEpsilon (set : SymbolSet) : SymbolSet :=
  set.filter (· ≠ Symbol.epsilon)

@[simp] theorem mem_toList {s : Symbol} {set : SymbolSet} : s ∈ set.toList ↔ s ∈ set := Iff.rfl

@[simp] theorem not_mem_empty (s : Symbol) : s ∉ (∅ : SymbolSet) :=
  List.not_mem_nil

@[simp] theorem mem_insert {s x : Symbol} {set : SymbolSet} :
    x ∈ set.insert s ↔ x = s ∨ x ∈ set :=
  mem_insertSorted

@[simp] theorem mem_singleton {s x : Symbol} : x ∈ singleton s ↔ x = s :=
  List.mem_singleton

theorem mem_foldl_insert {x : Symbol} (l : List Symbol) (set : SymbolSet) :
    x ∈ l.foldl (fun set s => set.insert s) set ↔ x ∈ set ∨ x ∈ l := by
  induction l generalizing set with
  | nil => simp
  | cons s l ih => rw [List.foldl_cons, ih, mem_insert, List.mem_cons]; grind

@[simp] theorem mem_ofList {x : Symbol} {l : List Symbol} : x ∈ ofList l ↔ x ∈ l := by
  simp [ofList, mem_foldl_insert]

@[simp] theorem mem_union {x : Symbol} {a b : SymbolSet} : x ∈ a ∪ b ↔ x ∈ a ∨ x ∈ b :=
  mem_foldl_insert b.toList a

@[simp] theorem mem_filter {x : Symbol} {p : Symbol → Bool} {set : SymbolSet} :
    x ∈ set.filter p ↔ x ∈ set ∧ p x :=
  List.mem_filter

@[simp] theorem mem_withoutEpsilon {x : Symbol} {set : SymbolSet} :
    x ∈ set.withoutEpsilon ↔ x ∈ set ∧ x ≠ Symbol.epsilon := by
  simp [withoutEpsilon]

theorem eq_of_sorted_of_mem_iff {l m : List Symbol} (hl : l.Pairwise (· < ·))
    (hm : m.Pairwise (· < ·)) (h : ∀ x, x ∈ l ↔ x ∈ m) : l = m := by
  induction l generalizing m with
  | nil =>
    cases m with
    | nil => rfl
    | cons t m => exact absurd ((h t).2 List.mem_cons_self) List.not_mem_nil
  | cons s l ih =>
    cases m with
    | nil => exact absurd ((h s).1 List.mem_cons_self) List.not_mem_nil
    | cons t m =>
      have hs : ∀ x ∈ l, s < x := fun x => List.rel_of_pairwise_cons hl
      have ht : ∀ x ∈ m, t < x := fun x => List.rel_of_pairwise_cons hm
      have hst : s = t := by
        rcases List.mem_cons.1 ((h s).1 List.mem_cons_self) with hst | hsm
        · exact hst
        rcases List.mem_cons.1 ((h t).2 List.mem_cons_self) with hts | htl
        · exact hts.symm
        exact absurd (hs t htl) (String.lt_asymm (ht s hsm))
      subst hst
      refine congrArg (s :: ·) (ih (.of_cons hl) (.of_cons hm) fun x => ?_)
      constructor
      · intro hx
        rcases List.mem_cons.1 ((h x).1 (List.mem_cons_of_mem _ hx)) with rfl | hx'
        · exact absurd (hs x hx) (String.lt_irrefl x)
        · exact hx'
      · intro hx
        rcases List.mem_cons.1 ((h x).2 (List.mem_cons_of_mem _ hx)) with rfl | hx'
        · exact absurd (ht x hx) (String.lt_irrefl x)
        · exact hx'

theorem ext {a b : SymbolSet} (h : ∀ x, x ∈ a ↔ x ∈ b) : a = b := by
  cases a; cases b
  simp only [mk.injEq]
  exact eq_of_sorted_of_mem_iff ‹_› ‹_› h

end SymbolSet

end Lookahead
