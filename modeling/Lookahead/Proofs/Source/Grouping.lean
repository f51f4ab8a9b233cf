import Lookahead.Proofs.Lowering.Run
import Mathlib.Data.List.Perm.Basic

namespace Lookahead

def Op.isLogical : Op → Bool
  | and | or => true
  | _ => false

/-- Operands under the operators that are applied to them. -/
inductive Grouping (α : Type)
  | operand (a : α)
  | apply (op : Op) (lhs rhs : Grouping α)
deriving DecidableEq

/-- An operand and the comparisons that follow it. -/
structure Segment (α : Type) where
  first : α
  comparisons : List (Op × α)

namespace Grouping

variable {α : Type}

def operands : Grouping α → List α
  | operand a => [a]
  | apply _ lhs rhs => lhs.operands ++ rhs.operands

def size : Grouping α → Nat
  | operand _ => 0
  | apply _ lhs rhs => lhs.size + rhs.size + 1

def compare (g : Grouping α) (comparisons : List (Op × α)) : Grouping α :=
  comparisons.foldl (fun g c => .apply c.1 g (.operand c.2)) g

end Grouping

section Chains

variable {α : Type}

def Segment.group (s : Segment α) : Grouping α := (Grouping.operand s.first).compare s.comparisons

def Grouping.join (g : Grouping α) (segments : List (Op × Segment α)) : Grouping α :=
  segments.foldl (fun g e => .apply e.1 g e.2.group) g

/-- The segments of a chain: the first, and the others behind the logical operators. -/
def split (first : α) : List (Op × α) → Segment α × List (Op × Segment α)
  | [] => (⟨first, []⟩, [])
  | (op, a) :: rest =>
    let (s, segments) := split a rest
    if op.isLogical then (⟨first, []⟩, (op, s) :: segments)
    else (⟨first, (op, s.first) :: s.comparisons⟩, segments)

def group (first : α) (links : List (Op × α)) : Grouping α :=
  (split first links).1.group.join (split first links).2

theorem first_split (first : α) (links : List (Op × α)) : (split first links).1.first = first := by
  cases links with
  | nil => rfl
  | cons link rest =>
    rw [split]
    dsimp only
    split <;> rfl

/-- Put behind one another the segments are the chain again, and only the operators between them
are logical. -/
theorem split_spec (first : α) (links : List (Op × α)) :
    (split first links).1.comparisons ++ (split first links).2.flatMap
        (fun e => (e.1, e.2.first) :: e.2.comparisons) = links ∧
      (∀ c ∈ (split first links).1.comparisons, c.1.isLogical = false) ∧
      ∀ e ∈ (split first links).2, e.1.isLogical = true ∧
        ∀ c ∈ e.2.comparisons, c.1.isLogical = false := by
  induction links generalizing first with
  | nil => exact ⟨rfl, List.forall_mem_nil _, List.forall_mem_nil _⟩
  | cons link rest ih =>
    obtain ⟨op, a⟩ := link
    obtain ⟨hlinks, hcomparisons, hsegments⟩ := ih a
    have hfirst := first_split a rest
    rw [split]
    dsimp only
    split
    · next hop =>
      refine ⟨?_, List.forall_mem_nil _, List.forall_mem_cons.2 ⟨⟨hop, hcomparisons⟩, hsegments⟩⟩
      rw [List.nil_append, List.flatMap_cons, List.cons_append, hlinks, hfirst]
    · next hop =>
      rw [Bool.not_eq_true] at hop
      refine ⟨?_, List.forall_mem_cons.2 ⟨hop, hcomparisons⟩, hsegments⟩
      rw [List.cons_append, hlinks, hfirst]

namespace Grouping

theorem length_operands (g : Grouping α) : g.operands.length = g.size + 1 := by
  induction g with
  | operand a => rfl
  | apply op lhs rhs ihl ihr =>
    rw [operands, List.length_append, ihl, ihr, size]
    omega

theorem operands_compare (g : Grouping α) (comparisons : List (Op × α)) :
    (g.compare comparisons).operands = g.operands ++ comparisons.map Prod.snd := by
  induction comparisons generalizing g with
  | nil => exact (List.append_nil _).symm
  | cons c comparisons ih => exact (ih _).trans (List.append_assoc _ _ _)

theorem operands_join (g : Grouping α) (segments : List (Op × Segment α)) :
    (g.join segments).operands = g.operands ++
      (segments.flatMap fun e => (e.1, e.2.first) :: e.2.comparisons).map Prod.snd := by
  induction segments generalizing g with
  | nil => exact (List.append_nil _).symm
  | cons e segments ih =>
    refine (ih _).trans ?_
    rw [operands, Segment.group, operands_compare, List.flatMap_cons, List.map_append,
      List.append_assoc]
    rfl

end Grouping

theorem operands_group (first : α) (links : List (Op × α)) :
    (group first links).operands = first :: links.map Prod.snd := by
  rw [group, Grouping.operands_join, Segment.group, Grouping.operands_compare, List.append_assoc,
    ← List.map_append, (split_spec first links).1, first_split]
  rfl

theorem size_group (first : α) (links : List (Op × α)) :
    (group first links).size = links.length := by
  have h := Grouping.length_operands (group first links)
  rw [operands_group, List.length_cons, List.length_map] at h
  omega

end Chains

example : group 'a' [(.lt, 'b'), (.and, 'c'), (.gt, 'd'), (.eq, 'e'), (.or, 'f')] =
    .apply .or (.apply .and (.apply .lt (.operand 'a') (.operand 'b'))
      (.apply .eq (.apply .gt (.operand 'c') (.operand 'd')) (.operand 'e'))) (.operand 'f') := by
  decide

theorem strength_eq_two_iff (op : Source.ChainOp) :
    op.1.strength = 2 ↔ op.1.isLogical = false := by
  obtain ⟨op, hop⟩ := op
  cases op <;> revert hop <;> decide

namespace Source

instance : LawfulMonad Emit := by
  refine LawfulMonad.mk' Emit ?_ ?_ ?_
  · intro α x
    funext n
    show (⟨(x n).code ++ [], (x n).result, (x n).temps⟩ : Computation α) = x n
    rw [List.append_nil]
  · intro α β a f
    rfl
  · intro α β γ x f g
    funext n
    simp only [bind, List.append_assoc]

/-- The code of a tree over places: the operators are applied once their operands are there. -/
def emitGrouping : Grouping Operand → Emit Operand
  | .operand place => return place
  | .apply op lhs rhs => do
    let left ← emitGrouping lhs
    let right ← emitGrouping rhs
    Emit.apply op left right

section Emission

abbrev Pending := Option (Grouping Operand × ChainOp)

def Pending.close (left : Pending) (g : Grouping Operand) : Grouping Operand :=
  left.elim g fun e => .apply e.2.1 e.1 g

def Pending.emit : Pending → Emit (Option (Operand × ChainOp))
  | none => return none
  | some (g, op) => do return some (← emitGrouping g, op)

theorem Pending.emit_some (g : Grouping Operand) (op : ChainOp) :
    Pending.emit (some (g, op)) = (do return some (← emitGrouping g, op)) := rfl

theorem emit_close (left : Pending) (g : Grouping Operand) :
    emitGrouping (left.close g) = (do
      let waiting ← left.emit
      let value ← emitGrouping g
      Emit.close waiting value) := by
  cases left with
  | none =>
    simp only [Pending.close, Pending.emit, Emit.close, Option.elim_none, pure_bind, bind_pure]
  | some e =>
    simp only [Pending.close, Pending.emit, Emit.close, Option.elim_some, emitGrouping, bind_assoc,
      pure_bind]

/-- What is left of a chain, behind the tree `g` of its segment so far. -/
theorem emit_chain (links : List (ChainOp × Operand)) (a : Operand) (left : Pending)
    (g : Grouping Operand) :
    emitGrouping ((left.close
      (g.compare (split a (links.map fun l => (l.1.1, l.2))).1.comparisons)).join
      (split a (links.map fun l => (l.1.1, l.2))).2) = (do
        let waiting ← left.emit
        let value ← emitGrouping g
        Emit.chain waiting value links) := by
  induction links generalizing a left g with
  | nil => exact emit_close left g
  | cons link rest ih =>
    obtain ⟨op, b⟩ := link
    have hfirst := first_split b (rest.map fun l => (l.1.1, l.2))
    rw [List.map_cons, split]
    dsimp only
    split
    · next hop =>
      have hstrength : ¬op.1.strength = 2 := by
        rw [strength_eq_two_iff, hop]
        decide
      have h := ih b (some (left.close g, op)) (.operand b)
      simp only [Emit.chain, if_neg hstrength]
      simp only [Pending.emit_some, emitGrouping, emit_close, bind_assoc, pure_bind] at h
      rw [← h]
      simp only [Grouping.join, List.foldl_cons, Segment.group, hfirst]
      rfl
    · next hop =>
      rw [Bool.not_eq_true, ← strength_eq_two_iff] at hop
      have h := ih b left (.apply op.1 g (.operand b))
      simp only [Emit.chain, if_pos hop]
      simp only [emitGrouping, bind_assoc, pure_bind] at h
      rw [← h, hfirst]
      rfl

theorem chain_eq (first : Operand) (links : List (ChainOp × Operand)) :
    Emit.chain none first links = emitGrouping (group first (links.map fun l => (l.1.1, l.2))) := by
  have h := emit_chain links first none (.operand first)
  simp only [Pending.emit, emitGrouping, pure_bind] at h
  rw [← h, group, Segment.group, first_split]
  rfl

end Emission

end Source

def Quad.arguments (q : Quad) : List Operand := q.arg1.toList ++ q.arg2.toList

/-- `code` computes the tree into the place `root`. -/
inductive Flow (code : List Quad) : Operand → Grouping Operand → Prop
  | operand (place : Operand) : Flow code place (.operand place)
  | apply {op : Op} {left right result : Operand} {lhs rhs : Grouping Operand}
      (hleft : Flow code left lhs) (hright : Flow code right rhs)
      (hcode : .binary op left right result ∈ code) : Flow code result (.apply op lhs rhs)

/-- Each instruction reads only what is given, or the results of those before it. -/
def Sequenced (given : List Operand) : List Quad → Prop
  | [] => True
  | q :: code => (∀ x ∈ q.arguments, x ∈ given) ∧ Sequenced (given ++ q.result.toList) code

/-- Code that does just what the tree says: one binary instruction for each operator, the results
in the temporaries from `n` on. Every operand and every result is used once, the last result as the
result of the code. -/
structure Realizes (g : Grouping Operand) (n : Nat) (code : List Quad) (root : Operand) : Prop where
  length : code.length = g.size
  binary : ∀ i, i < g.size →
    ∃ op left right, code[i]? = some (.binary op left right (.temp (n + i)))
  flow : Flow code root g
  once : (root :: code.flatMap Quad.arguments).Perm
    (g.operands ++ (List.range' n g.size).map .temp)
  sequenced : Sequenced g.operands code

section Realizes

variable {given more : List Operand} {code rest : List Quad} {root : Operand}
  {g lhs rhs : Grouping Operand}

theorem Flow.mono (h : Flow code root g) (hcode : code ⊆ rest) : Flow rest root g := by
  induction h with
  | operand place => exact .operand place
  | apply _ _ hmem ihl ihr => exact .apply ihl ihr (hcode hmem)

theorem Sequenced.mono (h : Sequenced given code) (hgiven : given ⊆ more) :
    Sequenced more code := by
  induction code generalizing given more with
  | nil => trivial
  | cons q code ih =>
    refine ⟨fun x hx => hgiven (h.1 x hx), ih h.2 ?_⟩
    exact List.append_subset.2
      ⟨List.subset_append_of_subset_left _ hgiven, List.subset_append_right _ _⟩

theorem Sequenced.append (h : Sequenced given code)
    (hrest : Sequenced (given ++ code.flatMap fun q => q.result.toList) rest) :
    Sequenced given (code ++ rest) := by
  induction code generalizing given with
  | nil => simpa using hrest
  | cons q code ih =>
    refine ⟨h.1, ih h.2 ?_⟩
    rwa [List.flatMap_cons, ← List.append_assoc] at hrest

namespace Realizes

variable {n : Nat} {left right : Operand}

theorem results (h : Realizes g n code root) :
    (code.flatMap fun q => q.result.toList) = (List.range' n g.size).map .temp := by
  have hmap : code.map (fun q => q.result.toList) =
      (List.range' n g.size).map fun i => [Operand.temp i] := by
    apply List.ext_getElem?
    intro i
    by_cases hi : i < g.size
    · obtain ⟨op, left, right, hcode⟩ := h.binary i hi
      simp [hcode, hi, Quad.binary]
    · have hlength := h.length
      rw [List.getElem?_eq_none (by simp; omega), List.getElem?_eq_none (by simp; omega)]
  rw [List.flatMap_def, hmap, ← List.flatMap_def, List.map_eq_flatMap]

/-- The place of a tree is an operand or a result. -/
theorem root_mem (h : Realizes g n code root) :
    root ∈ g.operands ++ code.flatMap fun q => q.result.toList := by
  rw [h.results]
  exact h.once.subset List.mem_cons_self

theorem operand (place : Operand) (n : Nat) : Realizes (.operand place) n [] place where
  length := rfl
  binary i hi := absurd hi (Nat.not_lt_zero i)
  flow := .operand place
  once := .refl _
  sequenced := trivial

theorem apply (op : Op) (hl : Realizes lhs n code left)
    (hr : Realizes rhs (n + lhs.size) rest right) :
    Realizes (.apply op lhs rhs) n
      (code ++ (rest ++ [.binary op left right (.temp (n + lhs.size + rhs.size))]))
      (.temp (n + lhs.size + rhs.size)) where
  length := by
    simp only [List.length_append, hl.length, hr.length, List.length_singleton, Grouping.size]
    omega
  binary i hi := by
    rw [Grouping.size] at hi
    by_cases hleft : i < lhs.size
    · obtain ⟨op, left, right, hcode⟩ := hl.binary i hleft
      refine ⟨op, left, right, ?_⟩
      rw [List.getElem?_append_left (by rw [hl.length]; exact hleft), hcode]
    · rw [List.getElem?_append_right (by rw [hl.length]; omega), hl.length]
      by_cases hright : i - lhs.size < rhs.size
      · obtain ⟨op, left, right, hcode⟩ := hr.binary (i - lhs.size) hright
        refine ⟨op, left, right, ?_⟩
        rw [List.getElem?_append_left (by rw [hr.length]; exact hright), hcode]
        congr 3
        omega
      · obtain rfl : i = lhs.size + rhs.size := by omega
        refine ⟨op, left, right, ?_⟩
        rw [List.getElem?_append_right (by rw [hr.length]; omega), hr.length]
        simp [Nat.add_assoc]
  flow := by
    refine .apply (hl.flow.mono ?_) (hr.flow.mono ?_) ?_
    · exact List.subset_append_left _ _
    · exact fun q hq => by simp [hq]
    · simp
  once := by
    have hrange : List.range' n (lhs.size + rhs.size + 1) = List.range' n lhs.size ++
        (List.range' (n + lhs.size) rhs.size ++ [n + lhs.size + rhs.size]) := by
      rw [← List.append_assoc, List.range'_append_1, List.range'_1_concat, Nat.add_assoc]
    rw [List.perm_iff_count]
    intro x
    have hleft := hl.once.count_eq x
    have hright := hr.once.count_eq x
    simp only [List.count_cons, List.count_append] at hleft hright
    simp only [Grouping.size, Grouping.operands, hrange, List.flatMap_append, List.flatMap_cons,
      List.flatMap_nil, Quad.arguments, Quad.binary, Option.toList_some, List.map_append,
      List.map_cons, List.map_nil, List.count_cons, List.count_append, List.count_nil,
      List.nil_append, List.append_nil, List.cons_append]
    omega
  sequenced := by
    refine (hl.sequenced.mono (List.subset_append_left _ _)).append ?_
    refine (hr.sequenced.mono ?_).append ⟨?_, trivial⟩
    · exact fun x hx => by simp [hx]
    · intro x hx
      have hleft := hl.root_mem
      have hright := hr.root_mem
      simp only [Quad.arguments, Quad.binary, Option.toList_some, List.singleton_append,
        List.mem_cons, List.not_mem_nil, or_false] at hx
      simp only [List.mem_append] at hleft hright ⊢
      rcases hx with rfl | rfl
      · tauto
      · tauto

end Realizes

theorem Source.realizes_emit (g : Grouping Operand) (n : Nat) :
    Realizes g n (emitGrouping g n).code (emitGrouping g n).result ∧
      (emitGrouping g n).temps = n + g.size := by
  induction g generalizing n with
  | operand place => exact ⟨.operand place n, rfl⟩
  | apply op lhs rhs ihl ihr =>
    obtain ⟨hl, hleft⟩ := ihl n
    obtain ⟨hr, hright⟩ := ihr (n + lhs.size)
    have happly := hl.apply op hr
    rw [← hleft] at hr hright happly
    rw [← hright] at happly
    refine ⟨happly, ?_⟩
    show (emitGrouping rhs (emitGrouping lhs n).temps).temps + 1 = _
    rw [hright, hleft, Grouping.size]
    omega

end Realizes

end Lookahead
