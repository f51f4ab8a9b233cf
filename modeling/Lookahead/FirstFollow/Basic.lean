import Lookahead.Dict
import Lookahead.Grammar.Basic

namespace Lookahead

structure FirstFollow where
  first : Dict SymbolSet
  follow : Dict SymbolSet
deriving DecidableEq

namespace FirstFollow

/-- FIRST of a sequence: what its symbols can begin with, up to the first that cannot be empty,
and `EPSILON` if there is no such symbol. -/
def ofSequence {m : Type → Type} [Monad m] (first : Symbol → m SymbolSet) :
    List Symbol → m SymbolSet
  | [] => pure (.singleton Symbol.epsilon)
  | s :: rest =>
    if s = Symbol.epsilon then ofSequence first rest
    else do
      let set ← first s
      if Symbol.epsilon ∈ set then return set.withoutEpsilon ∪ (← ofSequence first rest)
      else return set

/-- A symbol without an entry begins with itself. -/
def firstOf (first : Dict SymbolSet) (s : Symbol) : SymbolSet :=
  (first.get? s).getD (.singleton s)

def firstOfSequence (first : Dict SymbolSet) (symbols : List Symbol) : SymbolSet :=
  Id.run (ofSequence (fun s => pure (firstOf first s)) symbols)

def grow (d : Dict SymbolSet) (s : Symbol) (set : SymbolSet) : Dict SymbolSet :=
  d.insert s ((d.get? s).getD ∅ ∪ set)

/-- Applies `f` until nothing changes, at most `bound` times. -/
def saturate {α : Type} [DecidableEq α] (f : α → α) : Nat → α → α
  | 0, a => a
  | bound + 1, a => if f a = a then a else saturate f bound (f a)

def withRules (g : Grammar) (d : Dict SymbolSet) : Dict SymbolSet :=
  g.names.foldl (fun d s => d.insert s ∅) d

def firstSeed (g : Grammar) : Dict SymbolSet :=
  let terminals : Dict SymbolSet :=
    g.terminals.toList.foldl (fun d t => d.insert t (.singleton t)) ∅
  withRules g (terminals.insert Symbol.epsilon (.singleton Symbol.epsilon))

def firstPass (g : Grammar) (first : Dict SymbolSet) : Dict SymbolSet :=
  g.rules.foldl (fun first rule => rule.productions.foldl (fun first p =>
    grow first rule.name (firstOfSequence first p)) first) first

/-- A rule's set holds terminals and `EPSILON`, and every pass but the last adds a member. -/
def computeFirst (g : Grammar) : Dict SymbolSet :=
  saturate (firstPass g) (g.rules.length * (g.terminals.toList.length + 1) + 1) (firstSeed g)

def followSeed (g : Grammar) : Dict SymbolSet :=
  (withRules g ∅).insert g.start (.singleton Symbol.eof)

def followProduction (g : Grammar) (first : Dict SymbolSet) (rule : Symbol) :
    List Symbol → Dict SymbolSet → Dict SymbolSet
  | [], follow => follow
  | s :: rest, follow =>
    if g.isRule s then
      let after := firstOfSequence first rest
      let inherited :=
        if Symbol.epsilon ∈ after then (follow.get? rule).getD ∅ else ∅
      followProduction g first rule rest (grow follow s (after.withoutEpsilon ∪ inherited))
    else followProduction g first rule rest follow

def followPass (g : Grammar) (first follow : Dict SymbolSet) : Dict SymbolSet :=
  g.rules.foldl (fun follow rule => rule.productions.foldl (fun follow p =>
    followProduction g first rule.name p follow) follow) follow

/-- A rule's set holds terminals and the end marker, and every pass but the last adds a member. -/
def computeFollow (g : Grammar) (first : Dict SymbolSet) : Dict SymbolSet :=
  saturate (followPass g first) (g.rules.length * (g.terminals.toList.length + 1) + 1)
    (followSeed g)

def compute (g : Grammar) : FirstFollow :=
  let first := computeFirst g
  ⟨first, computeFollow g first⟩

/-- FIRST of a symbol for a grammar: a rule must have an entry, and any other symbol without one
begins with itself. -/
def lookup (sets : FirstFollow) (g : Grammar) (s : Symbol) : Except GrammarError SymbolSet :=
  match sets.first.get? s with
  | some set => .ok set
  | none => if g.isRule s then .error (.missingFirst s) else .ok (.singleton s)

end FirstFollow

end Lookahead
