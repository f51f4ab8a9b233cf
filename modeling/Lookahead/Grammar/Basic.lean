import Lookahead.Symbol

namespace Lookahead

/-- The right-hand side of a rule. Both the empty list and `EPSILON` alone stand for the empty
string. -/
abbrev Production := List Symbol

namespace Production

def text (p : Production) : String := " ".intercalate p

def isEpsilon (p : Production) : Bool := p.all (· = Symbol.epsilon)

def mixesEpsilon (p : Production) : Bool :=
  1 < p.length && p.any (· = Symbol.epsilon)

end Production

structure Rule where
  name : Symbol
  productions : List Production
deriving DecidableEq, Repr

inductive LineFault
  | orphanContinuation
  | missingArrow (content : String)
  | invalidName (name : String)
  | emptyAlternative (rule : Symbol)
deriving DecidableEq, Repr

def LineFault.message : LineFault → String
  | orphanContinuation => "continuation line before any rule"
  | missingArrow content => s!"expected 'Name -> ...', found '{content}'"
  | invalidName name => s!"invalid rule name '{name}'"
  | emptyAlternative rule => s!"empty alternative in rule '{rule}' (write EPSILON)"

inductive GrammarError
  | missingFirst (symbol : Symbol)
  | missingFollow (rule : Symbol)
  | malformed (line : Nat) (fault : LineFault)
  | empty
  | epsilonInSequence (rule : Symbol)
deriving DecidableEq, Repr

def GrammarError.message : GrammarError → String
  | missingFirst symbol => s!"no FIRST set for symbol '{symbol}'"
  | missingFollow rule => s!"no FOLLOW set for non-terminal '{rule}'"
  | malformed line fault => s!"grammar line {line}: {fault.message}"
  | empty => "grammar has no rules"
  | epsilonInSequence rule => s!"rule '{rule}' uses EPSILON inside a longer production"

/-- Rules in declaration order, at least one, each name once. `EPSILON` is no part of a longer
production. -/
structure Grammar where
  rules : List Rule
  nonempty : rules ≠ []
  nodup : (rules.map (·.name)).Nodup
  unmixed : ∀ rule ∈ rules, ∀ p ∈ rule.productions, p.mixesEpsilon = false
deriving DecidableEq

namespace Grammar

/-- Adds a rule's productions to the rule of the same name, or the rule itself at the end. -/
def extend (rule : Rule) : List Rule → List Rule
  | [] => [rule]
  | r :: rest =>
    if r.name = rule.name then { r with productions := r.productions ++ rule.productions } :: rest
    else r :: extend rule rest

def collect (rules : List Rule) : List Rule :=
  rules.foldl (fun acc rule => extend rule acc) []

theorem extend_ne_nil (rule : Rule) (rules : List Rule) : extend rule rules ≠ [] := by
  cases rules with
  | nil => simp [extend]
  | cons r rest => unfold extend; split <;> simp

theorem mem_names_extend {rule : Rule} {rules : List Rule} {x : Symbol} :
    x ∈ (extend rule rules).map (·.name) ↔ x = rule.name ∨ x ∈ rules.map (·.name) := by
  induction rules with
  | nil => simp [extend]
  | cons r rest ih =>
    unfold extend
    split
    · next h => simp [h]
    · simp only [List.map_cons, List.mem_cons, ih]; grind

theorem nodup_extend (rule : Rule) {rules : List Rule} (h : (rules.map (·.name)).Nodup) :
    ((extend rule rules).map (·.name)).Nodup := by
  induction rules with
  | nil => simp [extend]
  | cons r rest ih =>
    have hr := List.nodup_cons.1 h
    unfold extend
    split
    · exact h
    · next hne =>
      refine List.nodup_cons.2 ⟨fun hm => ?_, ih hr.2⟩
      rcases mem_names_extend.1 hm with heq | hm
      · exact hne heq
      · exact hr.1 hm

theorem nodup_foldl_extend (rules : List Rule) {acc : List Rule}
    (h : (acc.map (·.name)).Nodup) :
    ((rules.foldl (fun acc rule => extend rule acc) acc).map (·.name)).Nodup := by
  induction rules generalizing acc with
  | nil => exact h
  | cons rule rest ih => exact ih (nodup_extend rule h)

theorem foldl_extend_ne_nil (rules : List Rule) {acc : List Rule} (h : acc ≠ []) :
    rules.foldl (fun acc rule => extend rule acc) acc ≠ [] := by
  induction rules generalizing acc with
  | nil => exact h
  | cons rule rest ih => exact ih (extend_ne_nil rule acc)

def Unmixed (rules : List Rule) : Prop :=
  ∀ rule ∈ rules, ∀ p ∈ rule.productions, p.mixesEpsilon = false

theorem unmixed_extend {rule : Rule} {rules : List Rule} (h : Unmixed rules)
    (hrule : ∀ p ∈ rule.productions, p.mixesEpsilon = false) : Unmixed (extend rule rules) := by
  fun_induction extend rule rules with
  | case1 => exact List.forall_mem_singleton.2 hrule
  | case2 r rest hname =>
    refine List.forall_mem_cons.2 ⟨fun p hp => ?_, (List.forall_mem_cons.1 h).2⟩
    rcases List.mem_append.1 hp with hp | hp
    · exact (List.forall_mem_cons.1 h).1 p hp
    · exact hrule p hp
  | case3 r rest hname ih =>
    have hr := List.forall_mem_cons.1 h
    exact List.forall_mem_cons.2 ⟨hr.1, ih hr.2⟩

theorem unmixed_foldl_extend {rules acc : List Rule} (hacc : Unmixed acc) (h : Unmixed rules) :
    Unmixed (rules.foldl (fun acc rule => extend rule acc) acc) := by
  induction rules generalizing acc with
  | nil => exact hacc
  | cons rule rest ih =>
    have hr := List.forall_mem_cons.1 h
    exact ih (unmixed_extend hacc hr.1) hr.2

/-- Rules that share a name are one rule. The first rule is the start. -/
def ofRules (rules : List Rule) : Except GrammarError Grammar :=
  match rules with
  | [] => .error .empty
  | first :: rest =>
    match h : (first :: rest).find? (·.productions.any Production.mixesEpsilon) with
    | some rule => .error (.epsilonInSequence rule.name)
    | none => .ok {
        rules := collect (first :: rest)
        nonempty := foldl_extend_ne_nil rest (extend_ne_nil first [])
        nodup := nodup_foldl_extend (first :: rest) (by simp)
        unmixed := unmixed_foldl_extend (by simp [Unmixed]) (by simpa [Unmixed] using h) }

def start (g : Grammar) : Symbol := (g.rules.head g.nonempty).name

def names (g : Grammar) : List Symbol := g.rules.map (·.name)

def isRule (g : Grammar) (s : Symbol) : Bool := g.rules.any (·.name = s)

def productions (g : Grammar) (s : Symbol) : List Production :=
  match g.rules.find? (·.name = s) with
  | some rule => rule.productions
  | none => []

/-- Every symbol of a right-hand side that has no rule of its own. -/
def terminals (g : Grammar) : SymbolSet :=
  SymbolSet.ofList <| (g.rules.flatMap (·.productions.flatten)).filter fun s =>
    s ≠ Symbol.epsilon && !g.isRule s

end Grammar

end Lookahead
