import Lookahead.FirstFollow.Basic

namespace Lookahead

/-- A production claims a lookahead for its rule. -/
structure Cell where
  rule : Symbol
  lookahead : Symbol
  production : Production
deriving DecidableEq, Repr

/-- A cell claimed by two different productions; the later one holds it. -/
structure Conflict where
  rule : Symbol
  lookahead : Symbol
  replaced : Production
  winner : Production
deriving DecidableEq, Repr

/-- Which production to expand a rule with, for each lookahead. -/
structure Table where
  rules : List Symbol
  rows : Dict (Dict Production)
  conflicts : List Conflict
deriving DecidableEq

namespace Table

def isRule (t : Table) (s : Symbol) : Bool := s ∈ t.rules

def row (t : Table) (rule : Symbol) : Dict Production := (t.rows.get? rule).getD ∅

def lookup (t : Table) (rule lookahead : Symbol) : Option Production :=
  (t.row rule).get? lookahead

def cells (t : Table) : List Cell :=
  t.rows.entries.flatMap fun (rule, row) =>
    row.entries.map fun (lookahead, p) => ⟨rule, lookahead, p⟩

def size (t : Table) : Nat := t.rows.entries.foldl (fun count entry => count + entry.2.size) 0

def toLines (t : Table) : List String :=
  t.cells.map fun c => s!"M[{c.rule}, {c.lookahead}] = {c.rule} -> {c.production.text}"

def conflict? (t : Table) (c : Cell) : Option Conflict :=
  match t.lookup c.rule c.lookahead with
  | some p => if p = c.production then none else some ⟨c.rule, c.lookahead, p, c.production⟩
  | none => none

def claim (t : Table) (c : Cell) : Table :=
  { t with
    rows := t.rows.insert c.rule ((t.row c.rule).insert c.lookahead c.production)
    conflicts := t.conflicts ++ (t.conflict? c).toList }

/-- The claims of the given productions in order: first what a production begins with, then, if
it can be empty, what follows its rule. Ends where a set is needed and missing. -/
def claims (g : Grammar) (sets : FirstFollow) :
    List (Symbol × Production) → List Cell × Option GrammarError
  | [] => ([], none)
  | (rule, p) :: rest =>
    match FirstFollow.ofSequence (sets.lookup g) p with
    | .error e => ([], some e)
    | .ok first =>
      let cell (t : Symbol) : Cell := ⟨rule, t, p⟩
      let own := first.withoutEpsilon.toList.map cell
      if Symbol.epsilon ∈ first then
        match sets.follow.get? rule with
        | none => (own, some (.missingFollow rule))
        | some follow =>
          let more := claims g sets rest
          (own ++ follow.withoutEpsilon.toList.map cell ++ more.1, more.2)
      else
        let more := claims g sets rest
        (own ++ more.1, more.2)

def ruleProductions (g : Grammar) : List (Symbol × Production) :=
  g.rules.flatMap fun rule => rule.productions.map fun p => (rule.name, p)

/-- The table as far as it can be filled, with what stopped it. -/
def fill (g : Grammar) (sets : FirstFollow) : Table × Option GrammarError :=
  let blank : Table := ⟨g.names, ∅, []⟩
  match g.names.find? fun s => (sets.first.get? s).isNone with
  | some s => (blank, some (.missingFirst s))
  | none =>
    let (cells, error?) := claims g sets (ruleProductions g)
    (cells.foldl claim blank, error?)

def build (g : Grammar) (sets : FirstFollow) : Except GrammarError Table :=
  match fill g sets with
  | (table, none) => .ok table
  | (_, some e) => .error e

end Table

end Lookahead
