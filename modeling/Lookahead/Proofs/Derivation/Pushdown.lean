import Lookahead.Proofs.Derivation.Depth
import Lookahead.Proofs.Layout.Tokens
import Lookahead.Proofs.Tree.Arena

namespace Lookahead

namespace Arena

/-- Keeps with a node what its token says. -/
def mark (a : Arena) (i : Nat) (token : Token) : Arena :=
  a.modify i fun row =>
    { row with info := { row.info with literal := token.literal, line := some token.line } }

/-- Adds a row of children, from left to right, and gives each symbol with the number of its
node. -/
def addChildren (a : Arena) (parent : Nat) : List Symbol → Arena × List (Symbol × Nat)
  | [] => (a, [])
  | s :: rest =>
    let (b, children) := addChildren (a.addChild parent s) parent rest
    (b, (s, a.length) :: children)

def ofStart (symbol : Symbol) : Arena :=
  addChild [⟨⟨0, Tree.rootLabel, none, none⟩, []⟩] 0 symbol

def label? (a : Arena) (i : Nat) : Option Symbol := a[i]?.map (·.info.label)

end Arena

/-- The derivation as a loop over two stacks, their tops first: the symbols that are still to be
derived and the nodes made for them. In place of a lookahead stands the error that ended it. -/
structure Pushdown (σ : Type) where
  arena : Arena
  symbols : List Symbol
  nodes : List Nat
  lookahead : Except ParseError Token
  source : σ
  pulled : Nat
  steps : List Derivation.Step

namespace Pushdown

variable {σ τ : Type}

/-- `EPSILON` goes on neither stack. -/
def push (m : Pushdown σ) (children : List (Symbol × Nat)) : Pushdown σ :=
  let kept := children.filter (·.1 ≠ Symbol.epsilon)
  { m with symbols := kept.map (·.1) ++ m.symbols, nodes := kept.map (·.2) ++ m.nodes }

section Loop

variable (next : σ → Except LexicalError Token × σ)

def pull (m : Pushdown σ) : Pushdown σ :=
  { m with
    lookahead := (next m.source).1.mapError .lexical
    source := (next m.source).2
    pulled := m.pulled + 1 }

def start (symbol : Symbol) (source : σ) : Pushdown σ where
  arena := .ofStart symbol
  symbols := [symbol]
  nodes := [1]
  lookahead := (next source).1.mapError .lexical
  source := (next source).2
  pulled := 1
  steps := []

variable (table : Table)

/-- One turn of the loop, which stops at an error and when either stack is empty. -/
def step (m : Pushdown σ) : Option (Pushdown σ) :=
  match m.lookahead, m.symbols, m.nodes with
  | .ok token, s :: symbols, i :: nodes =>
    if s = token.kind then
      some (pull next { m with
        arena := m.arena.mark i token
        symbols
        nodes
        steps := .matched token.kind token.line :: m.steps })
    else if !table.isRule s then
      some { m with lookahead := .error (.rejected (.mismatch s token)) }
    else
      match table.lookup s token.kind with
      | none => some { m with lookahead := .error (.rejected (.noProduction s token)) }
      | some p =>
        let (arena, children) := m.arena.addChildren i p
        some (push { m with
          arena
          symbols
          nodes
          steps := .expand s p token.kind :: m.steps } children)
  | _, _, _ => none

def iterate : Nat → Pushdown σ → Option (Pushdown σ)
  | 0, m => some m
  | count + 1, m => (step next table m).bind (iterate count)

end Loop

def result (m : Pushdown σ) : Except ParseError Arena := m.lookahead.map fun _ => m.arena

/-- The loop stops with the outcome, and it does not stop where there is none. -/
structure ComesTo (next : σ → Except LexicalError Token × σ) (table : Table) (m : Pushdown σ)
    (o : Derivation.Outcome) : Prop where
  stops : o.result ≠ .error .endless → ∃ count m', iterate next table count m = some m' ∧
    step next table m' = none ∧ m'.result = o.result.map Tree.arena ∧ m'.pulled = o.pulled ∧
    m'.steps.reverse = o.steps
  goesOn : o.result = .error .endless → ∀ count, ∃ m', iterate next table count m = some m'

end Pushdown

namespace Arena

variable {a : Arena} {i parent : Nat}

theorem getElem?_mark (a : Arena) (i j : Nat) (token : Token) :
    (a.mark i token)[j]? = a[j]?.map fun row => if i = j then
      { row with info := { row.info with literal := token.literal, line := some token.line } }
      else row := by
  rw [mark, List.getElem?_modify]
  rfl

theorem length_addChild (a : Arena) (parent : Nat) (s : Symbol) :
    (a.addChild parent s).length = a.length + 1 := by
  simp [addChild]

theorem getElem?_addChild (s : Symbol) (h : i < a.length) :
    (a.addChild parent s)[i]? = a[i]?.map fun row => if parent = i then
      { row with children := row.children ++ [a.length] } else row := by
  rw [addChild, List.getElem?_append_left (by simpa using h), List.getElem?_modify]
  rfl

theorem getElem?_addChild_length (a : Arena) (parent : Nat) (s : Symbol) :
    (a.addChild parent s)[a.length]? = some (Tree.leaf a.length s).row := by
  rw [addChild, List.getElem?_append_right (by simp)]
  simp [Tree.row, Tree.leaf, Tree.info, Tree.children]

theorem addChildren_snd (a : Arena) (parent : Nat) (p : List Symbol) :
    (a.addChildren parent p).2 = p.zipIdx a.length := by
  induction p generalizing a with
  | nil => rfl
  | cons s rest ih =>
    change (s, a.length) :: ((a.addChild parent s).addChildren parent rest).2 = _
    rw [ih, length_addChild, List.zipIdx_cons]

theorem length_addChildren (a : Arena) (parent : Nat) (p : List Symbol) :
    (a.addChildren parent p).1.length = a.length + p.length := by
  induction p generalizing a with
  | nil => rfl
  | cons s rest ih =>
    rw [addChildren, ih, length_addChild, List.length_cons]
    omega

/-- The rows there were stay as they are, but for the new children of their parent. -/
theorem getElem?_addChildren (p : List Symbol) (h : i < a.length) :
    (a.addChildren parent p).1[i]? = a[i]?.map fun row => if parent = i then
      { row with children := row.children ++ List.range' a.length p.length } else row := by
  induction p generalizing a with
  | nil => simp [addChildren]
  | cons s rest ih =>
    rw [addChildren, ih (by rw [length_addChild]; omega), getElem?_addChild s h, Option.map_map,
      length_addChild]
    congr 1
    funext row
    by_cases hi : parent = i <;> simp [hi, List.range'_succ]

theorem getElem?_addChildren_of_mem {p : List Symbol} {s : Symbol} (hparent : parent < a.length)
    (h : (s, i) ∈ p.zipIdx a.length) :
    (a.addChildren parent p).1[i]? = some (Tree.leaf i s).row := by
  induction p generalizing a with
  | nil => cases h
  | cons s' rest ih =>
    have hlength := length_addChild a parent s'
    rw [addChildren]
    rw [List.zipIdx_cons, List.mem_cons] at h
    rcases h with h | h
    · obtain ⟨rfl, rfl⟩ := Prod.mk.inj h
      rw [getElem?_addChildren rest (by omega), getElem?_addChild_length]
      simp [Nat.ne_of_lt hparent]
    · exact ih (by omega) (by rwa [hlength])

theorem label?_mark (a : Arena) (i j : Nat) (token : Token) :
    (a.mark i token).label? j = a.label? j := by
  rw [label?, label?, getElem?_mark, Option.map_map]
  congr 1
  funext row
  by_cases h : i = j <;> simp [h]

theorem label?_addChildren {s : Symbol} (parent : Nat) (p : List Symbol) (h : a.label? i = some s) :
    (a.addChildren parent p).1.label? i = some s := by
  obtain ⟨row, hrow, -⟩ := Option.map_eq_some_iff.1 h
  have hi : i < a.length := (List.getElem?_eq_some_iff.1 hrow).1
  rw [label?, getElem?_addChildren p hi, Option.map_map, ← h, label?]
  congr 1
  funext row
  by_cases h : parent = i <;> simp [h]

end Arena

namespace Pushdown

variable {σ τ : Type} {next : σ → Except LexicalError Token × σ} {table : Table}
  {m m' : Pushdown σ}

theorem iterate_one (h : step next table m = some m') : iterate next table 1 m = some m' := by
  rw [iterate, h]
  rfl

theorem iterate_add (i j : Nat) (m : Pushdown σ) :
    iterate next table (i + j) m = (iterate next table i m).bind (iterate next table j) := by
  induction i generalizing m with
  | zero =>
    rw [Nat.zero_add]
    rfl
  | succ i ih =>
    rw [Nat.succ_add, iterate, iterate]
    cases step next table m with
    | none => rfl
    | some m₁ => exact ih m₁

theorem iterate_trans {m'' : Pushdown σ} {i j : Nat} (h : iterate next table i m = some m')
    (h' : iterate next table j m' = some m'') : iterate next table (i + j) m = some m'' := by
  rw [iterate_add, h]
  exact h'

theorem exists_iterate_of_le {i j : Nat} (hle : i ≤ j) (h : iterate next table j m = some m') :
    ∃ m', iterate next table i m = some m' := by
  obtain ⟨k, rfl⟩ := Nat.exists_eq_add_of_le hle
  rw [iterate_add] at h
  obtain ⟨m₁, hm₁, -⟩ := Option.bind_eq_some_iff.1 h
  exact ⟨m₁, hm₁⟩

section InStep

/-- The stacks are of one height, and each symbol is the label of the node beside it. -/
def InStep (m : Pushdown σ) : Prop := m.nodes.map m.arena.label? = m.symbols.map some

theorem inStep_start (symbol : Symbol) (source : σ) : (start next symbol source).InStep := rfl

theorem inStep_step (h : m.InStep) (hstep : step next table m = some m') : m'.InStep := by
  unfold step at hstep
  split at hstep
  · next token s symbols i nodes _ hsymbols hnodes =>
    have htops := h
    rw [InStep, hsymbols, hnodes, List.map_cons, List.map_cons] at htops
    obtain ⟨htop, hrest⟩ := List.cons.inj htops
    split at hstep
    · obtain rfl := Option.some.inj hstep
      exact (List.map_congr_left fun j _ => Arena.label?_mark _ _ j _).trans hrest
    · split at hstep
      · obtain rfl := Option.some.inj hstep
        exact h
      · split at hstep
        · obtain rfl := Option.some.inj hstep
          exact h
        · next p _ =>
          obtain rfl := Option.some.inj hstep
          have hlt : i < m.arena.length := by
            obtain ⟨row, hrow, -⟩ := Option.map_eq_some_iff.1 htop
            exact (List.getElem?_eq_some_iff.1 hrow).1
          rw [InStep, push, List.map_append, List.map_append, List.map_map, List.map_map]
          congr 1
          · refine List.map_congr_left fun ⟨s', j⟩ hmem => ?_
            have hchild := List.mem_of_mem_filter hmem
            rw [Arena.addChildren_snd] at hchild
            exact congrArg _ (Arena.getElem?_addChildren_of_mem hlt hchild)
          · refine (List.map_congr_left fun j hj => ?_).trans hrest
            have hlabel : m.arena.label? j ∈ symbols.map some := hrest ▸ List.mem_map_of_mem hj
            obtain ⟨s', -, hs'⟩ := List.mem_map.1 hlabel
            rw [← hs', Arena.label?_addChildren i p hs'.symm]
  · cases hstep

theorem inStep_iterate (h : m.InStep) {count : Nat} (hrun : iterate next table count m = some m') :
    m'.InStep := by
  induction count generalizing m with
  | zero =>
    obtain rfl := Option.some.inj hrun
    exact h
  | succ count ih =>
    obtain ⟨m₁, hstep, hrest⟩ := Option.bind_eq_some_iff.1 hrun
    exact ih (inStep_step h hstep) hrest

/-- Neither stack runs out before the other. -/
theorem stacks_eq_nil (h : m.InStep) (hstop : step next table m = none) {token : Token}
    (hlook : m.lookahead = .ok token) : m.symbols = [] ∧ m.nodes = [] := by
  obtain ⟨arena, symbols, nodes, lookahead, source, pulled, steps⟩ := m
  obtain rfl : lookahead = .ok token := hlook
  cases symbols with
  | nil =>
    cases nodes with
    | nil => exact ⟨rfl, rfl⟩
    | cons i nodes => cases h
  | cons s symbols =>
    cases nodes with
    | nil => cases h
    | cons i nodes =>
      simp only [step] at hstop
      split at hstop
      · cases hstop
      · split at hstop
        · cases hstop
        · split at hstop <;> cases hstop

/-- The stacks are in step from the start on, so that both are empty where the loop stops without
an error. -/
theorem inStep_of_start {symbol : Symbol} {source : σ} {count : Nat}
    (h : iterate next table count (start next symbol source) = some m) :
    m.InStep ∧ (step next table m = none → ∀ token, m.lookahead = .ok token →
      m.symbols = [] ∧ m.nodes = []) := by
  have hin := inStep_iterate (inStep_start symbol source) h
  exact ⟨hin, fun hstop _ hlook => stacks_eq_nil hin hstop hlook⟩

end InStep

section Map

variable {next' : τ → Except LexicalError Token × τ} {view : σ → τ}

def map (view : σ → τ) (m : Pushdown σ) : Pushdown τ :=
  ⟨m.arena, m.symbols, m.nodes, m.lookahead, view m.source, m.pulled, m.steps⟩

variable (hview : ∀ s, next' (view s) = ((next s).1, view (next s).2))

include hview

theorem start_map (symbol : Symbol) (source : σ) :
    start next' symbol (view source) = (start next symbol source).map view := by
  rw [start, hview]
  rfl

theorem step_map (m : Pushdown σ) :
    step next' table (m.map view) = (step next table m).map (map view) := by
  obtain ⟨arena, symbols, nodes, lookahead, source, pulled, steps⟩ := m
  rcases lookahead with e | token
  · rfl
  · rcases symbols with _ | ⟨s, symbols⟩
    · rfl
    · rcases nodes with _ | ⟨i, nodes⟩
      · rfl
      · simp only [step, map]
        split
        · rw [pull, hview]
          rfl
        · split
          · rfl
          · split <;> rfl

theorem iterate_map (count : Nat) (m : Pushdown σ) :
    iterate next' table count (m.map view) = (iterate next table count m).map (map view) := by
  induction count generalizing m with
  | zero => rfl
  | succ count ih =>
    rw [iterate, iterate, step_map hview]
    cases step next table m with
    | none => rfl
    | some m₁ => exact ih m₁

end Map

end Pushdown

theorem Tree.Fills.mem_ids {t : Tree} {first n m i : Nat} (h : Fills [t] first n m)
    (hi : i ∈ t.ids) : i = first ∨ n ≤ i ∧ i < m := by
  have hmem := h.ids.mem_iff.1 (List.mem_flatMap_of_mem (List.mem_singleton_self t) hi)
  have hle := h.le
  simp only [List.length_singleton, List.range'_one, List.mem_append, List.mem_singleton,
    List.mem_range'_1] at hmem
  omega

namespace Derivation

open Pushdown (step iterate)
open Lookahead.Tree (Fills)

variable {table : Table}

section Planted

variable {a b b' : Arena} {t : Tree} {trees : List Tree} {id n m : Nat}

/-- The trees stand in `b`, which has the rows of `a` everywhere but at their roots. -/
structure Planted (a b : Arena) (trees : List Tree) : Prop where
  rows : ∀ t ∈ trees, ∀ n ∈ t.preorder, b[n.id]? = some n.row
  kept : ∀ i < a.length, i ∉ trees.map Tree.id → b[i]? = a[i]?

/-- The symbols stand in a row of nodes that have no children yet. -/
def Fresh (a : Arena) (p : List Symbol) (id : Nat) : Prop :=
  ∀ s i, (s, i) ∈ p.zipIdx id → a[i]? = some (Tree.leaf i s).row

theorem planted_leaf {info : Node} (hrow : b[info.id]? = some ⟨info, []⟩)
    (hkept : ∀ i, i ≠ info.id → b[i]? = a[i]?) : Planted a b [.node info []] where
  rows := by
    simp only [List.mem_singleton, forall_eq, Tree.preorder_node, List.flatMap_nil]
    exact hrow
  kept i _ hi := hkept i fun h => hi (List.mem_singleton.2 h)

theorem planted_mark {s : Symbol} (hrow : a[id]? = some (Tree.leaf id s).row) (token : Token) :
    Planted a (a.mark id token) [.node ⟨id, s, token.literal, some token.line⟩ []] := by
  refine planted_leaf ?_ fun i hi => ?_
  · rw [Arena.getElem?_mark, hrow]
    simp [Tree.row, Tree.leaf, Tree.info, Tree.children]
  · rw [Arena.getElem?_mark]
    simp [Ne.symm hi]

/-- A tree that stands is not touched by what comes after it. -/
theorem Planted.cons (h : Planted a b [t]) (h' : Planted b b' trees) (hlength : a.length ≤ b.length)
    (hids : ∀ i ∈ t.ids, i < b.length ∧ i ∉ trees.map Tree.id) : Planted a b' (t :: trees) where
  rows := by
    refine List.forall_mem_cons.2 ⟨fun n hn => ?_, h'.rows⟩
    obtain ⟨hlt, hnot⟩ := hids n.id (List.mem_map_of_mem hn)
    rw [h'.kept n.id hlt hnot]
    exact h.rows t (List.mem_singleton_self t) n hn
  kept i hi hnot := by
    rw [List.map_cons, List.mem_cons, not_or] at hnot
    rw [h'.kept i (Nat.lt_of_lt_of_le hi hlength) hnot.2]
    exact h.kept i hi (by simpa using hnot.1)

/-- The children were planted below their parent. -/
theorem Planted.node {s : Symbol} {p : List Symbol} (hid : id < a.length)
    (hrow : a[id]? = some (Tree.leaf id s).row)
    (hroots : trees.map Tree.id = List.range' a.length p.length)
    (h : Planted (a.addChildren id p).1 b trees) :
    Planted a b [.node ⟨id, s, none, none⟩ trees] := by
  have hlength := Arena.length_addChildren a id p
  have hnot {i : Nat} (hi : i < a.length) : i ∉ trees.map Tree.id := by
    rw [hroots, List.mem_range'_1]
    omega
  constructor
  · intro t ht n hn
    obtain rfl := List.mem_singleton.1 ht
    rw [Tree.preorder_node, List.mem_cons, List.mem_flatMap] at hn
    rcases hn with rfl | ⟨t, ht, hn⟩
    · change b[id]? = some ⟨⟨id, s, none, none⟩, trees.map Tree.id⟩
      rw [h.kept id (by omega) (hnot hid), Arena.getElem?_addChildren p hid, hrow, hroots]
      simp [Tree.row, Tree.leaf, Tree.info, Tree.children]
    · exact h.rows t ht n hn
  · intro i hi hne
    have hne : id ≠ i := fun h => hne (List.mem_singleton.2 h.symm)
    rw [h.kept i (by omega) (hnot hi), Arena.getElem?_addChildren p hi]
    simp [hne]

end Planted

def Cursor.pushdown (c : Cursor) (a : Arena) (symbols : List Symbol) (nodes : List Nat) :
    Pushdown TokenStream :=
  ⟨a, symbols, nodes, .ok c.lookahead, c.stream, c.pulled, c.steps⟩

def pending (p : List Symbol) (id : Nat) : List (Symbol × Nat) :=
  (p.zipIdx id).filter (·.1 ≠ Symbol.epsilon)

section Steps

variable {c : Cursor} {s : Symbol} (a : Arena) (symbols : List Symbol) (id : Nat) (nodes : List Nat)

theorem step_matched (h : s = c.lookahead.kind) :
    step TokenStream.next table (c.pushdown a (s :: symbols) (id :: nodes)) =
      some { c.asked.pushdown (a.mark id c.lookahead) symbols nodes with
        lookahead := (c.get 1).mapError .lexical } := by
  simp only [step, Cursor.pushdown, if_pos h, Pushdown.pull, TokenStream.next_fst]
  rfl

theorem step_mismatch (h : s ≠ c.lookahead.kind) (hr : table.isRule s = false) :
    step TokenStream.next table (c.pushdown a (s :: symbols) (id :: nodes)) =
      some { c.pushdown a (s :: symbols) (id :: nodes) with
        lookahead := .error (.rejected (.mismatch s c.lookahead)) } := by
  simp only [step, Cursor.pushdown, if_neg h, hr]
  rfl

theorem step_noProduction (h : s ≠ c.lookahead.kind) (hr : table.isRule s = true)
    (hl : table.lookup s c.lookahead.kind = none) :
    step TokenStream.next table (c.pushdown a (s :: symbols) (id :: nodes)) =
      some { c.pushdown a (s :: symbols) (id :: nodes) with
        lookahead := .error (.rejected (.noProduction s c.lookahead)) } := by
  simp only [step, Cursor.pushdown, if_neg h, hr, hl]
  rfl

theorem step_expand {p : Production} (h : s ≠ c.lookahead.kind) (hr : table.isRule s = true)
    (hl : table.lookup s c.lookahead.kind = some p) :
    step TokenStream.next table (c.pushdown a (s :: symbols) (id :: nodes)) =
      some ((c.opened s p).pushdown (a.addChildren id p).1
        ((pending p a.length).map (·.1) ++ symbols) ((pending p a.length).map (·.2) ++ nodes)) := by
  simp only [step, Cursor.pushdown, if_neg h, hr, hl, Pushdown.push, Arena.addChildren_snd]
  rfl

end Steps

/-- What the loop makes of the upper part of its stacks, where a derivation in at most `depth`
levels comes to `r`. -/
inductive Mirrors (table : Table) (depth : Nat) (a : Arena) (symbols : List Symbol)
    (nodes : List Nat) (m : Pushdown TokenStream) : Except ParseError (List Tree) × Cursor → Prop
  | derived {trees : List Tree} {c : Cursor} {k : Nat} {b : Arena} :
      iterate TokenStream.next table k m = some (c.pushdown b symbols nodes) →
      b.length = c.size → Planted a b trees → Mirrors table depth a symbols nodes m (.ok trees, c)
  | failed {e : ParseError} {c : Cursor} {k : Nat} {m' : Pushdown TokenStream} :
      e ≠ .endless → iterate TokenStream.next table k m = some m' → m'.lookahead = .error e →
      m'.pulled = c.pulled → m'.steps = c.steps →
      Mirrors table depth a symbols nodes m (.error e, c)
  | endless {c : Cursor} {k : Nat} {m' : Pushdown TokenStream} :
      depth ≤ k → iterate TokenStream.next table k m = some m' →
      Mirrors table depth a symbols nodes m (.error .endless, c)

section Mirrors

variable {depth depth' : Nat} {a b : Arena} {symbols symbols' : List Symbol}
  {nodes nodes' : List Nat} {m m' : Pushdown TokenStream}
  {r : Except ParseError (List Tree) × Cursor}

theorem Mirrors.after {count : Nat} (hrun : iterate TokenStream.next table count m = some m')
    (hle : depth' ≤ count + depth) (h : Mirrors table depth a symbols nodes m' r) :
    Mirrors table depth' a symbols nodes m r := by
  cases h with
  | derived hrest hb hplanted => exact .derived (Pushdown.iterate_trans hrun hrest) hb hplanted
  | failed he hrest hlook hpulled hsteps =>
    exact .failed he (Pushdown.iterate_trans hrun hrest) hlook hpulled hsteps
  | endless hcount hrest =>
    exact .endless (by omega) (Pushdown.iterate_trans hrun hrest)

theorem Mirrors.error {e : ParseError} {c : Cursor}
    (h : Mirrors table depth a symbols nodes m (.error e, c)) :
    Mirrors table depth b symbols' nodes' m (.error e, c) := by
  cases h with
  | failed he hrun hlook hpulled hsteps => exact .failed he hrun hlook hpulled hsteps
  | endless hcount hrun => exact .endless hcount hrun

theorem Mirrors.attach {t : Tree} (hplanted : Planted a b [t]) (hlength : a.length ≤ b.length)
    (hids : ∀ trees c, r = (.ok trees, c) → ∀ i ∈ t.ids, i < b.length ∧ i ∉ trees.map Tree.id)
    (h : Mirrors table depth b symbols nodes m r) :
    Mirrors table depth a symbols nodes m (attach t r) := by
  cases h with
  | derived hrun hb hrest => exact .derived hrun hb (hplanted.cons hrest hlength (hids _ _ rfl))
  | failed he hrun hlook hpulled hsteps => exact .failed he hrun hlook hpulled hsteps
  | endless hcount hrun => exact .endless hcount hrun

theorem mirrors_deriveAll (symbols : List Symbol) (nodes : List Nat)
    (hf : ∀ (s : Symbol) (id : Nat) (c : Cursor) (a : Arena) (symbols : List Symbol)
      (nodes : List Nat), a.length = c.size → a[id]? = some (Tree.leaf id s).row →
      Mirrors table depth a symbols nodes (c.pushdown a (s :: symbols) (id :: nodes))
        ((derive table depth s id c).1.map ([·]), (derive table depth s id c).2))
    {p : List Symbol} {id : Nat} {c : Cursor} (hlength : a.length = c.size)
    (hid : id + p.length ≤ a.length) (hfresh : Fresh a p id) :
    Mirrors table depth a symbols nodes
      (c.pushdown a ((pending p id).map (·.1) ++ symbols) ((pending p id).map (·.2) ++ nodes))
      (deriveAll (derive table depth) p id c) := by
  induction p generalizing id c a with
  | nil =>
    exact .derived (k := 0) rfl hlength
      ⟨fun t ht => absurd ht List.not_mem_nil, fun _ _ _ => rfl⟩
  | cons s rest ih =>
    rw [List.length_cons] at hid
    have hrow : a[id]? = some (Tree.leaf id s).row := hfresh s id (by simp)
    -- With the tree of the first symbol in place, the others still wait in their nodes.
    have hothers {t : Tree} {d : Cursor} {b : Arena} (hfills : Fills [t] id c.size d.size)
        (hplanted : Planted a b [t]) (hb : b.length = d.size) :
        Mirrors table depth a symbols nodes (d.pushdown b
          ((pending rest (id + 1)).map (·.1) ++ symbols)
          ((pending rest (id + 1)).map (·.2) ++ nodes))
          (attach t (deriveAll (derive table depth) rest (id + 1) d)) := by
      have hle := hfills.le
      have hroot : t.id = id := by simpa using hfills.roots
      refine (ih hb (by omega) fun s' i hmem => ?_).attach hplanted (by omega) ?_
      · have hrange := List.mem_zipIdx hmem
        rw [hplanted.kept i (by omega) (by simp [hroot]; omega)]
        exact hfresh s' i (by rw [List.zipIdx_cons]; exact List.mem_cons_of_mem _ hmem)
      · intro trees c' htrees i hi
        obtain ⟨hcount, hrest⟩ := fills_deriveAll (fun _ _ _ _ _ hid ht => fills_derive hid ht)
          (by omega : id + 1 + rest.length ≤ d.size) htrees
        rw [hrest.roots, List.mem_range'_1, hcount]
        have hi := hfills.mem_ids hi
        omega
    by_cases hs : s = Symbol.epsilon
    · subst hs
      have hpending : pending (Symbol.epsilon :: rest) id = pending rest (id + 1) := by
        simp [pending, List.zipIdx_cons]
      rw [hpending, deriveAll_epsilon]
      exact hothers (Tree.fills_leaf _ _) (planted_leaf hrow fun _ _ => rfl) hlength
    · have hpending : pending (s :: rest) id = (s, id) :: pending rest (id + 1) := by
        simp [pending, List.zipIdx_cons, hs]
      rw [hpending, deriveAll_cons hs]
      have hfirst := hf s id c a ((pending rest (id + 1)).map (·.1) ++ symbols)
        ((pending rest (id + 1)).map (·.2) ++ nodes) hlength hrow
      rcases hderive : derive table depth s id c with ⟨e | t, d⟩
      · rw [hderive] at hfirst
        exact hfirst.error
      · rw [hderive] at hfirst
        cases hfirst with
        | derived hrun hb hplanted =>
          exact (hothers (fills_derive (by omega) hderive) hplanted hb).after hrun (by omega)

theorem mirrors_derive (table : Table) (depth : Nat) (s : Symbol) (id : Nat) (c : Cursor)
    (a : Arena) (symbols : List Symbol) (nodes : List Nat) (hlength : a.length = c.size)
    (hrow : a[id]? = some (Tree.leaf id s).row) :
    Mirrors table depth a symbols nodes (c.pushdown a (s :: symbols) (id :: nodes))
      ((derive table depth s id c).1.map ([·]), (derive table depth s id c).2) := by
  induction depth generalizing s id c a symbols nodes with
  | zero => exact .endless (k := 0) (Nat.le_refl 0) rfl
  | succ depth ih =>
    have hid : id < a.length := (List.getElem?_eq_some_iff.1 hrow).1
    by_cases hs : s = c.lookahead.kind
    · have hstep : iterate TokenStream.next table 1 _ = _ :=
        Pushdown.iterate_one (step_matched a symbols id nodes hs)
      rw [derive_matched hs]
      cases hnext : c.get 1 with
      | error e =>
        rw [hnext] at hstep
        exact .failed (by simp) hstep rfl rfl rfl
      | ok token =>
        rw [hnext] at hstep
        have hlength' : (a.mark id c.lookahead).length = c.asked.size := by
          rw [Arena.mark, List.length_modify]
          exact hlength
        exact .derived (c := { c.asked with lookahead := token }) (b := a.mark id c.lookahead) hstep
          hlength' (planted_mark hrow c.lookahead)
    · cases hr : table.isRule s with
      | false =>
        rw [derive_mismatch hs hr]
        exact .failed (by simp) (Pushdown.iterate_one (step_mismatch a symbols id nodes hs hr)) rfl
          rfl rfl
      | true =>
        cases hl : table.lookup s c.lookahead.kind with
        | none =>
          rw [derive_noProduction hs hr hl]
          exact .failed (by simp)
            (Pushdown.iterate_one (step_noProduction a symbols id nodes hs hr hl)) rfl rfl rfl
        | some p =>
          have hstep := Pushdown.iterate_one (step_expand a symbols id nodes hs hr hl)
          have hsize : (a.addChildren id p).1.length = (c.opened s p).size := by
            rw [Arena.length_addChildren, hlength]
            rfl
          have hrest := mirrors_deriveAll symbols nodes ih hsize
            (by rw [Arena.length_addChildren] : a.length + p.length ≤ (a.addChildren id p).1.length)
            fun s i hmem => Arena.getElem?_addChildren_of_mem hid hmem
          rw [derive_expand hs hr hl, close, ← hlength]
          rcases hall : deriveAll (derive table depth) p a.length (c.opened s p) with
            ⟨e | trees, c'⟩
          · rw [hall] at hrest
            exact hrest.error.after hstep (by omega)
          · rw [hall] at hrest
            refine Mirrors.after hstep (Nat.le_of_eq (Nat.add_comm depth 1)) ?_
            cases hrest with
            | derived hrun hb hplanted =>
              obtain ⟨hcount, hfills⟩ := fills_deriveAll
                (fun _ _ _ _ _ hid ht => fills_derive hid ht)
                (by simp [Cursor.opened, hlength]) hall
              exact .derived hrun hb (hplanted.node hid hrow (hcount ▸ hfills.roots))

end Mirrors

/-- A tree that stands below the root of an arena is all of it. -/
theorem eq_arena_of_planted {a : Arena} {start : Symbol} {t : Tree} {size : Nat}
    (hfills : Fills [t] 1 2 size) (hlength : a.length = size)
    (h : Planted (.ofStart start) a [t]) : a = (Tree.rooted t).arena := by
  have hnumbered := hfills.numbered
  have hroot : t.id = 1 := by simpa using hfills.roots
  have hsize := hfills.size_rooted
  refine List.ext_getElem? fun i => ?_
  by_cases hi : i < size
  · obtain ⟨n, hn, rfl⟩ := hnumbered.exists_node (hsize ▸ hi)
    rw [hnumbered.arena_get hn]
    rw [Tree.rooted, Tree.preorder_node, List.flatMap_singleton, List.mem_cons] at hn
    rcases hn with rfl | hn
    · change a[0]? = some ⟨_, [t.id]⟩
      rw [h.kept 0 Nat.zero_lt_two (by simp [hroot]), hroot]
      rfl
    · exact h.rows t (List.mem_singleton_self t) n hn
  · rw [List.getElem?_eq_none (by omega),
      List.getElem?_eq_none (by rw [hnumbered.length_arena]; omega)]

/-- The two stacks with their arena come to what the derivation comes to. -/
theorem comesTo_parse (table : Table) (start : Symbol) (stream : TokenStream) :
    Pushdown.ComesTo TokenStream.next table (.start TokenStream.next start stream)
      (parse table start stream) := by
  rcases hnext : stream.next with ⟨e | token, rest⟩
  · rw [parse_of_error hnext]
    refine ⟨fun _ => ⟨0, _, rfl, ?_⟩, fun h => by cases h⟩
    rw [Pushdown.start, hnext]
    exact ⟨rfl, rfl, rfl, rfl⟩
  · have hstart : Pushdown.start TokenStream.next start stream =
        (Cursor.first token rest).pushdown (.ofStart start) [start] [1] := by
      rw [Pushdown.start, hnext]
      rfl
    have hmirrors (depth : Nat) := mirrors_derive table depth start 1 (.first token rest)
      (.ofStart start) [] [] rfl rfl
    rw [hstart]
    constructor
    · intro hend
      rw [Ne, parse_eq_endless_iff hnext] at hend
      have hrun := hmirrors (depthBound table stream)
      rw [parse_eq hnext]
      rcases hderive : derive table (depthBound table stream) start 1 (.first token rest) with
        ⟨e | t, c⟩
      · rw [hderive] at hrun hend
        cases hrun with
        | failed _ hrun hlook hpulled hsteps =>
          refine ⟨_, _, hrun, ?_, ?_, hpulled, congrArg List.reverse hsteps⟩
          · rw [step, hlook]
          · rw [Pushdown.result, hlook]
            rfl
        | endless => exact absurd rfl hend
      · rw [hderive] at hrun
        cases hrun with
        | derived hrun hlength hplanted =>
          have hfills := fills_derive (Nat.lt_succ_self 1) hderive
          refine ⟨_, _, hrun, rfl, ?_, rfl, rfl⟩
          exact congrArg Except.ok (eq_arena_of_planted hfills hlength hplanted)
    · intro hend count
      rw [parse_eq_endless_iff hnext] at hend
      have hexhausted : Exhausted (derive table count start 1 (.first token rest)) := by
        by_contra h
        exact h (derive_depthBound (Cursor.at_first hnext) h ▸ hend)
      have hrun := hmirrors count
      rcases hderive : derive table count start 1 (.first token rest) with ⟨r, c⟩
      rw [hderive] at hrun hexhausted
      obtain rfl : r = .error .endless := hexhausted
      cases hrun with
      | failed he => exact absurd rfl he
      | endless hle hrun => exact Pushdown.exists_iterate_of_le hle hrun

/-- The same holds of every source that gives the stream, and so of a scanner. -/
theorem comesTo_parse_of_view {σ : Type} {next : σ → Except LexicalError Token × σ}
    {view : σ → TokenStream} (hview : ∀ s, (view s).next = ((next s).1, view (next s).2))
    (table : Table) (start : Symbol) (source : σ) :
    Pushdown.ComesTo next table (.start next start source) (parse table start (view source)) := by
  obtain ⟨hstops, hgoesOn⟩ := comesTo_parse table start (view source)
  rw [Pushdown.start_map hview] at hstops hgoesOn
  constructor
  · intro hend
    obtain ⟨count, m', hrun, hstop, hresult, hpulled, hsteps⟩ := hstops hend
    rw [Pushdown.iterate_map hview] at hrun
    obtain ⟨m, hm, rfl⟩ := Option.map_eq_some_iff.1 hrun
    rw [Pushdown.step_map hview, Option.map_eq_none_iff] at hstop
    exact ⟨count, m, hm, hstop, hresult, hpulled, hsteps⟩
  · intro hend count
    obtain ⟨m', hrun⟩ := hgoesOn hend count
    rw [Pushdown.iterate_map hview] at hrun
    obtain ⟨m, hm, -⟩ := Option.map_eq_some_iff.1 hrun
    exact ⟨m, hm⟩

theorem comesTo_parse_scan (table : Table) (start : Symbol) (source : String) :
    Pushdown.ComesTo Scanner.next table (.start Scanner.next start (.ofSource source))
      (parse table start (.scan source)) := by
  have hview (s : Scanner) : s.stream.next = (s.next.1, s.next.2.stream) := Scanner.stream_next rfl
  rw [TokenStream.scan, (Scanner.unmarked_ofSource source).drain_eq]
  exact comesTo_parse_of_view hview table start (.ofSource source)

end Derivation

end Lookahead
