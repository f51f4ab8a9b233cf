import Lookahead.Proofs.Code.Shift
import Lookahead.Proofs.Source.Literals

namespace Lookahead

/-- The operand is the literal of a token on the line, unless lowering made it up. -/
def Operand.SpelledOn (tokens : List Token) (line : Nat) : Operand → Prop
  | name text => ⟨Terminal.ident.name, some text, line⟩ ∈ tokens
  | num digits => ⟨Terminal.number.name, some digits, line⟩ ∈ tokens
  | char c => ⟨Terminal.charLit.name, some (String.singleton c), line⟩ ∈ tokens
  | temp _ | param _ | imm _ | label _ => True

theorem Operand.spelledOn_of_made (tokens : List Token) (line : Nat) :
    ∀ o : Operand, o.isLiteral = false → o.SpelledOn tokens line
  | temp _, _ | param _, _ | imm _, _ | label _, _ => trivial

namespace Source

section Spelled

variable (tokens : List Token)

mutual

/-- What stands in a statement that begins on the line is spelled there, or on the line that a
condition or a statement inside it has of its own. -/
def Stmt.Spelled (line : Nat) : Stmt → Prop
  | .simple s => ∀ o ∈ s.literals, o.SpelledOn tokens line
  | .cond arms => arms.Spelled
  | .whileLoop test body => (∀ o ∈ test.literals, o.SpelledOn tokens line) ∧ body.Spelled
  | .forLoop init test step body =>
    (∀ o ∈ init.literals ++ (test.literals ++ step.literals), o.SpelledOn tokens line) ∧
      body.Spelled
  | .doUntil body testLine test =>
    body.Spelled ∧ ∃ m, testLine = some m ∧ ∀ o ∈ test.literals, o.SpelledOn tokens m

def Block.Spelled : Block → Prop
  | .nil => True
  | .cons line s rest => (∃ m, line = some m ∧ s.Spelled m) ∧ rest.Spelled

def Arms.Spelled : Arms → Prop
  | .done => True
  | .otherwise body => body.Spelled
  | .arm line test body rest =>
    (∃ m, line = some m ∧ ∀ o ∈ test.literals, o.SpelledOn tokens m) ∧ body.Spelled ∧ rest.Spelled

end

end Spelled

open Emission
open Machine (Unbranched)

/-- An instruction with the part of control flow that its operator calls for: conditional jumps are
in conditions; the other jumps and the labels made up by lowering, and nothing else, are glue. -/
structure Marked (entry : Quad × Provenance) : Prop where
  condition : entry.1.op = .ifFalse → entry.2.component = some .condition
  glue : entry.2.component = some .glue ↔
    entry.1.op = .goto ∨ ∃ i, entry.1 = .label (labelText i)

/-- An instruction with the line on which its operands are spelled, and the part that it belongs
to. -/
structure Attributed (tokens : List Token) (entry : Quad × Provenance) : Prop where
  spelled : ∃ line, entry.2.line = some line ∧
    ∀ o ∈ entry.1.operands, o.SpelledOn tokens line
  marked : Marked entry

def Emission.Attributes {α : Type} (tokens : List Token) (line : Nat) (x : Emission α) : Prop :=
  ∀ p n l, p.line = some line → p.component ≠ some .glue →
    ∀ entry ∈ (x p n l).code, Attributed tokens entry

section Attributes

variable {α β : Type} {tokens : List Token} {line : Nat}

theorem attributes_of_nil {x : Emission α} (h : ∀ p n l, (x p n l).code = []) :
    Attributes tokens line x := by
  intro p n l _ _
  rw [h]
  exact List.forall_mem_nil _

theorem attributes_pure (a : α) : Attributes tokens line (pure a : Emission α) :=
  attributes_of_nil fun _ _ _ => rfl

theorem Emission.Attributes.bind {x : Emission α} {f : α → Emission β}
    (hx : Attributes tokens line x) (hf : ∀ a, Attributes tokens line (f a)) :
    Attributes tokens line (x >>= f) :=
  fun p n l hline hglue => List.forall_mem_append.2
    ⟨hx p n l hline hglue, hf _ p _ _ hline hglue⟩

theorem attributes_newLabel_bind {f : String → Emission β}
    (hf : ∀ i, Attributes tokens line (f (labelText i))) :
    Attributes tokens line (newLabel >>= f) :=
  fun p n l => hf l p n (l + 1)

theorem Emission.Attributes.withLine {x : Emission α} {m : Nat} (hx : Attributes tokens m x) :
    Attributes tokens line (withLine (some m) x) :=
  fun p n l _ hglue => hx ⟨some m, p.component⟩ n l rfl hglue

theorem Emission.Attributes.withComponent {x : Emission α} (hx : Attributes tokens line x)
    (component : Component) (h : component ≠ .glue) :
    Attributes tokens line (withComponent component x) :=
  fun p n l hline _ => hx ⟨p.line, some component⟩ n l hline fun heq => h (Option.some.inj heq)

/-- What is neither a jump nor a label made up may be anywhere but in glue. -/
theorem marked_of_plain {q : Quad} {p : Provenance} (hglue : p.component ≠ some .glue)
    (hjump : q.op.isJump = false) (hlabel : ∀ i, q ≠ .label (labelText i)) : Marked (q, p) := by
  have hop (op : Op) (hisJump : op.isJump = true) : q.op ≠ op := by
    intro heq
    rw [heq, hisJump] at hjump
    cases hjump
  refine ⟨fun h => absurd h (hop .ifFalse rfl), iff_of_false hglue ?_⟩
  rintro (h | ⟨i, h⟩)
  · exact hop .goto rfl h
  · exact hlabel i h

theorem marked_of_unbranched {q : Quad} {p : Provenance} (hglue : p.component ≠ some .glue)
    (h : q.labelName? = none ∧ q.op.isJump = false) : Marked (q, p) := by
  refine marked_of_plain hglue h.2 fun i heq => ?_
  rw [heq] at h
  cases h.1

theorem attributes_straight {u : Emit α} {Q : α → Prop}
    (hu : Emit.Uses (Operand.SpelledOn tokens line) Q u) (hb : Unbranched u) :
    Attributes tokens line (straight u) := by
  intro p n l hline hglue entry hentry
  obtain ⟨q, hq, rfl⟩ := List.mem_map.1 hentry
  exact ⟨⟨line, hline, ((hu n).1 q hq).operands (Operand.spelledOn_of_made tokens line)⟩,
    marked_of_unbranched hglue (hb n q hq)⟩

theorem attributes_goto (target : String) : Attributes tokens line (glue (.goto target)) := by
  intro p n l hline _
  refine List.forall_mem_singleton.2
    ⟨⟨line, hline, ?_⟩, (fun hop => by cases hop), iff_of_true rfl (.inl rfl)⟩
  exact List.forall_mem_singleton.2 trivial

theorem attributes_label (i : Nat) : Attributes tokens line (glue (.label (labelText i))) := by
  intro p n l hline _
  refine List.forall_mem_singleton.2
    ⟨⟨line, hline, ?_⟩, (fun hop => by cases hop), iff_of_true rfl (.inr ⟨i, rfl⟩)⟩
  exact List.forall_mem_singleton.2 trivial

theorem attributes_test {condition : Expr}
    (h : ∀ o ∈ condition.literals, o.SpelledOn tokens line) (target : String) :
    Attributes tokens line (test condition target) := by
  intro p n l hline _ entry hentry
  have hmade := Operand.spelledOn_of_made tokens line
  obtain ⟨hcode, -, hresult⟩ := uses_expr hmade condition h n
  obtain ⟨q, hq, rfl⟩ := List.mem_map.1 hentry
  -- The code of the expression, and behind it the jump on what it comes to.
  rcases List.mem_append.1 hq with hq | hq
  · exact ⟨⟨line, hline, (hcode q hq).operands hmade⟩, marked_of_unbranched
      (fun heq => by cases heq) (Machine.unbranched_expr condition n q hq)⟩
  · obtain rfl := List.mem_singleton.1 hq
    refine ⟨⟨line, hline, ?_⟩, fun _ => rfl, iff_of_false (fun heq => by cases heq) ?_⟩
    · exact List.forall_mem_cons.2 ⟨hresult, List.forall_mem_singleton.2 trivial⟩
    · rintro (hop | ⟨i, heq⟩)
      · cases hop
      · cases heq

theorem attributes_loop {condition : Expr} {body : Emission Unit}
    (h : ∀ o ∈ condition.literals, o.SpelledOn tokens line)
    (hbody : Attributes tokens line body) : Attributes tokens line (loop condition body) :=
  attributes_newLabel_bind fun i => attributes_newLabel_bind fun j =>
    (attributes_label i).bind fun _ => (attributes_test h _).bind fun _ =>
      (hbody.withComponent .loopBody (by decide)).bind fun _ => (attributes_goto _).bind fun _ =>
        attributes_label j

theorem attributes_arm {condition : Expr} {body : Emission Unit} {m : Nat}
    (h : ∀ o ∈ condition.literals, o.SpelledOn tokens m) (hbody : Attributes tokens line body)
    (isLast : Bool) (finish : String) :
    Attributes tokens line (arm isLast finish (some m) condition body) := by
  have hbranch {last : Emission Unit} (hlast : Attributes tokens line last) (next : String) :
      Attributes tokens line (withLine (some m) (test condition next) >>= fun _ =>
        withComponent .thenBranch body >>= fun _ => glue (.goto finish) >>= fun _ => last) :=
    (attributes_test h next).withLine.bind fun _ =>
      (hbody.withComponent .thenBranch (by decide)).bind fun _ =>
        (attributes_goto finish).bind fun _ => hlast
  cases isLast with
  | true => exact hbranch (attributes_pure ()) finish
  | false => exact attributes_newLabel_bind fun i => hbranch (attributes_label i) (labelText i)

mutual

theorem attributes_stmt {tokens : List Token} : ∀ (s : Stmt) {line : Nat}, s.Spelled tokens line →
    Attributes tokens line s.lower
  | .simple s, line, h =>
    (attributes_straight (uses_simple (Operand.spelledOn_of_made tokens line) h)
      (Machine.unbranched_simple s)).bind fun _ => attributes_of_nil fun _ _ _ => rfl
  | .cond arms, _, h => attributes_newLabel_bind fun i =>
    (attributes_arms arms h (labelText i)).bind fun _ => attributes_label i
  | .whileLoop _ body, _, ⟨htest, hbody⟩ => attributes_loop htest (attributes_block body hbody)
  | .forLoop init _ step body, line, ⟨h, hbody⟩ => by
    obtain ⟨hinit, h⟩ := List.forall_mem_append.1 h
    obtain ⟨htest, hstep⟩ := List.forall_mem_append.1 h
    have hmade := Operand.spelledOn_of_made tokens line
    refine (attributes_straight (uses_decl hmade hinit) (Machine.unbranched_decl init)).bind
      fun _ => attributes_loop htest ((attributes_block body hbody).bind fun _ => ?_)
    exact attributes_straight (uses_update hmade hstep) (Machine.unbranched_update step)
  | .doUntil body _ _, _, ⟨hbody, m, hm, htest⟩ => by
    subst hm
    exact attributes_newLabel_bind fun i => (attributes_label i).bind fun _ =>
      ((attributes_block body hbody).withComponent .loopBody (by decide)).bind fun _ =>
        (attributes_test htest _).withLine

theorem attributes_block {tokens : List Token} : ∀ (b : Block) {line : Nat}, b.Spelled tokens →
    Attributes tokens line b.lower
  | .nil, _, _ => attributes_pure ()
  | .cons _ s rest, _, ⟨⟨m, hm, hs⟩, hrest⟩ => by
    subst hm
    exact (attributes_stmt s hs).withLine.bind fun _ => attributes_block rest hrest

theorem attributes_arms {tokens : List Token} : ∀ (a : Arms) {line : Nat}, a.Spelled tokens →
    ∀ finish, Attributes tokens line (a.lower finish)
  | .done, _, _, _ => attributes_pure ()
  | .otherwise body, _, h, _ => (attributes_block body h).withComponent .elseBranch (by decide)
  | .arm _ _ body rest, _, ⟨⟨m, hm, htest⟩, hbody, hrest⟩, finish => by
    subst hm
    exact (attributes_arm htest (attributes_block body hbody) _ finish).bind fun _ =>
      attributes_arms rest hrest finish

end

end Attributes

section Nesting

/-- For each instruction of some code, the parts of control flow that it lies in, the innermost
first. -/
abbrev Nesting := List (List Component)

namespace Nesting

/-- Straight-line code lies in no part of its own. -/
def plain {α : Type} (x : Emit α) : Nesting := (x 0).code.map fun _ => []

def inside (component : Component) (parts : Nesting) : Nesting := parts.map (· ++ [component])

def ofTest (condition : Expr) : Nesting := inside .condition (plain condition.lower ++ [[]])

def ofLoop (condition : Expr) (body : Nesting) : Nesting :=
  [.glue] :: (ofTest condition ++ (inside .loopBody body ++ [[.glue], [.glue]]))

end Nesting

open Nesting

mutual

def Stmt.nesting : Stmt → Nesting
  | .simple s => plain s.lower
  | .cond arms => arms.nesting ++ [[.glue]]
  | .whileLoop condition body => ofLoop condition body.nesting
  | .forLoop init condition step body =>
    plain init.lower ++ ofLoop condition (body.nesting ++ plain step.lower)
  | .doUntil body _ condition => [.glue] :: (inside .loopBody body.nesting ++ ofTest condition)

def Block.nesting : Block → Nesting
  | .nil => []
  | .cons _ s rest => s.nesting ++ rest.nesting

/-- Behind the block of an arm there is a jump to the end, and a label unless it is the last. -/
def Arms.nesting : Arms → Nesting
  | .done => []
  | .otherwise body => inside .elseBranch body.nesting
  | .arm _ condition body rest =>
    ofTest condition ++ (inside .thenBranch body.nesting ++
      ([.glue] :: if rest.isDone then [] else [[.glue]])) ++ rest.nesting

end

/-- The label, the moves of the parameters, a synthesized return and the end label lie in no part
of control flow. -/
def Function.nesting (f : Function) (entry : String) : Nesting :=
  [] :: (plain (moves 0 f.params) ++ (f.body.nesting ++
    ((if f.isDefaulted entry then [[]] else []) ++ [[]])))

/-- Each instruction is put down to the innermost part it lies in, or else to that of the whole. -/
def Emission.Nests {α : Type} (parts : Nesting) (x : Emission α) : Prop :=
  ∀ p n l, (x p n l).code.map (·.2.component) = parts.map fun ps => ps.head? <|> p.component

variable {α β : Type} {parts more : Nesting}

theorem nests_of_nil {x : Emission α} (h : ∀ p n l, (x p n l).code = []) : Nests [] x := by
  intro p n l
  rw [h]
  rfl

theorem Emission.Nests.bind {x : Emission α} {f : α → Emission β} (hx : Nests parts x)
    (hf : ∀ a, Nests more (f a)) : Nests (parts ++ more) (x >>= f) := by
  intro p n l
  rw [List.map_append, ← hx p n l, ← hf (x p n l).result p (x p n l).temps (x p n l).labels]
  exact List.map_append

theorem nests_newLabel_bind {f : String → Emission β} (hf : ∀ name, Nests parts (f name)) :
    Nests parts (newLabel >>= f) :=
  fun p n l => hf (labelText l) p n (l + 1)

theorem Emission.Nests.withLine {x : Emission α} (hx : Nests parts x) (line : Option Nat) :
    Nests parts (withLine line x) := fun p => hx ⟨line <|> p.line, p.component⟩

theorem Emission.Nests.withComponent {x : Emission α} (hx : Nests parts x)
    (component : Component) : Nests (inside component parts) (withComponent component x) := by
  intro p n l
  change (x ⟨p.line, some component⟩ n l).code.map _ = _
  rw [hx, inside, List.map_map]
  -- What lies in a part of its own stays there; the rest goes to the new part.
  apply List.map_congr_left
  rintro (_ | ⟨first, rest⟩) _ <;> rfl

theorem nests_straight {u : Emit α} (hu : ∀ n, (u n).code.length = (u 0).code.length) :
    Nests (plain u) (straight u) := by
  intro p n l
  rw [straight, plain, List.map_map, List.map_map]
  change (u n).code.map (fun _ => p.component) = (u 0).code.map fun _ => p.component
  rw [List.map_const', List.map_const', hu n]

theorem nests_glue (q : Quad) : Nests [[.glue]] (glue q) := fun _ _ _ => rfl

section Length

theorem Emit.Shifts.length_eq {m k : Nat} {g : α → α} {x x' : Emit α} (h : Shifts m k g x x') :
    (x' m).code.length = (x 0).code.length := by
  have hshift := h 0
  rw [Nat.zero_add] at hshift
  rw [hshift]
  exact List.length_map _

theorem length_code_expr (e : Expr) (n : Nat) :
    (e.lower n).code.length = (e.lower 0).code.length :=
  (shifts_expr (m := n) (k := 0) e).length_eq

theorem length_code_decl (d : Decl) (n : Nat) :
    (d.lower n).code.length = (d.lower 0).code.length :=
  (shifts_decl (m := n) (k := 0) d).length_eq

theorem length_code_update (u : Update) (n : Nat) :
    (u.lower n).code.length = (u.lower 0).code.length :=
  (shifts_update (m := n) (k := 0) u).length_eq

theorem length_code_simple (s : Simple) (n : Nat) :
    (s.lower n).code.length = (s.lower 0).code.length :=
  (shifts_simple (m := n) (k := 0) s).length_eq

end Length

theorem nests_test (condition : Expr) (target : String) :
    Nests (ofTest condition) (test condition target) := by
  apply Nests.withComponent
  rw [Emit.straight_bind]
  exact (nests_straight (length_code_expr condition)).bind fun _ _ _ _ => rfl

theorem nests_loop (condition : Expr) {body : Emission Unit} (hbody : Nests parts body) :
    Nests (ofLoop condition parts) (loop condition body) :=
  nests_newLabel_bind fun _ => nests_newLabel_bind fun _ => (nests_glue _).bind fun _ =>
    (nests_test condition _).bind fun _ => (hbody.withComponent .loopBody).bind fun _ =>
      (nests_glue _).bind fun _ => nests_glue _

theorem nests_arm (isLast : Bool) (finish : String) (line : Option Nat) (condition : Expr)
    {body : Emission Unit} (hbody : Nests parts body) :
    Nests (ofTest condition ++ (inside .thenBranch parts ++
      ([.glue] :: if isLast then [] else [[.glue]])))
      (arm isLast finish line condition body) := by
  have hbranch {more : Nesting} {last : Emission Unit} (hlast : Nests more last) (next : String) :
      Nests (ofTest condition ++ (inside .thenBranch parts ++ ([[.glue]] ++ more)))
        (withLine line (test condition next) >>= fun _ =>
          withComponent .thenBranch body >>= fun _ => glue (.goto finish) >>= fun _ => last) :=
    ((nests_test condition next).withLine line).bind fun _ =>
      (hbody.withComponent .thenBranch).bind fun _ => (nests_glue _).bind fun _ => hlast
  cases isLast with
  | true => exact hbranch (nests_of_nil fun _ _ _ => rfl) finish
  | false => exact nests_newLabel_bind fun name => hbranch (nests_glue _) name

mutual

theorem nests_stmt : ∀ s : Stmt, Nests s.nesting s.lower
  | .simple s => by
    have hcode := (nests_straight (length_code_simple s)).bind (f := fun _ => markReturn s.returns)
      fun _ => nests_of_nil fun _ _ _ => rfl
    rwa [List.append_nil] at hcode
  | .cond arms => nests_newLabel_bind fun finish => (nests_arms arms finish).bind fun _ =>
    nests_glue _
  | .whileLoop condition body => nests_loop condition (nests_block body)
  | .forLoop init condition step body => (nests_straight (length_code_decl init)).bind fun _ =>
    nests_loop condition ((nests_block body).bind fun _ =>
      nests_straight (length_code_update step))
  | .doUntil body line condition => nests_newLabel_bind fun _ => (nests_glue _).bind fun _ =>
    ((nests_block body).withComponent .loopBody).bind fun _ =>
      (nests_test condition _).withLine line

theorem nests_block : ∀ b : Block, Nests b.nesting b.lower
  | .nil => nests_of_nil fun _ _ _ => rfl
  | .cons line s rest => ((nests_stmt s).withLine line).bind fun _ => nests_block rest

theorem nests_arms : ∀ (a : Arms) (finish : String), Nests a.nesting (a.lower finish)
  | .done, _ => nests_of_nil fun _ _ _ => rfl
  | .otherwise body, _ => (nests_block body).withComponent .elseBranch
  | .arm line condition body rest, finish =>
    (nests_arm rest.isDone finish line condition (nests_block body)).bind fun _ =>
      nests_arms rest finish

end

end Nesting

section Functions

variable {tokens : List Token} {entry : String} {f : Function}

/-- The name and the parameters are spelled on the line of the definition, and the body is
spelled. -/
structure Function.Spelled (tokens : List Token) (f : Function) : Prop where
  header : ∃ line, f.line = some line ∧ (Operand.name f.name.text).SpelledOn tokens line ∧
    ∀ x ∈ f.params, (Operand.name x.text).SpelledOn tokens line
  body : f.body.Spelled tokens

def Function.entrance (f : Function) : List Quad := .label f.name.text :: (moves 0 f.params 0).code

def Function.framing (f : Function) (code : List Quad) : List (Quad × Provenance) :=
  code.map (·, ⟨f.line, none⟩)

/-- How the code of a function is put down to its source. Its label, the moves of its parameters,
a return that the source does not have and its end label are on the line of the definition, in no
part of control flow. All but that return have operands that are spelled on their line. An
instruction is put down to the innermost part that it lies in, and to none if it lies in none. -/
structure Recorded (tokens : List Token) (entry : String) (f : Function)
    (code : List (Quad × Provenance)) : Prop where
  framed : ∃ body place, code = f.framing f.entrance ++
      (body ++ f.framing (Machine.closing f (f.isDefaulted entry) place)) ∧
    ∀ e ∈ f.framing f.entrance ++ body, ∃ line, e.2.line = some line ∧
      ∀ o ∈ e.1.operands, o.SpelledOn tokens line
  line : ∀ e ∈ code, ∃ line, e.2.line = some line
  marked : ∀ e ∈ code, Marked e
  nesting : List.Forall₂ (fun e parts => e.2.component = parts.head? ∧
    (e.2.component = none ↔ parts = [])) code (f.nesting entry)

theorem code_moves (params : List Name) (k n : Nat) :
    (moves k params n).code = (moves k params 0).code := by
  induction params generalizing k with
  | nil => rfl
  | cons x rest ih => exact congrArg (_ :: ·) (ih (k + 1))

/-- The instructions around the body of a function are neither jumps nor labels made up. -/
theorem marked_framing (f : Function) (entry : String) (place : Operand) :
    (∀ e ∈ f.framing f.entrance, Marked e) ∧
      ∀ e ∈ f.framing (Machine.closing f (f.isDefaulted entry) place), Marked e := by
  have hlabel {name : String} (h : ∀ i, labelText i ≠ name) (i : Nat) :
      Quad.label name ≠ .label (labelText i) :=
    fun heq => h i (Option.some.inj (congrArg Quad.labelName? heq)).symm
  have hnone : (none : Option Component) ≠ some .glue := by decide
  constructor <;> intro e he <;> obtain ⟨q, hq, rfl⟩ := List.mem_map.1 he
  · rcases List.mem_cons.1 hq with rfl | hq
    · exact marked_of_plain hnone rfl (hlabel fun i => Machine.labelText_ne_name i f.name)
    · exact marked_of_unbranched hnone (Machine.unbranched_moves f.params 0 0 q hq)
  · rcases List.mem_append.1 hq with hq | hq
    · split at hq
      · obtain rfl := List.mem_singleton.1 hq
        exact marked_of_unbranched hnone ⟨rfl, rfl⟩
      · cases hq
    · obtain rfl := List.mem_singleton.1 hq
      exact marked_of_plain hnone rfl (hlabel fun i => Machine.labelText_ne_endLabel i f.name.text)

theorem spelled_entrance (h : f.Spelled tokens) :
    ∀ e ∈ f.framing f.entrance, ∃ line, e.2.line = some line ∧
      ∀ o ∈ e.1.operands, o.SpelledOn tokens line := by
  obtain ⟨line, hline, -, hparams⟩ := h.header
  intro e he
  obtain ⟨q, hq, rfl⟩ := List.mem_map.1 he
  refine ⟨line, hline, ?_⟩
  rcases List.mem_cons.1 hq with rfl | hq
  · exact List.forall_mem_singleton.2 trivial
  · have hmade := Operand.spelledOn_of_made tokens line
    exact ((uses_moves hmade hparams 0 0).1 q hq).operands hmade

theorem components_framing (f : Function) (code : List Quad) :
    (f.framing code).map (·.2.component) = code.map fun _ => none := by
  rw [Function.framing, List.map_map]
  rfl

/-- Each instruction of a function is put down to the innermost part that it lies in. -/
theorem components_function (f : Function) (entry : String) (place : Operand) (k l : Nat) :
    (f.framing f.entrance ++ ((f.body.lower ⟨f.line, none⟩ k l).code ++
      f.framing (Machine.closing f (f.isDefaulted entry) place))).map (·.2.component) =
        (f.nesting entry).map List.head? := by
  have hbody : (f.body.lower ⟨f.line, none⟩ k l).code.map (·.2.component) =
      f.body.nesting.map List.head? := by
    rw [nests_block]
    apply List.map_congr_left
    rintro (_ | ⟨part, rest⟩) _ <;> rfl
  have hclosing : (Machine.closing f (f.isDefaulted entry) place).map
      (fun _ => (none : Option Component)) =
        ((if f.isDefaulted entry then [[]] else []) ++ [[]] : Nesting).map List.head? := by
    rw [Machine.closing]
    split <;> rfl
  have hentrance : f.entrance.map (fun _ => (none : Option Component)) =
      none :: (Nesting.plain (moves 0 f.params)).map List.head? := by
    rw [Function.entrance, Nesting.plain, List.map_map]
    rfl
  rw [List.map_append, List.map_append, components_framing, components_framing, hbody, hclosing,
    hentrance]
  simp only [Function.nesting, List.map_cons, List.map_append, List.head?_nil, List.cons_append]

theorem recorded_function (h : f.Spelled tokens) (n l : Nat) :
    Recorded tokens entry f (f.lower entry ⟨none, none⟩ n l).code := by
  obtain ⟨line, hline, -⟩ := h.header
  obtain ⟨k, inner, hcode, -⟩ := Machine.exists_code_layout f entry ⟨none, none⟩ n l
  have hplace : Machine.place f ⟨none, none⟩ = ⟨f.line, none⟩ := by
    rw [Machine.place, hline]
    rfl
  rw [hplace, code_moves] at hcode
  change _ = f.framing f.entrance ++ (_ ++ f.framing _) at hcode
  rw [hcode]
  obtain ⟨hentrance, hclosing⟩ := marked_framing f entry (Lowering.defaultReturn inner)
  have hbody := attributes_block f.body h.body ⟨f.line, none⟩ k l hline (fun heq => by cases heq)
  have hframing (code : List Quad) : ∀ e ∈ f.framing code, ∃ line, e.2.line = some line := by
    intro e he
    obtain ⟨q, -, rfl⟩ := List.mem_map.1 he
    exact ⟨line, hline⟩
  have hlines : ∀ e ∈ (f.body.lower ⟨f.line, none⟩ k l).code, ∃ line, e.2.line = some line := by
    intro e he
    obtain ⟨m, hm, -⟩ := (hbody e he).spelled
    exact ⟨m, hm⟩
  refine ⟨⟨_, _, rfl, ?_⟩, ?_, ?_, ?_⟩
  · exact List.forall_mem_append.2 ⟨spelled_entrance h, fun e he => (hbody e he).spelled⟩
  · exact List.forall_mem_append.2 ⟨hframing _, List.forall_mem_append.2 ⟨hlines, hframing _⟩⟩
  · exact List.forall_mem_append.2
      ⟨hentrance, List.forall_mem_append.2 ⟨fun e he => (hbody e he).marked, hclosing⟩⟩
  · have hcomponents := components_function f entry (Lowering.defaultReturn inner) k l
    rw [← List.forall₂_eq_eq_eq, List.forall₂_map_left_iff, List.forall₂_map_right_iff]
      at hcomponents
    refine hcomponents.imp fun e parts heq => ⟨heq, ?_⟩
    rw [heq, List.head?_eq_none_iff]

end Functions

end Source

end Lookahead
