import Lookahead.Proofs.Code.Provenance
import Lookahead.Proofs.Code.Returns

namespace Lookahead

/-- The instructions of code, over values with the property `P` and labels with the property
`L`. -/
inductive Quad.Formed (P : Operand → Prop) (L : String → Prop) : Quad → Prop
  | straight {q : Quad} (h : q.Straight P) : Formed P L q
  | label {name : String} (h : L name) : Formed P L (.label name)
  | goto {target : String} (h : L target) : Formed P L (.goto target)
  | ifFalse {a : Operand} {target : String} (ha : a.IsValue P) (h : L target) :
      Formed P L (.ifFalse a target)

namespace Source

open Emission

def Emission.Forms {α : Type} (P : Operand → Prop) (L : String → Prop) (x : Emission α) : Prop :=
  ∀ p n l, ∀ e ∈ (x p n l).code, e.1.Formed P L

section Forms

variable {α β : Type} {P : Operand → Prop} {L : String → Prop}

theorem forms_of_nil {x : Emission α} (h : ∀ p n l, (x p n l).code = []) : Forms P L x := by
  intro p n l
  rw [h]
  exact List.forall_mem_nil _

theorem Emission.Forms.bind {x : Emission α} {f : α → Emission β} (hx : Forms P L x)
    (hf : ∀ a, Forms P L (f a)) : Forms P L (x >>= f) :=
  fun p n l => List.forall_mem_append.2 ⟨hx p n l, hf _ p _ _⟩

theorem forms_newLabel_bind {f : String → Emission β}
    (hf : ∀ i, Forms P L (f (labelText i))) : Forms P L (newLabel >>= f) :=
  fun p n l => hf l p n (l + 1)

theorem Emission.Forms.withLine {x : Emission α} (hx : Forms P L x) (line : Option Nat) :
    Forms P L (withLine line x) :=
  fun p => hx ⟨line <|> p.line, p.component⟩

theorem Emission.Forms.withComponent {x : Emission α} (hx : Forms P L x) (component : Component) :
    Forms P L (withComponent component x) :=
  fun p => hx ⟨p.line, some component⟩

theorem forms_straight {u : Emit α} {Q : α → Prop} (hu : Emit.Uses P Q u) :
    Forms P L (straight u) := by
  intro p n l e he
  obtain ⟨q, hq, rfl⟩ := List.mem_map.1 he
  exact .straight ((hu n).1 q hq)

theorem forms_glue {q : Quad} (h : q.Formed P L) : Forms P L (glue q) :=
  fun _ _ _ => List.forall_mem_singleton.2 h

theorem forms_test (hP : ∀ o, o.isLiteral = false → P o) {condition : Expr}
    (h : ∀ o ∈ condition.literals, P o) {target : String} (htarget : L target) :
    Forms P L (test condition target) := by
  intro p n l e he
  obtain ⟨hcode, hresult⟩ := uses_expr hP condition h n
  obtain ⟨q, hq, rfl⟩ := List.mem_map.1 he
  rcases List.mem_append.1 hq with hq | hq
  · exact .straight (hcode q hq)
  · obtain rfl := List.mem_singleton.1 hq
    exact .ifFalse hresult htarget

variable (hP : ∀ o, o.isLiteral = false → P o) (hL : ∀ i, L (labelText i))

include hP hL

theorem forms_loop {condition : Expr} {body : Emission Unit}
    (h : ∀ o ∈ condition.literals, P o) (hbody : Forms P L body) :
    Forms P L (loop condition body) :=
  forms_newLabel_bind fun i => forms_newLabel_bind fun j =>
    (forms_glue (.label (hL i))).bind fun _ => (forms_test hP h (hL j)).bind fun _ =>
      (hbody.withComponent .loopBody).bind fun _ => (forms_glue (.goto (hL i))).bind fun _ =>
        forms_glue (.label (hL j))

theorem forms_arm {condition : Expr} {body : Emission Unit} {finish : String}
    (h : ∀ o ∈ condition.literals, P o) (hbody : Forms P L body) (hfinish : L finish)
    (isLast : Bool) (line : Option Nat) :
    Forms P L (arm isLast finish line condition body) := by
  have hbranch {last : Emission Unit} (hlast : Forms P L last) {next : String} (hnext : L next) :
      Forms P L (withLine line (test condition next) >>= fun _ =>
        withComponent .thenBranch body >>= fun _ => glue (.goto finish) >>= fun _ => last) :=
    ((forms_test hP h hnext).withLine line).bind fun _ =>
      (hbody.withComponent .thenBranch).bind fun _ =>
        (forms_glue (.goto hfinish)).bind fun _ => hlast
  cases isLast with
  | true => exact hbranch (forms_of_nil fun _ _ _ => rfl) hfinish
  | false => exact forms_newLabel_bind fun i => hbranch (forms_glue (.label (hL i))) (hL i)

end Forms

section Spelled

variable {tokens : List Token} {P : Operand → Prop} {L : String → Prop}

theorem holds_of_made (hP : ∀ line o, Operand.SpelledOn tokens line o → P o) (o : Operand)
    (h : o.isLiteral = false) : P o :=
  hP 0 o (Operand.spelledOn_of_made tokens 0 o h)

mutual

theorem forms_stmt (hP : ∀ line o, Operand.SpelledOn tokens line o → P o)
    (hL : ∀ i, L (labelText i)) : ∀ (s : Stmt) {line : Nat}, s.Spelled tokens line →
    Forms P L s.lower
  | .simple _, line, h =>
    (forms_straight (uses_simple (holds_of_made hP) fun o ho => hP line o (h o ho))).bind
      fun _ => forms_of_nil fun _ _ _ => rfl
  | .cond arms, _, h => forms_newLabel_bind fun i =>
    (forms_arms hP hL arms h (hL i)).bind fun _ => forms_glue (.label (hL i))
  | .whileLoop _ body, line, ⟨htest, hbody⟩ =>
    forms_loop (holds_of_made hP) hL (fun o ho => hP line o (htest o ho))
      (forms_block hP hL body hbody)
  | .forLoop _ _ _ body, line, ⟨h, hbody⟩ => by
    obtain ⟨hinit, h⟩ := List.forall_mem_append.1 fun o ho => hP line o (h o ho)
    obtain ⟨htest, hstep⟩ := List.forall_mem_append.1 h
    exact (forms_straight (uses_decl (holds_of_made hP) hinit)).bind fun _ =>
      forms_loop (holds_of_made hP) hL htest ((forms_block hP hL body hbody).bind fun _ =>
        forms_straight (uses_update (holds_of_made hP) hstep))
  | .doUntil body testLine _, _, ⟨hbody, m, _, htest⟩ => forms_newLabel_bind fun i =>
    (forms_glue (.label (hL i))).bind fun _ =>
      ((forms_block hP hL body hbody).withComponent .loopBody).bind fun _ =>
        (forms_test (holds_of_made hP) (fun o ho => hP m o (htest o ho)) (hL i)).withLine testLine

theorem forms_block (hP : ∀ line o, Operand.SpelledOn tokens line o → P o)
    (hL : ∀ i, L (labelText i)) : ∀ b : Block, b.Spelled tokens → Forms P L b.lower
  | .nil, _ => forms_of_nil fun _ _ _ => rfl
  | .cons line s rest, ⟨⟨_, _, hs⟩, hrest⟩ =>
    ((forms_stmt hP hL s hs).withLine line).bind fun _ => forms_block hP hL rest hrest

theorem forms_arms (hP : ∀ line o, Operand.SpelledOn tokens line o → P o)
    (hL : ∀ i, L (labelText i)) : ∀ a : Arms, a.Spelled tokens →
    ∀ {finish : String}, L finish → Forms P L (a.lower finish)
  | .done, _, _, _ => forms_of_nil fun _ _ _ => rfl
  | .otherwise body, h, _, _ => (forms_block hP hL body h).withComponent .elseBranch
  | .arm line _ body rest, ⟨⟨m, _, htest⟩, hbody, hrest⟩, _, hfinish =>
    (forms_arm (holds_of_made hP) hL (fun o ho => hP m o (htest o ho))
      (forms_block hP hL body hbody) hfinish rest.isDone line).bind fun _ =>
        forms_arms hP hL rest hrest hfinish

end

/-- A variable that is assigned has the property of the operands. -/
theorem holds_of_assigned? {q : Quad} (h : q.Formed P L) {name : String}
    (hname : q.assigned? = some name) : P (.name name) := by
  rcases h with @⟨_, h⟩ | _ | _ | _
  · cases h with
    | assign hx _ =>
      cases hname
      exact hx
    | @binary op _ _ hop => cases op <;> simp_all [Quad.assigned?, Quad.binary]
    | _ => cases hname
  all_goals cases hname

theorem isValue_defaultReturn (hP : ∀ o, o.isLiteral = false → P o)
    {code : List Quad} (h : ∀ q ∈ code, q.Formed P L) :
    (Lowering.defaultReturn code).IsValue P := by
  rw [defaultReturn_eq, lastAssigned]
  cases hlast : (code.filterMap Quad.assigned?).getLast? with
  | none => exact ⟨rfl, hP (.imm 0) rfl⟩
  | some name =>
    obtain ⟨q, hq, hname⟩ := List.mem_filterMap.1 (List.mem_of_getLast? hlast)
    exact ⟨rfl, holds_of_assigned? (h q hq) hname⟩

variable (hP : ∀ line o, Operand.SpelledOn tokens line o → P o) (hL : ∀ i, L (labelText i))

include hP hL

/-- The code of a function has the function's labels and the generated ones. -/
theorem forms_function (entry : String) {f : Function} (h : f.Spelled tokens)
    (hname : L f.name.text) (hend : L (Program.endLabel f.name.text)) :
    Forms P L (f.lower entry) := by
  obtain ⟨line, -, -, hparams⟩ := h.header
  have hlabel : Forms P L (straight (Emit.emit (.label f.name.text))) :=
    fun _ _ _ => List.forall_mem_singleton.2 (.label hname)
  have hmoves : Forms P L (straight (moves 0 f.params)) :=
    forms_straight (uses_moves (holds_of_made hP) (fun x hx => hP line _ (hparams x hx)) 0)
  have hopening : Forms P L f.opening :=
    hlabel.bind fun _ => hmoves.bind fun _ => forms_block hP hL f.body h.body
  refine Forms.withLine (fun p n l => List.forall_mem_append.2 ⟨hopening p n l, ?_⟩) f.line
  intro e he
  obtain ⟨q, hq, rfl⟩ := List.mem_map.1 he
  rcases List.mem_append.1 hq with hq | hq
  · split at hq
    · obtain rfl := List.mem_singleton.1 hq
      refine .straight (.retValue (isValue_defaultReturn (L := L) (holds_of_made hP)
        fun q hq => ?_))
      obtain ⟨e, he, rfl⟩ := List.mem_map.1 hq
      exact hopening p n l e he
    · cases hq
  · obtain rfl := List.mem_singleton.1 hq
    exact .label hend

theorem forms_functions (entry : String) {fs : List Function} (h : ∀ f ∈ fs, f.Spelled tokens)
    (hlabels : ∀ f ∈ fs, L f.name.text ∧ L (Program.endLabel f.name.text)) :
    Forms P L (lowerFunctions entry fs) := by
  induction fs with
  | nil => exact forms_of_nil fun _ _ _ => rfl
  | cons f fs ih =>
    obtain ⟨hf, hfs⟩ := List.forall_mem_cons.1 h
    obtain ⟨⟨hname, hend⟩, hrest⟩ := List.forall_mem_cons.1 hlabels
    exact (forms_function hP hL entry hf hname hend).bind fun _ => ih hfs hrest

end Spelled

end Source

end Lookahead
