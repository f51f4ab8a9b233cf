import Lookahead.Proofs.Source.Code
import Mathlib.Algebra.Order.Group.Multiset
import Mathlib.Tactic.Abel

namespace Lookahead

def Op.isControl : Op → Bool
  | label | goto | ifFalse | ret => true
  | _ => false

def Operand.temps : Operand → Multiset Nat
  | temp i => {i}
  | _ => 0

namespace Quad

def defined? (q : Quad) : Option Nat :=
  match q.result with
  | some (.temp i) => some i
  | _ => none

def uses (q : Quad) : Multiset Nat := q.arg1.elim 0 Operand.temps + q.arg2.elim 0 Operand.temps

end Quad

/-- `Flows live n code live' n'`: where the temporaries `live` are open and `n` is the next number,
`code` uses only open temporaries, each of them once, and defines the next ones in order. It leaves
`live'` open and `n'` as the next number. No temporary is open across the end of a basic block. -/
inductive Flows : Multiset Nat → Nat → List Quad → Multiset Nat → Nat → Prop
  | nil {live : Multiset Nat} {n : Nat} : Flows live n [] live n
  | use {q : Quad} {rest live : Multiset Nat} {n n' : Nat} {code : List Quad}
      (hq : q.defined? = none) (hrest : q.op.isControl = true → rest = 0)
      (h : Flows rest n code live n') : Flows (q.uses + rest) n (q :: code) live n'
  | define {q : Quad} {rest live : Multiset Nat} {n n' : Nat} {code : List Quad}
      (hq : q.defined? = some n) (hop : q.op.isControl = false)
      (h : Flows (n ::ₘ rest) (n + 1) code live n') : Flows (q.uses + rest) n (q :: code) live n'

namespace Flows

variable {live mid live' : Multiset Nat} {n m n' i : Nat} {code more : List Quad}

theorem append (h : Flows live n code mid m) (h' : Flows mid m more live' n') :
    Flows live n (code ++ more) live' n' := by
  induction h with
  | nil => exact h'
  | use hq hrest _ ih => exact .use hq hrest (ih h')
  | define hq hop _ ih => exact .define hq hop (ih h')

/-- An instruction that uses all that is open and defines nothing. -/
theorem last {q : Quad} (hq : q.defined? = none) (huses : q.uses = live) :
    Flows live n [q] 0 n := by
  rw [← huses, ← add_zero q.uses]
  exact .use hq (fun _ => rfl) .nil

/-- The numbers of the temporaries go on from `n`. -/
theorem exists_defined (h : Flows live n code live' n') :
    ∃ k, n' = n + k ∧ code.filterMap Quad.defined? = List.range' n k := by
  induction h with
  | nil => exact ⟨0, rfl, rfl⟩
  | use hq _ _ ih =>
    obtain ⟨k, hk, hcode⟩ := ih
    exact ⟨k, hk, (List.filterMap_cons_none hq).trans hcode⟩
  | @define q rest live n n' code hq _ _ ih =>
    obtain ⟨k, hk, hcode⟩ := ih
    refine ⟨k + 1, by omega, ?_⟩
    rw [List.filterMap_cons_some hq, hcode, List.range'_succ]

/-- What is open at first and what is defined is used, or still open in the end. -/
theorem balance (h : Flows live n code live' n') :
    live + code.filterMap Quad.defined? = (code.map Quad.uses).sum + live' := by
  induction h with
  | nil => exact add_comm _ _
  | use hq _ _ ih =>
    rw [List.filterMap_cons_none hq, List.map_cons, List.sum_cons, add_assoc, ih, ← add_assoc]
  | @define q rest live n n' code hq _ _ ih =>
    rw [List.filterMap_cons_some hq, List.map_cons, List.sum_cons, ← Multiset.cons_coe, add_assoc,
      Multiset.add_cons, ← Multiset.cons_add, ih, ← add_assoc]

/-- An open temporary is used within the basic block. -/
theorem exists_use (h : Flows live n code live' n') (hi : i ∈ live) (hi' : i ∉ live') :
    ∃ between q after, code = between ++ q :: after ∧ i ∈ q.uses ∧
      ∀ r ∈ between, r.op.isControl = false := by
  induction h with
  | nil => exact absurd hi hi'
  | @use q rest live n n' code _ hrest _ ih =>
    by_cases hq : i ∈ q.uses
    · exact ⟨[], q, code, rfl, hq, List.forall_mem_nil _⟩
    -- What stays open behind an instruction rules out that it ends the block.
    have hi : i ∈ rest := (Multiset.mem_add.1 hi).resolve_left hq
    have hop : q.op.isControl = false := by
      rw [Bool.eq_false_iff]
      intro hop
      rw [hrest hop] at hi
      exact absurd hi (Multiset.notMem_zero i)
    obtain ⟨between, u, after, rfl, hu, hbetween⟩ := ih hi hi'
    exact ⟨q :: between, u, after, rfl, hu, List.forall_mem_cons.2 ⟨hop, hbetween⟩⟩
  | @define q rest live n n' code _ hop _ ih =>
    by_cases hq : i ∈ q.uses
    · exact ⟨[], q, code, rfl, hq, List.forall_mem_nil _⟩
    have hi : i ∈ rest := (Multiset.mem_add.1 hi).resolve_left hq
    obtain ⟨between, u, after, rfl, hu, hbetween⟩ := ih (Multiset.mem_cons_of_mem hi) hi'
    exact ⟨q :: between, u, after, rfl, hu, List.forall_mem_cons.2 ⟨hop, hbetween⟩⟩

/-- A temporary that is not left open is used behind its definition, within the basic block. -/
theorem exists_define (h : Flows live n code live' n')
    (hi : i ∈ code.filterMap Quad.defined?) (hi' : i ∉ live') :
    ∃ before d between q after, code = before ++ d :: (between ++ q :: after) ∧
      d.defined? = some i ∧ i ∈ q.uses ∧ ∀ r ∈ between, r.op.isControl = false := by
  induction h with
  | nil => cases hi
  | @use q rest live n n' code hq _ _ ih =>
    rw [List.filterMap_cons_none hq] at hi
    obtain ⟨before, d, between, u, after, rfl, hrest⟩ := ih hi hi'
    exact ⟨q :: before, d, between, u, after, rfl, hrest⟩
  | @define q rest live n n' code hq _ h ih =>
    rw [List.filterMap_cons_some hq] at hi
    rcases List.mem_cons.1 hi with rfl | hi
    · obtain ⟨between, u, after, rfl, hu, hbetween⟩ :=
        h.exists_use (Multiset.mem_cons_self i rest) hi'
      exact ⟨[], q, between, u, after, rfl, hq, hu, hbetween⟩
    · obtain ⟨before, d, between, u, after, rfl, hrest⟩ := ih hi hi'
      exact ⟨q :: before, d, between, u, after, rfl, hrest⟩

theorem mem_sum_uses : i ∈ (code.map Quad.uses).sum ↔ ∃ q ∈ code, i ∈ q.uses := by
  induction code with
  | nil => simp
  | cons q code ih => simp [ih]

/-- What is used once in all is used by one instruction. -/
theorem countP_uses (h : (code.map Quad.uses).sum.count i = 1) :
    code.countP (fun q => i ∈ q.uses) = 1 := by
  induction code with
  | nil => cases h
  | cons q code ih =>
    rw [List.map_cons, List.sum_cons, Multiset.count_add] at h
    rw [List.countP_cons]
    by_cases hq : i ∈ q.uses
    · have hrest : (code.map Quad.uses).sum.count i = 0 := by
        have := Multiset.count_pos.2 hq
        omega
      have hnone : ¬∃ r ∈ code, i ∈ r.uses := by
        rw [← mem_sum_uses]
        exact Multiset.count_eq_zero.1 hrest
      rw [List.countP_eq_zero.2 fun r hr => by simpa using fun hi => hnone ⟨r, hr, hi⟩]
      simp [hq]
    · rw [Multiset.count_eq_zero.2 hq, Nat.zero_add] at h
      rw [ih h]
      simp [hq]

/-- Code that starts and ends with nothing open uses just the temporaries it defines, each of them
in one instruction. -/
theorem linear (h : Flows 0 n code 0 n') :
    (∀ q ∈ code, ∀ i ∈ q.uses, i ∈ code.filterMap Quad.defined?) ∧
      ∀ i ∈ code.filterMap Quad.defined?, code.countP (fun q => i ∈ q.uses) = 1 := by
  have hbalance := h.balance
  rw [zero_add, add_zero] at hbalance
  constructor
  · intro q hq i hi
    rw [← Multiset.mem_coe, hbalance]
    exact mem_sum_uses.2 ⟨q, hq, hi⟩
  · intro i hi
    apply countP_uses
    obtain ⟨k, -, hdefined⟩ := h.exists_defined
    rw [← hbalance, Multiset.coe_count]
    rw [hdefined] at hi ⊢
    exact List.count_eq_one_of_mem List.nodup_range' hi

end Flows

namespace Source

/-- Straight-line code that uses the temporaries `given`, comes to a result that holds `held`, and
leaves all others alone. -/
def Flowing {α : Type} (x : Emit α) (given : Multiset Nat) (held : α → Multiset Nat) : Prop :=
  ∀ n frame, Flows (given + frame) n (x n).code (held (x n).result + frame) (x n).temps

section Flowing

variable {α β : Type} {given : Multiset Nat} {x : Emit α}

theorem flowing_pure (a : α) (held : α → Multiset Nat) : Flowing (pure a) (held a) held :=
  fun _ _ => .nil

theorem Flowing.bind {mid : α → Multiset Nat} {held : β → Multiset Nat} {f : α → Emit β}
    (hx : Flowing x given mid) (hf : ∀ a, Flowing (f a) (mid a) held) :
    Flowing (x >>= f) given held :=
  fun n frame => (hx n frame).append (hf _ _ frame)

/-- Temporaries that the code does not know of stay open. -/
theorem Flowing.frame {held : α → Multiset Nat} (hx : Flowing x given held)
    (extra : Multiset Nat) : Flowing x (given + extra) fun a => held a + extra := by
  intro n frame
  rw [add_assoc, add_assoc]
  exact hx n (extra + frame)

theorem flowing_emit {q : Quad} (hq : q.defined? = none) (hop : q.op.isControl = false) :
    Flowing (Emit.emit q) q.uses fun _ => 0 := by
  intro n frame
  rw [zero_add]
  exact .use hq (fun h => by rw [hop] at h; cases h) .nil

/-- A fresh temporary is the result of the instruction that comes next. -/
theorem flowing_define {q : Operand → Quad} (hq : ∀ i, (q (.temp i)).defined? = some i)
    (hop : ∀ t, (q t).op.isControl = false) (huses : ∀ t, (q t).uses = given) :
    Flowing (do let t ← Emit.newTemp; Emit.emit (q t); return t) given Operand.temps := by
  intro n frame
  have h : Flows ((q (.temp n)).uses + frame) n [q (.temp n)] (n ::ₘ frame) (n + 1) :=
    .define (hq n) (hop _) .nil
  rwa [huses] at h

theorem flowing_apply {op : Op} (hop : op.isControl = false) (lhs rhs : Operand) :
    Flowing (Emit.apply op lhs rhs) (lhs.temps + rhs.temps) Operand.temps :=
  flowing_define (q := fun t => .binary op lhs rhs t) (fun _ => rfl) (fun _ => hop) fun _ => rfl

theorem flowing_params (places : List Operand) :
    Flowing (Emit.params places) (places.map Operand.temps).sum fun _ => 0 := by
  induction places with
  | nil => exact flowing_pure () fun _ => 0
  | cons place rest ih =>
    have h := (flowing_emit (q := .param place) rfl rfl).frame (rest.map Operand.temps).sum
    rw [show (Quad.param place).uses = place.temps from add_zero _] at h
    rw [List.map_cons, List.sum_cons]
    exact h.bind fun _ => by rwa [zero_add]

theorem isControl_arithOp (op : ArithOp) : op.1.isControl = false := by
  obtain ⟨op, hop⟩ := op
  cases op <;> first | rfl | cases hop

theorem isControl_chainOp (op : ChainOp) : op.1.isControl = false := by
  obtain ⟨op, hop⟩ := op
  cases op <;> first | rfl | cases hop

def waiting (left : Option (Operand × ChainOp)) : Multiset Nat := left.elim 0 fun p => p.1.temps

theorem flowing_close (left : Option (Operand × ChainOp)) (value : Operand) :
    Flowing (Emit.close left value) (waiting left + value.temps) Operand.temps := by
  cases left with
  | none =>
    rw [show waiting none + value.temps = value.temps from zero_add _]
    exact flowing_pure value Operand.temps
  | some entry => exact flowing_apply (isControl_chainOp _) _ _

theorem flowing_chain (links : List (ChainOp × Operand)) (left : Option (Operand × ChainOp))
    (value : Operand) :
    Flowing (Emit.chain left value links)
      (waiting left + value.temps + (links.map fun link => link.2.temps).sum) Operand.temps := by
  induction links generalizing left value with
  | nil =>
    rw [List.map_nil, List.sum_nil, add_zero]
    exact flowing_close left value
  | cons link rest ih =>
    obtain ⟨op, rhs⟩ := link
    rw [Emit.chain, List.map_cons, List.sum_cons]
    -- The operands that the next instruction does not use are its frame.
    split
    · have h := (flowing_apply (isControl_chainOp op) value rhs).frame
        (waiting left + (rest.map fun link => link.2.temps).sum)
      rw [show waiting left + value.temps + (rhs.temps + (rest.map fun link => link.2.temps).sum) =
        value.temps + rhs.temps + (waiting left + (rest.map fun link => link.2.temps).sum) by abel]
      refine h.bind fun place => ?_
      rw [← add_assoc, add_comm place.temps]
      exact ih left place
    · have h := (flowing_close left value).frame
        (rhs.temps + (rest.map fun link => link.2.temps).sum)
      refine h.bind fun place => ?_
      rw [← add_assoc]
      exact ih (some (place, op)) rhs

mutual

theorem flowing_expr : ∀ e : Expr, Flowing e.lower 0 Operand.temps
  | .name _ | .num _ | .char _ => flowing_pure _ Operand.temps
  | .call callee args => by
    refine (flowing_args args).bind fun places => (flowing_params places).bind fun _ => ?_
    exact flowing_define (q := fun t => .call callee.text places.length (some t)) (fun _ => rfl)
      (fun _ => rfl) fun _ => rfl
  | .not e => by
    refine (flowing_expr e).bind fun place => ?_
    exact flowing_define (q := fun t => .not place t) (fun _ => rfl) (fun _ => rfl)
      fun _ => add_zero _
  | .binary op lhs rhs => by
    -- The place of the left side stays open while the right side is computed.
    refine (flowing_expr lhs).bind fun left => ?_
    have h := (flowing_expr rhs).frame left.temps
    rw [zero_add] at h
    refine h.bind fun right => ?_
    rw [add_comm]
    exact flowing_apply (isControl_arithOp op) left right
  | .chain first rest => by
    refine (flowing_expr first).bind fun place => ?_
    have h := (flowing_links rest).frame place.temps
    rw [zero_add] at h
    refine h.bind fun links => ?_
    have hchain := flowing_chain links none place
    rwa [show waiting none + place.temps = place.temps from zero_add _, add_comm] at hchain

theorem flowing_args : ∀ args : Args,
    Flowing args.lower 0 fun places => (places.map Operand.temps).sum
  | .nil => flowing_pure [] fun places => (places.map Operand.temps).sum
  | .cons e rest => by
    refine (flowing_expr e).bind fun place => ?_
    have h := (flowing_args rest).frame place.temps
    rw [zero_add] at h
    refine h.bind fun places => ?_
    rw [add_comm, ← List.sum_cons, ← List.map_cons]
    exact flowing_pure (place :: places) fun places => (places.map Operand.temps).sum

theorem flowing_links : ∀ links : Links,
    Flowing links.lower 0 fun found => (found.map fun link => link.2.temps).sum
  | .nil => flowing_pure [] fun found => (found.map fun link => link.2.temps).sum
  | .cons op e rest => by
    refine (flowing_expr e).bind fun place => ?_
    have h := (flowing_links rest).frame place.temps
    rw [zero_add] at h
    refine h.bind fun found => ?_
    rw [add_comm]
    exact flowing_pure ((op, place) :: found) fun found => (found.map fun link => link.2.temps).sum

end

end Flowing

def Tidy {α : Type} (x : Emission α) : Prop :=
  ∀ p n l, Flows 0 n ((x p n l).code.map Prod.fst) 0 (x p n l).temps

section Tidy

variable {α β : Type} {x : Emission α}

theorem tidy_pure (a : α) : Tidy (pure a : Emission α) := fun _ _ _ => .nil

theorem tidy_newLabel : Tidy Emission.newLabel := fun _ _ _ => .nil

theorem Tidy.bind {f : α → Emission β} (hx : Tidy x) (hf : ∀ a, Tidy (f a)) : Tidy (x >>= f) := by
  intro p n l
  rw [Emission.map_fst_bind]
  exact (hx p n l).append (hf _ p _ _)

theorem Tidy.withLine (hx : Tidy x) (line : Option Nat) : Tidy (Emission.withLine line x) :=
  fun _ => hx _

theorem Tidy.withComponent (hx : Tidy x) (component : Component) :
    Tidy (Emission.withComponent component x) := fun _ => hx _

theorem tidy_straight {u : Emit α} (h : ∀ n, Flows 0 n (u n).code 0 (u n).temps) :
    Tidy (Emission.straight u) := by
  intro p n l
  rw [Emission.map_fst_straight]
  exact h n

/-- The place that straight-line code comes to is used up by one instruction behind it. -/
theorem tidy_into {u : Emit Operand} (hu : Flowing u 0 Operand.temps) {q : Operand → Quad}
    (hq : ∀ place, (q place).defined? = none) (huses : ∀ place, (q place).uses = place.temps) :
    Tidy (Emission.straight (u >>= fun place => Emit.emit (q place))) := by
  apply tidy_straight
  intro n
  have h := hu n 0
  rw [add_zero, add_zero] at h
  exact h.append (.last (hq _) (huses _))

theorem tidy_of_flowing {u : Emit Unit} (hu : Flowing u 0 fun _ => 0) :
    Tidy (Emission.straight u) := by
  apply tidy_straight
  intro n
  have h := hu n 0
  rwa [add_zero] at h

theorem tidy_emit {q : Quad} (hq : q.defined? = none) (huses : q.uses = 0) :
    Tidy (Emission.straight (Emit.emit q)) :=
  tidy_straight fun _ => .last hq huses

theorem tidy_decl (d : Decl) : Tidy (Emission.straight d.lower) := by
  rw [Decl.lower]
  cases d.init with
  | none => exact tidy_of_flowing (flowing_pure () fun _ => 0)
  | some e => exact tidy_into (flowing_expr e) (fun _ => rfl) fun _ => add_zero _

theorem tidy_update (u : Update) : Tidy (Emission.straight u.lower) := by
  cases u with
  | assign target e => exact tidy_into (flowing_expr e) (fun _ => rfl) fun _ => add_zero _
  | step target op =>
    exact tidy_into (flowing_apply (isControl_arithOp op) (.name target.text) (.imm 1))
      (fun _ => rfl) fun _ => add_zero _

theorem tidy_simple (s : Simple) : Tidy (Emission.straight s.lower) := by
  cases s with
  | declare d => exact tidy_decl d
  | update u => exact tidy_update u
  | call callee args =>
    refine tidy_of_flowing ((flowing_args args).bind fun places => (flowing_params places).bind
      fun _ => ?_)
    exact flowing_emit (q := .call callee.text places.length none) rfl rfl
  | ret value =>
    cases value with
    | none => exact tidy_emit rfl rfl
    | some e => exact tidy_into (flowing_expr e) (fun _ => rfl) fun _ => add_zero _

theorem tidy_label (name : String) : Tidy (Emission.glue (.label name)) :=
  (tidy_emit rfl rfl).withComponent .glue

theorem tidy_goto (target : String) : Tidy (Emission.glue (.goto target)) :=
  (tidy_emit rfl rfl).withComponent .glue

theorem tidy_test (condition : Expr) (target : String) : Tidy (Emission.test condition target) :=
  (tidy_into (flowing_expr condition) (fun _ => rfl) fun _ => add_zero _).withComponent .condition

theorem tidy_loop (condition : Expr) {body : Emission Unit} (hbody : Tidy body) :
    Tidy (Emission.loop condition body) :=
  tidy_newLabel.bind fun start => tidy_newLabel.bind fun finish =>
    (tidy_label start).bind fun _ => (tidy_test condition finish).bind fun _ =>
      (hbody.withComponent .loopBody).bind fun _ => (tidy_goto start).bind fun _ =>
        tidy_label finish

theorem tidy_arm (isLast : Bool) (finish : String) (line : Option Nat) (condition : Expr)
    {body : Emission Unit} (hbody : Tidy body) :
    Tidy (Emission.arm isLast finish line condition body) := by
  have hbranch {last : Emission Unit} (hlast : Tidy last) (next : String) :
      Tidy (Emission.withLine line (Emission.test condition next) >>= fun _ =>
        Emission.withComponent .thenBranch body >>= fun _ =>
          Emission.glue (.goto finish) >>= fun _ => last) :=
    ((tidy_test condition next).withLine line).bind fun _ =>
      (hbody.withComponent .thenBranch).bind fun _ => (tidy_goto finish).bind fun _ => hlast
  cases isLast with
  | true => exact (tidy_pure finish).bind fun next => hbranch (tidy_pure ()) next
  | false => exact tidy_newLabel.bind fun next => hbranch (tidy_label next) next

mutual

theorem tidy_stmt : ∀ s : Stmt, Tidy s.lower
  | .simple s => (tidy_simple s).bind fun _ _ _ _ => .nil
  | .cond arms => tidy_newLabel.bind fun finish => (tidy_arms arms finish).bind fun _ =>
    tidy_label finish
  | .whileLoop condition body => tidy_loop condition (tidy_block body)
  | .forLoop init condition step body => (tidy_decl init).bind fun _ =>
    tidy_loop condition ((tidy_block body).bind fun _ => tidy_update step)
  | .doUntil body line condition => tidy_newLabel.bind fun start => (tidy_label start).bind fun _ =>
    ((tidy_block body).withComponent .loopBody).bind fun _ =>
      (tidy_test condition start).withLine line

theorem tidy_block : ∀ b : Block, Tidy b.lower
  | .nil => tidy_pure ()
  | .cons line s rest => ((tidy_stmt s).withLine line).bind fun _ => tidy_block rest

theorem tidy_arms : ∀ (a : Arms) (finish : String), Tidy (a.lower finish)
  | .done, _ => tidy_pure ()
  | .otherwise body, _ => (tidy_block body).withComponent .elseBranch
  | .arm line condition body rest, finish =>
    (tidy_arm rest.isDone finish line condition (tidy_block body)).bind fun _ =>
      tidy_arms rest finish

end

theorem flowing_moves (params : List Name) (n : Nat) : Flowing (moves n params) 0 fun _ => 0 := by
  induction params generalizing n with
  | nil => exact flowing_pure () fun _ => 0
  | cons x rest ih =>
    have h := flowing_emit (q := .assign (.name x.text) (.param (n + 1))) rfl rfl
    exact h.bind fun _ => ih (n + 1)

theorem temps_defaultReturn (code : List Quad) : (Lowering.defaultReturn code).temps = 0 := by
  rw [Lowering.defaultReturn]
  cases h : code.reverse.findSome? _ with
  | none => rfl
  | some place =>
    obtain ⟨q, -, hq⟩ := List.exists_of_findSome?_eq_some h
    split at hq
    · cases hq
      rfl
    · cases hq

theorem tidy_opening (f : Function) : Tidy f.opening :=
  (tidy_emit rfl rfl).bind fun _ => (tidy_of_flowing (flowing_moves f.params 0)).bind fun _ =>
    tidy_block f.body

theorem flows_closing (f : Function) (entry : String) (c : Chunk Unit) (n : Nat) :
    Flows 0 n (f.closing entry c) 0 n := by
  have hend : Flows 0 n [.label (Program.endLabel f.name.text)] 0 n := .last rfl rfl
  rw [Function.closing]
  split
  · have hret : Flows 0 n [.ret (some (Lowering.defaultReturn (c.code.map Prod.fst)))] 0 n :=
      .last rfl ((add_zero _).trans (temps_defaultReturn _))
    exact hret.append hend
  · exact hend

theorem tidy_function (f : Function) (entry : String) : Tidy (f.lower entry) := by
  refine Tidy.withLine ?_ f.line
  intro p n l
  change Flows 0 n (List.map Prod.fst (_ ++ List.map _ _)) 0 _
  rw [List.map_append, List.map_map]
  refine (tidy_opening f p n l).append ?_
  change Flows 0 _ (List.map id _) 0 _
  rw [List.map_id]
  exact flows_closing f entry _ _

theorem tidy_functions (entry : String) (fs : List Function) : Tidy (lowerFunctions entry fs) := by
  induction fs with
  | nil => exact tidy_pure ()
  | cons f fs ih => exact (tidy_function f entry).bind fun _ => ih

end Tidy

end Source

end Lookahead
