import Lookahead.Proofs.Simulation.Control

namespace Lookahead

def Op.isJump : Op → Bool
  | goto | ifFalse => true
  | _ => false

namespace Machine

open Source

section Names

variable {code : List Quad} {target : String} {place : Operand}

theorem labelNames_append (code more : List Quad) :
    labelNames (code ++ more) = labelNames code ++ labelNames more := List.filterMap_append

theorem labelNames_nil : labelNames [] = [] := rfl

theorem labelNames_label : labelNames (.label target :: code) = target :: labelNames code := rfl

theorem labelNames_goto : labelNames (.goto target :: code) = labelNames code := rfl

theorem labelNames_ifFalse : labelNames (.ifFalse place target :: code) = labelNames code := rfl

end Names

/-- Straight-line code has neither labels nor jumps. -/
def Unbranched {α : Type} (x : Emit α) : Prop :=
  ∀ n, ∀ q ∈ (x n).code, q.labelName? = none ∧ q.op.isJump = false

section Unbranched

variable {α β : Type}

theorem Unbranched.labelNames_eq {x : Emit α} (h : Unbranched x) (n : Nat) :
    labelNames (x n).code = [] :=
  List.filterMap_eq_nil_iff.2 fun q hq => (h n q hq).1

theorem unbranched_pure (a : α) : Unbranched (pure a : Emit α) := fun _ => List.forall_mem_nil _

theorem unbranched_emit {q : Quad} (hlabel : q.labelName? = none) (hjump : q.op.isJump = false) :
    Unbranched (Emit.emit q) :=
  fun _ => List.forall_mem_singleton.2 ⟨hlabel, hjump⟩

theorem Unbranched.bind {x : Emit α} {f : α → Emit β} (hx : Unbranched x)
    (hf : ∀ a, Unbranched (f a)) : Unbranched (x >>= f) :=
  fun n => List.forall_mem_append.2 ⟨hx n, hf _ _⟩

theorem unbranched_newTemp_bind {f : Operand → Emit β} (hf : ∀ i, Unbranched (f (.temp i))) :
    Unbranched (Emit.newTemp >>= f) := fun n => hf n (n + 1)

theorem unbranched_apply {op : Op} (hop : isBinary op = true) (lhs rhs : Operand) :
    Unbranched (Emit.apply op lhs rhs) := by
  have hlabel (i : Nat) : (Quad.binary op lhs rhs (.temp i)).labelName? = none := by
    cases op <;> rfl
  have hjump : op.isJump = false := by cases op <;> first | rfl | cases hop
  exact unbranched_newTemp_bind fun i =>
    (unbranched_emit (hlabel i) hjump).bind fun _ => unbranched_pure _

theorem unbranched_params (places : List Operand) : Unbranched (Emit.params places) := by
  induction places with
  | nil => exact unbranched_pure ()
  | cons place rest ih => exact (unbranched_emit rfl rfl).bind fun _ => ih

theorem unbranched_close (left : Option (Operand × ChainOp)) (value : Operand) :
    Unbranched (Emit.close left value) := by
  cases left with
  | none => exact unbranched_pure value
  | some entry => exact unbranched_apply (isBinary_chainOp _) _ _

theorem unbranched_chain (links : List (ChainOp × Operand)) (left : Option (Operand × ChainOp))
    (value : Operand) : Unbranched (Emit.chain left value links) := by
  induction links generalizing left value with
  | nil => exact unbranched_close left value
  | cons link rest ih =>
    rw [Emit.chain]
    split
    · exact (unbranched_apply (isBinary_chainOp _) _ _).bind fun _ => ih _ _
    · exact (unbranched_close _ _).bind fun _ => ih _ _

mutual

theorem unbranched_expr : ∀ e : Expr, Unbranched e.lower
  | .name _ | .num _ | .char _ => unbranched_pure _
  | .call _ args => (unbranched_args args).bind fun _ => (unbranched_params _).bind fun _ =>
    unbranched_newTemp_bind fun _ => (unbranched_emit rfl rfl).bind fun _ => unbranched_pure _
  | .not e => (unbranched_expr e).bind fun _ => unbranched_newTemp_bind fun _ =>
    (unbranched_emit rfl rfl).bind fun _ => unbranched_pure _
  | .binary _ lhs rhs => (unbranched_expr lhs).bind fun _ => (unbranched_expr rhs).bind fun _ =>
    unbranched_apply (isBinary_arithOp _) _ _
  | .chain first rest => (unbranched_expr first).bind fun _ => (unbranched_links rest).bind fun _ =>
    unbranched_chain _ _ _

theorem unbranched_args : ∀ args : Args, Unbranched args.lower
  | .nil => unbranched_pure _
  | .cons e rest => (unbranched_expr e).bind fun _ => (unbranched_args rest).bind fun _ =>
    unbranched_pure _

theorem unbranched_links : ∀ links : Links, Unbranched links.lower
  | .nil => unbranched_pure _
  | .cons _ e rest => (unbranched_expr e).bind fun _ => (unbranched_links rest).bind fun _ =>
    unbranched_pure _

end

theorem labelNames_expr (e : Expr) (n : Nat) : labelNames (e.lower n).code = [] :=
  (unbranched_expr e).labelNames_eq n

theorem unbranched_decl (d : Decl) : Unbranched d.lower := by
  rw [Decl.lower]
  cases d.init with
  | none => exact unbranched_pure ()
  | some e => exact (unbranched_expr e).bind fun _ => unbranched_emit rfl rfl

theorem unbranched_update (u : Update) : Unbranched u.lower := by
  cases u with
  | assign target e => exact (unbranched_expr e).bind fun _ => unbranched_emit rfl rfl
  | step target op =>
    exact (unbranched_apply (isBinary_arithOp op) _ _).bind fun _ => unbranched_emit rfl rfl

theorem unbranched_simple (s : Simple) : Unbranched s.lower := by
  cases s with
  | declare d => exact unbranched_decl d
  | update u => exact unbranched_update u
  | call callee args =>
    exact (unbranched_args args).bind fun _ => (unbranched_params _).bind fun _ =>
      unbranched_emit rfl rfl
  | ret value =>
    cases value with
    | none => exact unbranched_emit rfl rfl
    | some e => exact (unbranched_expr e).bind fun _ => unbranched_emit rfl rfl

theorem unbranched_moves (params : List Name) (n : Nat) : Unbranched (moves n params) := by
  induction params generalizing n with
  | nil => exact unbranched_pure ()
  | cons x rest ih => exact (unbranched_emit rfl rfl).bind fun _ => ih _

end Unbranched

/-- The labels that the code takes are those in it, each of them once. -/
def Labelled (x : Emission Unit) : Prop :=
  ∀ p n l, ∃ k, (x p n l).labels = l + k ∧
    (labelNames (quads x p n l)).Perm ((List.range' l k).map labelText)

section Labelled

variable {x y : Emission Unit}

theorem Labelled.bind (hx : Labelled x) (hy : Labelled y) : Labelled (x >>= fun _ => y) := by
  intro p n l
  obtain ⟨k, hk, hxs⟩ := hx p n l
  obtain ⟨j, hj, hys⟩ := hy p (x p n l).temps (x p n l).labels
  refine ⟨k + j, ?_, ?_⟩
  · change (y p (x p n l).temps (x p n l).labels).labels = _
    rw [hj, hk, Nat.add_assoc]
  · rw [hk] at hys
    rw [quads_bind, labelNames_append, hk, ← List.range'_append_1, List.map_append]
    exact hxs.append hys

theorem labelled_pure : Labelled (pure ()) := fun _ _ _ => ⟨0, rfl, .refl _⟩

theorem labelled_straight {u : Emit Unit} (h : Unbranched u) : Labelled (Emission.straight u) := by
  intro p n l
  refine ⟨0, rfl, ?_⟩
  rw [quads_straight, h.labelNames_eq]
  exact .refl _

theorem labelled_loop (condition : Expr) (hx : Labelled x) :
    Labelled (Emission.loop condition x) := by
  intro p n l
  obtain ⟨k, hk, hxs⟩ := hx ⟨p.line, some .loopBody⟩ (condition.lower n).temps (l + 2)
  refine ⟨k + 2, ?_, ?_⟩
  · change (x ⟨p.line, some .loopBody⟩ (condition.lower n).temps (l + 2)).labels = _
    omega
  · simp only [quads_loop, labelNames_label, labelNames_append, labelNames_expr,
      labelNames_ifFalse, labelNames_goto, labelNames_nil, List.nil_append]
    rw [List.range'_succ, List.range'_succ, List.map_cons, List.map_cons]
    exact (List.perm_append_singleton _ _).trans (hxs.cons _) |>.cons _

theorem labelled_arm (isLast : Bool) (finish : String) (line : Option Nat) (condition : Expr)
    (hx : Labelled x) : Labelled (Emission.arm isLast finish line condition x) := by
  intro p n l
  cases isLast with
  | true =>
    obtain ⟨k, hk, hxs⟩ := hx ⟨p.line, some .thenBranch⟩ (condition.lower n).temps l
    refine ⟨k, hk, ?_⟩
    simpa only [quads_arm_last, labelNames_append, labelNames_expr, labelNames_ifFalse,
      labelNames_goto, labelNames_nil, List.nil_append, List.append_nil] using hxs
  | false =>
    obtain ⟨k, hk, hxs⟩ := hx ⟨p.line, some .thenBranch⟩ (condition.lower n).temps (l + 1)
    refine ⟨k + 1, ?_, ?_⟩
    · change (x ⟨p.line, some .thenBranch⟩ (condition.lower n).temps (l + 1)).labels = _
      omega
    · simp only [quads_arm, labelNames_append, labelNames_expr, labelNames_ifFalse,
        labelNames_goto, labelNames_label, labelNames_nil, List.nil_append]
      rw [List.range'_succ, List.map_cons]
      exact (List.perm_append_singleton _ _).trans (hxs.cons _)

mutual

theorem labelled_stmt : ∀ s : Stmt, Labelled s.lower
  | .simple s => (labelled_straight (unbranched_simple s)).bind labelled_pure
  | .cond arms => by
    intro p n l
    obtain ⟨k, hk, hxs⟩ := labelled_arms arms (labelText l) p n (l + 1)
    refine ⟨k + 1, ?_, ?_⟩
    · change (arms.lower (labelText l) p n (l + 1)).labels = _
      omega
    · rw [quads_cond, labelNames_append, List.range'_succ, List.map_cons]
      exact (List.perm_append_singleton _ _).trans (hxs.cons _)
  | .whileLoop condition body => labelled_loop condition (labelled_block body)
  | .forLoop init condition step body =>
    (labelled_straight (unbranched_decl init)).bind
      (labelled_loop condition
        ((labelled_block body).bind (labelled_straight (unbranched_update step))))
  | .doUntil body line condition => by
    intro p n l
    obtain ⟨k, hk, hxs⟩ := labelled_block body ⟨p.line, some .loopBody⟩ n (l + 1)
    refine ⟨k + 1, ?_, ?_⟩
    · change (body.lower ⟨p.line, some .loopBody⟩ n (l + 1)).labels = _
      omega
    · simp only [quads_doUntil, labelNames_label, labelNames_append, labelNames_expr,
        labelNames_ifFalse, labelNames_nil, List.append_nil]
      rw [List.range'_succ, List.map_cons]
      exact hxs.cons _

theorem labelled_block : ∀ b : Block, Labelled b.lower
  | .nil => labelled_pure
  | .cons line s rest =>
    Labelled.bind (x := Emission.withLine line s.lower) (fun _ => labelled_stmt s _)
      (labelled_block rest)

theorem labelled_arms : ∀ (a : Arms) (finish : String), Labelled (a.lower finish)
  | .done, _ => labelled_pure
  | .otherwise body, _ => fun p => labelled_block body ⟨p.line, some .elseBranch⟩
  | .arm line condition body rest, finish =>
    (labelled_arm rest.isDone finish line condition (labelled_block body)).bind
      (labelled_arms rest finish)

end

end Labelled

section Texts

theorem toList_toString (i : Nat) : (toString i).toList = Nat.toDigits 10 i := by
  rw [Nat.toString_eq_ofList_toDigits, String.toList_ofList]

theorem isDigit_toDigits (i : Nat) : ∀ c ∈ Nat.toDigits 10 i, c.isDigit = true :=
  fun _ hc => Nat.isDigit_of_mem_toDigits (by omega) (by omega) hc

/-- The digits of a number are some and are nothing else. -/
theorem isNumber_toDigits (i : Nat) :
    (!(Nat.toDigits 10 i).isEmpty && (Nat.toDigits 10 i).all Char.isDigit) = true := by
  rw [Bool.and_eq_true, Bool.not_eq_true', List.isEmpty_eq_false_iff]
  exact ⟨Nat.toDigits_ne_nil, List.all_eq_true.2 (isDigit_toDigits i)⟩

theorem ofDigitChars_toDigits (i : Nat) : Nat.ofDigitChars 10 (Nat.toDigits 10 i) 0 = i :=
  Nat.ofDigitChars_toDigits (by decide) (by decide)

theorem toDigits_injective {i j : Nat} (h : Nat.toDigits 10 i = Nat.toDigits 10 j) : i = j := by
  rw [← ofDigitChars_toDigits i, h, ofDigitChars_toDigits]

theorem labelText_toList (i : Nat) : (labelText i).toList = 'L' :: Nat.toDigits 10 i := by
  rw [← toList_toString]
  exact String.toList_append

theorem labelText_injective : Function.Injective labelText := by
  intro i j h
  have h' := congrArg String.toList h
  rw [labelText_toList, labelText_toList] at h'
  exact toDigits_injective (List.cons.inj h').2

/-- A stem and a number make a name that is kept for lowering. -/
theorem isReserved_append {stem : List Char}
    (h : stem ∈ [['t'], ['p', 'a', 'r', 'a', 'm'], ['L']]) (i : Nat) :
    Lexeme.isReserved (stem ++ Nat.toDigits 10 i) = true := by
  rw [Lexeme.isReserved, List.any_eq_true]
  refine ⟨stem, h, ?_⟩
  simpa using isNumber_toDigits i

theorem isReserved_labelText (i : Nat) : Lexeme.isReserved (labelText i).toList = true := by
  rw [labelText_toList]
  change Lexeme.isReserved (['L'] ++ Nat.toDigits 10 i) = true
  exact isReserved_append (by decide) i

end Texts

end Machine

end Lookahead
