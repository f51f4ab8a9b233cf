import Lookahead.Proofs.Code.Machine
import Lookahead.Proofs.Source.Code
import Mathlib.Data.List.Forall2

namespace Lookahead.Machine

open Source

variable {V : Type} {I : Interpretation V} {b k n : Nat} {m m' m'' : Memory V} {α β : Type}

/-- What code that writes only temporaries from number `k` on leaves as it is. -/
structure Kept (k : Nat) (m m' : Memory V) : Prop where
  names : m'.names = m.names
  incoming : m'.incoming = m.incoming
  temps : ∀ i < k, m'.temps i = m.temps i

theorem Kept.refl : Kept k m m := ⟨rfl, rfl, fun _ _ => rfl⟩

theorem Kept.trans (h : Kept k m m') (h' : Kept k m' m'') : Kept k m m'' :=
  ⟨h'.names.trans h.names, h'.incoming.trans h.incoming,
    fun i hi => (h'.temps i hi).trans (h.temps i hi)⟩

theorem Kept.mono (h : Kept k m m') (hb : b ≤ k) : Kept b m m' :=
  ⟨h.names, h.incoming, fun i hi => h.temps i (by omega)⟩

theorem kept_update (m : Memory V) (i : Nat) (v : V) (queue : List V) (hi : k ≤ i) :
    Kept k m { m with temps := Function.update m.temps i v, queue := queue } :=
  ⟨rfl, rfl, fun j hj => Function.update_of_ne (by omega) _ _⟩

/-- A place that holds a value, and is no temporary from number `k` on. -/
structure Holds (I : Interpretation V) (k : Nat) (m : Memory V) (place : Operand) (v : V) :
    Prop where
  below : ∀ i, place = .temp i → i < k
  read : m.read I place = some v

theorem Holds.kept {place : Operand} {v : V} (h : Holds I b m place v) (hm : Kept b m m')
    (hb : b ≤ k) : Holds I k m' place v := by
  refine ⟨fun i hi => Nat.lt_of_lt_of_le (h.below i hi) hb, ?_⟩
  rw [← h.read]
  cases place with
  | name x => exact congrArg (fun env => some (env x)) hm.names
  | temp i => exact congrArg some (hm.temps i (h.below i rfl))
  | param i => exact congrArg (fun incoming => some (incoming i)) hm.incoming
  | num | imm | char | label => rfl

/-- Running straight-line code, with its temporaries from `n` on, writes only temporaries from
number `b` on and ends as `R` says. -/
def Computes (I : Interpretation V) (b : Nat) (x : Emit α) (n : Nat) (m : Memory V)
    (R : Memory V → Nat → α → Prop) : Prop :=
  ∃ m', exec I (x n).code m = some m' ∧ Kept b m m' ∧ n ≤ (x n).temps ∧
    R m' (x n).temps (x n).result

namespace Computes

variable {x : Emit α} {f : α → Emit β} {R : Memory V → Nat → α → Prop}
  {S : Memory V → Nat → β → Prop}

theorem pure {a : α} (h : R m n a) : Computes I b (Pure.pure a) n m R :=
  ⟨m, rfl, .refl, Nat.le_refl _, h⟩

/-- What comes first may keep more than the whole does. -/
theorem bind (hx : Computes I k x n m R) (hb : b ≤ k)
    (hf : ∀ m' n' a, n ≤ n' → Kept k m m' → R m' n' a → Computes I b (f a) n' m' S) :
    Computes I b (x >>= f) n m S := by
  obtain ⟨m', hexec, hkept, hle, hR⟩ := hx
  obtain ⟨m'', hexec', hkept', hle', hS⟩ := hf m' _ _ hle hkept hR
  refine ⟨m'', ?_, (hkept.mono hb).trans hkept', Nat.le_trans hle hle', hS⟩
  change exec I ((x n).code ++ (f (x n).result (x n).temps).code) m = _
  rw [exec_append, hexec]
  exact hexec'

theorem mono (h : Computes I k x n m R) (hb : b ≤ k) : Computes I b x n m R := by
  obtain ⟨m', hexec, hkept, hle, hR⟩ := h
  exact ⟨m', hexec, hkept.mono hb, hle, hR⟩

theorem imp {R' : Memory V → Nat → α → Prop} (h : Computes I b x n m R)
    (hR : ∀ m' k a, n ≤ k → Kept b m m' → R m' k a → R' m' k a) : Computes I b x n m R' := by
  obtain ⟨m', hexec, hkept, hle, h⟩ := h
  exact ⟨m', hexec, hkept, hle, hR _ _ _ hle hkept h⟩

theorem emit {q : Quad} {R : Memory V → Nat → Unit → Prop} (h : act I q m = some (.next m'))
    (hm : Kept b m m') (hR : R m' n ()) : Computes I b (Emit.emit q) n m R :=
  ⟨m', exec_singleton h, hm, Nat.le_refl _, hR⟩

theorem emit_bind {q : Quad} {y : Emit β} (h : act I q m = some (.next m')) (hm : Kept b m m')
    (hy : Computes I b y n m' S) : Computes I b (Emit.emit q >>= fun _ => y) n m S := by
  obtain ⟨m'', hexec, hkept, hle, hS⟩ := hy
  refine ⟨m'', ?_, hm.trans hkept, hle, hS⟩
  change exec I ([q] ++ (y n).code) m = _
  rw [exec_append, exec_singleton h]
  exact hexec

theorem newTemp_bind {f : Operand → Emit β} (h : Computes I b (f (.temp n)) (n + 1) m S) :
    Computes I b (Emit.newTemp >>= f) n m S := by
  obtain ⟨m', hexec, hkept, hle, hS⟩ := h
  exact ⟨m', hexec, hkept, Nat.le_of_succ_le hle, hS⟩

end Computes

/-- The value of `v` is at the place that the code comes to, and nothing is queued. -/
def Gives (I : Interpretation V) (v : V) (m : Memory V) (k : Nat) (place : Operand) : Prop :=
  m.queue = [] ∧ Holds I k m place v

theorem holds_temp (m : Memory V) (v : V) (n : Nat) (queue : List V) :
    Holds I (n + 1) { m with temps := Function.update m.temps n v, queue := queue }
      (.temp n) v := by
  refine ⟨fun i hi => ?_, ?_⟩
  · cases hi
    exact Nat.lt_succ_self _
  · exact congrArg some (Function.update_self _ _ _)

theorem computes_apply {op : Op} {lhs rhs : Operand} {u v : V} (hop : isBinary op = true)
    (hq : m.queue = []) (hu : Holds I n m lhs u) (hv : Holds I n m rhs v) :
    Computes I n (Emit.apply op lhs rhs) n m (Gives I (I.binary op u v)) := by
  apply Computes.newTemp_bind
  apply Computes.emit_bind (act_binary hop hu.read hv.read n)
    (kept_update m n _ m.queue (Nat.le_refl n))
  exact .pure ⟨hq, holds_temp m _ n m.queue⟩

theorem isBinary_arithOp (op : ArithOp) : isBinary op.1 = true := by
  rw [isBinary, op.2, Bool.true_or]

theorem isBinary_chainOp (op : ChainOp) : isBinary op.1 = true := by
  rw [isBinary, op.2, Bool.or_true]

/-- The operator that waits, with the value at the place of its left side. -/
abbrev Waits (I : Interpretation V) (n : Nat) (m : Memory V) :
    Option (Operand × ChainOp) → Option (V × ChainOp) → Prop :=
  Option.Rel fun entry v => entry.2 = v.2 ∧ Holds I n m entry.1 v.1

/-- The operands of the rest of a chain, with the values at their places. -/
abbrev Linked (I : Interpretation V) (n : Nat) (m : Memory V) :
    List (ChainOp × Operand) → List (ChainOp × V) → Prop :=
  List.Forall₂ fun link v => link.1 = v.1 ∧ Holds I n m link.2 v.2

theorem Waits.kept {left : Option (Operand × ChainOp)} {leftValue : Option (V × ChainOp)}
    (h : Waits I n m left leftValue) (hm : Kept n m m') (hk : n ≤ k) :
    Waits I k m' left leftValue := by
  cases h with
  | none => exact .none
  | some h => exact .some ⟨h.1, h.2.kept hm hk⟩

theorem Linked.kept {links : List (ChainOp × Operand)} {vs : List (ChainOp × V)}
    (h : Linked I n m links vs) (hm : Kept n m m') (hk : n ≤ k) : Linked I k m' links vs :=
  h.imp fun _ _ h => ⟨h.1, h.2.kept hm hk⟩

theorem computes_close {left : Option (Operand × ChainOp)} {leftValue : Option (V × ChainOp)}
    {value : Operand} {v : V} (hq : m.queue = []) (hleft : Waits I n m left leftValue)
    (hvalue : Holds I n m value v) :
    Computes I n (Emit.close left value) n m (Gives I (closeValue I leftValue v)) := by
  cases hleft with
  | none => exact .pure ⟨hq, hvalue⟩
  | @some entry w h =>
    obtain ⟨hop, hlhs⟩ := h
    rw [Emit.close, hop]
    exact computes_apply (isBinary_chainOp _) hq hlhs hvalue

/-- The operators of a chain are applied to the values at their operands' places. -/
theorem computes_chain {links : List (ChainOp × Operand)} {vs : List (ChainOp × V)}
    {left : Option (Operand × ChainOp)} {leftValue : Option (V × ChainOp)} {value : Operand} {v : V}
    (hq : m.queue = []) (hlinks : Linked I n m links vs) (hleft : Waits I n m left leftValue)
    (hvalue : Holds I n m value v) :
    Computes I n (Emit.chain left value links) n m (Gives I (chainValue I leftValue v vs)) := by
  induction links generalizing n m vs left leftValue value v with
  | nil =>
    cases hlinks
    exact computes_close hq hleft hvalue
  | cons link links ih =>
    obtain ⟨op, rhs⟩ := link
    rcases hlinks with _ | ⟨⟨hop, hrhs⟩, hlinks⟩
    rename_i w vs
    obtain ⟨op', w⟩ := w
    cases hop
    rw [Emit.chain, chainValue]
    -- Each step makes one temporary, and the operands still to come keep their values.
    split
    · apply Computes.bind (computes_apply (isBinary_chainOp op) hq hvalue hrhs) (Nat.le_refl n)
      rintro m' k place hle hkept ⟨hq', hplace⟩
      exact (ih hq' (Linked.kept hlinks hkept hle) (hleft.kept hkept hle) hplace).mono hle
    · apply Computes.bind (computes_close hq hleft hvalue) (Nat.le_refl n)
      rintro m' k place hle hkept ⟨hq', hplace⟩
      exact (ih hq' (Linked.kept hlinks hkept hle) (.some ⟨rfl, hplace⟩)
        (hrhs.kept hkept hle)).mono hle

theorem computes_params {places : List Operand} {vs : List V}
    (h : List.Forall₂ (Holds I n m) places vs) :
    Computes I n (Emit.params places) n m
      fun m' _ _ => m' = { m with queue := m.queue ++ vs } := by
  induction places generalizing m vs with
  | nil =>
    cases h
    exact .pure (by rw [List.append_nil])
  | cons place places ih =>
    rcases h with _ | ⟨hplace, hplaces⟩
    rename_i v vs
    have hkept : Kept n m { m with queue := m.queue ++ [v] } := ⟨rfl, rfl, fun _ _ => rfl⟩
    apply Computes.emit_bind (act_param hplace.read) hkept
    apply (ih (hplaces.imp fun _ _ h => h.kept hkept (Nat.le_refl n))).imp
    rintro m' k _ - - rfl
    rw [List.append_assoc]
    rfl

/-- The arguments of a call, with the values at their places. -/
def GivesAll (I : Interpretation V) (vs : List V) (m : Memory V) (k : Nat)
    (places : List Operand) : Prop :=
  m.queue = [] ∧ List.Forall₂ (Holds I k m) places vs

mutual

theorem computes_expr (I : Interpretation V) : ∀ (e : Expr) (n : Nat) (m : Memory V),
    m.queue = [] → Computes I n e.lower n m (Gives I (e.eval I m.names))
  | .name x, n, m, hq => .pure ⟨hq, nofun, rfl⟩
  | .num digits, n, m, hq => .pure ⟨hq, nofun, rfl⟩
  | .char c, n, m, hq => .pure ⟨hq, nofun, rfl⟩
  | .call callee args, n, m, hq => by
    rw [Expr.lower, Expr.eval]
    apply Computes.bind (computes_args I args n m hq) (Nat.le_refl n)
    rintro m₁ k places hle hkept ⟨hq₁, hplaces⟩
    apply Computes.bind (computes_params hplaces) hle
    rintro m₂ j _ hj - rfl
    apply Computes.newTemp_bind
    have hlength : (m₁.queue ++ args.eval I m.names).length = places.length := by
      rw [hq₁, List.nil_append, hplaces.length_eq]
    apply Computes.emit_bind (act_call_temp hlength callee.text j)
      (kept_update { m₁ with queue := m₁.queue ++ args.eval I m.names } j _ [] (by omega))
    rw [show m₁.queue ++ args.eval I m.names = args.eval I m.names by rw [hq₁, List.nil_append]]
    exact .pure ⟨rfl, holds_temp _ _ j []⟩
  | .not e, n, m, hq => by
    rw [Expr.lower, Expr.eval]
    apply Computes.bind (computes_expr I e n m hq) (Nat.le_refl n)
    rintro m₁ k place hle - ⟨hq₁, hplace⟩
    apply Computes.newTemp_bind
    apply Computes.emit_bind (act_not hplace.read k) (kept_update m₁ k _ m₁.queue hle)
    exact .pure ⟨hq₁, holds_temp m₁ _ k m₁.queue⟩
  | .binary op lhs rhs, n, m, hq => by
    rw [Expr.lower, Expr.eval]
    apply Computes.bind (computes_expr I lhs n m hq) (Nat.le_refl n)
    rintro m₁ k left hle hkept ⟨hq₁, hleft⟩
    rw [← hkept.names] at hleft ⊢
    apply Computes.bind (computes_expr I rhs k m₁ hq₁) hle
    rintro m₂ j right hle₂ hkept₂ ⟨hq₂, hright⟩
    exact (computes_apply (isBinary_arithOp op) hq₂ (hleft.kept hkept₂ hle₂) hright).mono
      (Nat.le_trans hle hle₂)
  | .chain first rest, n, m, hq => by
    rw [Expr.lower, Expr.eval]
    apply Computes.bind (computes_expr I first n m hq) (Nat.le_refl n)
    rintro m₁ k place hle hkept ⟨hq₁, hplace⟩
    rw [← hkept.names] at hplace ⊢
    apply Computes.bind (computes_links I rest k m₁ hq₁) hle
    rintro m₂ j links hle₂ hkept₂ ⟨hq₂, hlinks⟩
    exact (computes_chain hq₂ hlinks .none (hplace.kept hkept₂ hle₂)).mono (Nat.le_trans hle hle₂)

theorem computes_args (I : Interpretation V) : ∀ (args : Args) (n : Nat) (m : Memory V),
    m.queue = [] → Computes I n args.lower n m (GivesAll I (args.eval I m.names))
  | .nil, n, m, hq => .pure ⟨hq, .nil⟩
  | .cons e rest, n, m, hq => by
    rw [Args.lower, Args.eval]
    apply Computes.bind (computes_expr I e n m hq) (Nat.le_refl n)
    rintro m₁ k place hle hkept ⟨hq₁, hplace⟩
    rw [← hkept.names] at hplace ⊢
    apply Computes.bind (computes_args I rest k m₁ hq₁) hle
    rintro m₂ j places hle₂ hkept₂ ⟨hq₂, hplaces⟩
    exact .pure ⟨hq₂, .cons (hplace.kept hkept₂ hle₂) hplaces⟩

theorem computes_links (I : Interpretation V) : ∀ (links : Links) (n : Nat) (m : Memory V),
    m.queue = [] → Computes I n links.lower n m
      fun m' k found => m'.queue = [] ∧ Linked I k m' found (links.eval I m.names)
  | .nil, n, m, hq => .pure ⟨hq, .nil⟩
  | .cons op e rest, n, m, hq => by
    rw [Links.lower, Links.eval]
    apply Computes.bind (computes_expr I e n m hq) (Nat.le_refl n)
    rintro m₁ k place hle hkept ⟨hq₁, hplace⟩
    rw [← hkept.names] at hplace ⊢
    apply Computes.bind (computes_links I rest k m₁ hq₁) hle
    rintro m₂ j found hle₂ hkept₂ ⟨hq₂, hfound⟩
    exact .pure ⟨hq₂, .cons ⟨rfl, hplace.kept hkept₂ hle₂⟩ hfound⟩

end

end Lookahead.Machine
