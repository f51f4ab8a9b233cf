import Lookahead.Proofs.Simulation.Expr

namespace Lookahead.Machine

open Source

variable {V : Type} {I : Interpretation V} {n : Nat} {m : Memory V}

/-- Running the code leaves the given variables, and nothing queued. -/
def Settles (I : Interpretation V) (x : Emit Unit) (m : Memory V) (env : Env V) : Prop :=
  ∀ n, ∃ m', exec I (x n).code m = some m' ∧ m'.names = env ∧ m'.queue = []

theorem settles_pure (hq : m.queue = []) : Settles I (pure ()) m m.names :=
  fun _ => ⟨m, rfl, rfl, hq⟩

/-- Assigning what is at the place of a value. -/
theorem settles_assign {x : Emit Operand} {v : V}
    (h : ∀ n, Computes I n x n m (Gives I v)) (target : String) :
    Settles I (do Emit.emit (.assign (.name target) (← x))) m
      (Function.update m.names target v) := by
  intro n
  obtain ⟨m', hexec, hkept, -, hq, hplace⟩ := h n
  refine ⟨{ m' with names := Function.update m'.names target v }, ?_, ?_, hq⟩
  · change exec I ((x n).code ++ [.assign (.name target) (x n).result]) m = _
    rw [exec_append, hexec]
    exact exec_singleton (act_assign hplace.read rfl)
  · rw [hkept.names]

theorem settles_decl (d : Decl) (hq : m.queue = []) :
    Settles I d.lower m (d.exec I m.names) := by
  rw [Decl.lower, Decl.exec]
  cases d.init with
  | none => exact settles_pure hq
  | some e => exact settles_assign (fun n => computes_expr I e n m hq) d.target.text

theorem settles_update (u : Update) (hq : m.queue = []) :
    Settles I u.lower m (u.exec I m.names) := by
  cases u with
  | assign target e => exact settles_assign (fun n => computes_expr I e n m hq) target.text
  | step target op =>
    refine settles_assign (fun n => ?_) target.text
    exact computes_apply (isBinary_arithOp op) hq ⟨fun _ h => (by cases h), rfl⟩
      ⟨fun _ h => (by cases h), rfl⟩

theorem settles_call (callee : Name) (args : Args) (hq : m.queue = []) :
    Settles I (Simple.call callee args).lower m m.names := by
  intro n
  have h : Computes I n (Simple.call callee args).lower n m fun m' _ _ => m'.queue = [] := by
    rw [Simple.lower]
    apply Computes.bind (computes_args I args n m hq) (Nat.le_refl n)
    rintro m₁ k places hle hkept ⟨hq₁, hplaces⟩
    apply Computes.bind (computes_params hplaces) hle
    rintro m₂ j _ hj - rfl
    refine .emit (act_call_none ?_ callee.text) ⟨rfl, rfl, fun _ _ => rfl⟩ rfl
    change (m₁.queue ++ _).length = _
    rw [hq₁, List.nil_append, hplaces.length_eq]
  obtain ⟨m', hexec, hkept, -, hq'⟩ := h
  exact ⟨m', hexec, hkept.names, hq'⟩

section Control

theorem Settles.leads {x : Emit Unit} {env : Env V} (h : Settles I x m env) (n : Nat)
    (code rest : List Quad) :
    ∃ k m', Leads I code k ((x n).code ++ rest) m rest m' ∧ m'.names = env ∧ m'.queue = [] := by
  obtain ⟨m', hexec, hnames, hq⟩ := h n
  exact ⟨_, m', leads_exec hexec, hnames, hq⟩

theorem stops_ret (value : Option Expr) (n : Nat) (hq : m.queue = []) (code rest : List Quad) :
    ∃ k, Stops I code k (((Simple.ret value).lower n).code ++ rest) m
      (m.names, .returned (value.map (·.eval I m.names))) := by
  cases value with
  | none => exact ⟨1, stops_of_act act_ret_none⟩
  | some e =>
    obtain ⟨m', hexec, hkept, -, -, hplace⟩ := computes_expr I e n m hq
    have hcode : ((Simple.ret (some e)).lower n).code ++ rest =
        (e.lower n).code ++ .ret (some (e.lower n).result) :: rest := by
      change ((e.lower n).code ++ [.ret (some (e.lower n).result)]) ++ rest = _
      rw [List.append_assoc]
      rfl
    have hstop : Stops I code 1 (.ret (some (e.lower n).result) :: rest) m'
        (m'.names, .returned (some (e.eval I m.names))) :=
      stops_of_act (act_ret_some hplace.read)
    rw [hkept.names] at hstop
    rw [hcode]
    exact ⟨_, (leads_exec hexec).stops hstop⟩

/-- Where a test goes on: behind it, or at the label that it names. -/
theorem exists_leads_test (condition : Expr) (n : Nat) (hq : m.queue = []) (code rest : List Quad)
    (target : String) :
    ∃ k m', m'.names = m.names ∧ m'.queue = [] ∧
      (I.truth (condition.eval I m.names) = true →
        Leads I code k ((condition.lower n).code ++
          .ifFalse (condition.lower n).result target :: rest) m rest m') ∧
      ∀ after, I.truth (condition.eval I m.names) = false → fromLabel target code = some after →
        Leads I code k ((condition.lower n).code ++
          .ifFalse (condition.lower n).result target :: rest) m after m' := by
  obtain ⟨m', hexec, hkept, -, hq', hplace⟩ := computes_expr I condition n m hq
  have hact := act_ifFalse hplace.read target
  refine ⟨1 + (condition.lower n).code.length, m', hkept.names, hq', fun htrue => ?_,
    fun after hfalse hafter => ?_⟩
  · rw [htrue] at hact
    exact (leads_exec hexec).trans (leads_next hact)
  · rw [hfalse] at hact
    exact (leads_exec hexec).trans (leads_jump hact hafter)

end Control

end Lookahead.Machine
