import Lookahead.Code.Program
import Lookahead.Proofs.Source.Semantics

namespace Lookahead.Machine

open Source (Interpretation Env Ending)

variable {V : Type}

structure Memory (V : Type) where
  names : Env V
  temps : Nat → V
  incoming : Nat → V
  queue : List V

namespace Memory

variable (I : Interpretation V) (m : Memory V)

def read : Operand → Option V
  | .name x => some (m.names x)
  | .temp i => some (m.temps i)
  | .param i => some (m.incoming i)
  | .num digits => some (I.number digits)
  | .imm value => some (I.constant value)
  | .char c => some (I.char c)
  | .label _ => none

/-- Only variables and temporaries can be written. -/
def write (target : Operand) (value : V) : Option (Memory V) :=
  match target with
  | .name x => some { m with names := Function.update m.names x value }
  | .temp i => some { m with temps := Function.update m.temps i value }
  | _ => none

end Memory

/-- What an instruction does: go on with the next one, jump to a label, or end the run. -/
inductive Action (V : Type)
  | next (m : Memory V)
  | jump (target : String)
  | stop (value : Option V)

def isBinary (op : Op) : Bool := op.isArithmetic || op.precedence?.isSome

/-- The action of an instruction. An instruction whose slots do not fit has none, and neither has a
call whose count is not that of the queued values. Counts are kept in 64 bits. -/
def act (I : Interpretation V) (q : Quad) (m : Memory V) : Option (Action V) :=
  match q.op, q.arg1, q.arg2, q.result with
  | .label, none, none, some (.label _) => some (.next m)
  | .goto, none, none, some (.label target) => some (.jump target)
  | .ifFalse, some condition, none, some (.label target) => do
    if I.truth (← m.read I condition) then return .next m else return .jump target
  | .param, some argument, none, none => do
    return .next { m with queue := m.queue ++ [← m.read I argument] }
  | .call, some (.name callee), some (.imm count), result =>
    if Int.bmod m.queue.length UInt64.size = count then
      let after := { m with queue := [] }
      match result with
      | none => some (.next after)
      | some target => (after.write target (I.call callee m.queue)).map .next
    else none
  | .ret, none, none, none => some (.stop none)
  | .ret, some value, none, none => do return .stop (some (← m.read I value))
  | .assign, some source, none, some target => do
    return .next (← m.write target (← m.read I source))
  | .not, some operand, none, some target => do
    return .next (← m.write target (I.not (← m.read I operand)))
  | op, some lhs, some rhs, some target =>
    if isBinary op then do
      return .next (← m.write target (I.binary op (← m.read I lhs) (← m.read I rhs)))
    else none
  | _, _, _, _ => none

def fromLabel (target : String) : List Quad → Option (List Quad)
  | [] => none
  | q :: rest => if q.labelName? = some target then some (q :: rest) else fromLabel target rest

def run (I : Interpretation V) (code : List Quad) :
    Nat → List Quad → Memory V → Option (Env V × Ending V)
  | _, [], m => some (m.names, .done)
  | 0, _ :: _, _ => none
  | fuel + 1, q :: rest, m =>
    match act I q m with
    | some (.next m) => run I code fuel rest m
    | some (.jump target) => (fromLabel target code).bind fun rest => run I code fuel rest m
    | some (.stop value) => some (m.names, .returned value)
    | none => none

def Halts (I : Interpretation V) (code : List Quad) (m : Memory V) (env : Env V)
    (r : Ending V) : Prop :=
  ∃ fuel, run I code fuel code m = some (env, r)

section Actions

variable {I : Interpretation V} {m m' : Memory V} {a b : Operand} {u v : V}

theorem act_label (name : String) : act I (.label name) m = some (.next m) := rfl

theorem act_goto (target : String) : act I (.goto target) m = some (.jump target) := rfl

theorem act_ifFalse (ha : m.read I a = some v) (target : String) :
    act I (.ifFalse a target) m = some (if I.truth v then .next m else .jump target) := by
  change (m.read I a >>= fun v => _) = _
  rw [ha]
  change (if I.truth v then some (Action.next m) else some (Action.jump target)) = _
  split <;> rfl

theorem act_param (ha : m.read I a = some v) :
    act I (.param a) m = some (.next { m with queue := m.queue ++ [v] }) := by
  change (m.read I a >>= fun v => _) = _
  rw [ha]
  rfl

theorem act_call_none {count : Nat} (h : m.queue.length = count) (callee : String) :
    act I (.call callee count none) m = some (.next { m with queue := [] }) := by
  simp only [act, Quad.call, h, if_true]

theorem act_call_temp {count : Nat} (h : m.queue.length = count) (callee : String) (i : Nat) :
    act I (.call callee count (some (.temp i))) m = some (.next { m with
      queue := []
      temps := Function.update m.temps i (I.call callee m.queue) }) := by
  simp only [act, Quad.call, h, if_true]
  rfl

theorem act_ret_none : act I (.ret none) m = some (.stop none) := rfl

theorem act_ret_some (ha : m.read I a = some v) :
    act I (.ret (some a)) m = some (.stop (some v)) := by
  change (m.read I a >>= fun v => _) = _
  rw [ha]
  rfl

theorem act_assign (ha : m.read I a = some v) (hw : m.write b v = some m') :
    act I (.assign b a) m = some (.next m') := by
  change (m.read I a >>= fun v => m.write b v >>= fun m => _) = _
  rw [ha]
  change (m.write b v >>= fun m => _) = _
  rw [hw]
  rfl

theorem act_not (ha : m.read I a = some v) (i : Nat) :
    act I (.not a (.temp i)) m =
      some (.next { m with temps := Function.update m.temps i (I.not v) }) := by
  change (m.read I a >>= fun v => _) = _
  rw [ha]
  rfl

theorem act_binary {op : Op} (hop : isBinary op = true) (ha : m.read I a = some u)
    (hb : m.read I b = some v) (i : Nat) :
    act I (.binary op a b (.temp i)) m =
      some (.next { m with temps := Function.update m.temps i (I.binary op u v) }) := by
  have hact : act I (.binary op a b (.temp i)) m = (do
      return .next (← m.write (.temp i) (I.binary op (← m.read I a) (← m.read I b)))) := by
    cases op <;> first | rfl | cases hop
  rw [hact, ha, hb]
  rfl

end Actions

section Runs

variable {I : Interpretation V} {code : List Quad}

/-- A run of `rest` from `m` takes `k` instructions to get to `rest'` with `m'`. -/
def Leads (I : Interpretation V) (code : List Quad) (k : Nat) (rest : List Quad) (m : Memory V)
    (rest' : List Quad) (m' : Memory V) : Prop :=
  ∀ fuel out, run I code fuel rest m = some out ↔
    ∃ left, fuel = left + k ∧ run I code left rest' m' = some out

/-- A run of `rest` from `m` ends after `k` instructions. -/
def Stops (I : Interpretation V) (code : List Quad) (k : Nat) (rest : List Quad) (m : Memory V)
    (out : Env V × Ending V) : Prop :=
  ∀ fuel found, run I code fuel rest m = some found ↔ k ≤ fuel ∧ found = out

variable {k k' : Nat} {q : Quad} {rest rest' rest'' : List Quad} {m m' m'' : Memory V}

theorem Leads.refl (rest : List Quad) (m : Memory V) : Leads I code 0 rest m rest m := by
  intro fuel out
  constructor
  · intro h
    exact ⟨fuel, rfl, h⟩
  · rintro ⟨left, rfl, h⟩
    exact h

theorem Leads.trans (h : Leads I code k rest m rest' m')
    (h' : Leads I code k' rest' m' rest'' m'') : Leads I code (k' + k) rest m rest'' m'' := by
  intro fuel out
  rw [h]
  constructor
  · rintro ⟨left, rfl, hrun⟩
    obtain ⟨last, rfl, hlast⟩ := (h' left out).1 hrun
    exact ⟨last, by omega, hlast⟩
  · rintro ⟨left, rfl, hrun⟩
    exact ⟨left + k', by omega, (h' _ out).2 ⟨left, rfl, hrun⟩⟩

theorem Leads.stops {out : Env V × Ending V} (h : Leads I code k rest m rest' m')
    (h' : Stops I code k' rest' m' out) : Stops I code (k' + k) rest m out := by
  intro fuel found
  rw [h]
  constructor
  · rintro ⟨left, rfl, hrun⟩
    obtain ⟨hle, rfl⟩ := (h' left found).1 hrun
    exact ⟨by omega, rfl⟩
  · rintro ⟨hle, rfl⟩
    exact ⟨fuel - k, by omega, (h' _ _).2 ⟨by omega, rfl⟩⟩

theorem leads_next (h : act I q m = some (.next m')) : Leads I code 1 (q :: rest) m rest m' := by
  intro fuel out
  cases fuel with
  | zero => exact ⟨nofun, by rintro ⟨left, hleft, -⟩; omega⟩
  | succ fuel =>
    rw [run, h]
    constructor
    · intro hrun
      exact ⟨fuel, rfl, hrun⟩
    · rintro ⟨left, hleft, hrun⟩
      cases hleft
      exact hrun

theorem leads_jump {target : String} (h : act I q m = some (.jump target))
    (htarget : fromLabel target code = some rest') :
    Leads I code 1 (q :: rest) m rest' m := by
  intro fuel out
  cases fuel with
  | zero => exact ⟨nofun, by rintro ⟨left, hleft, -⟩; omega⟩
  | succ fuel =>
    rw [run, h]
    simp only [htarget, Option.bind_some]
    constructor
    · intro hrun
      exact ⟨fuel, rfl, hrun⟩
    · rintro ⟨left, hleft, hrun⟩
      cases hleft
      exact hrun

theorem stops_of_act {value : Option V} (h : act I q m = some (.stop value)) :
    Stops I code 1 (q :: rest) m (m.names, .returned value) := by
  intro fuel found
  cases fuel with
  | zero => exact ⟨nofun, fun h => absurd h.1 (by decide)⟩
  | succ fuel =>
    rw [run, h]
    constructor
    · intro hrun
      exact ⟨by omega, (Option.some.inj hrun).symm⟩
    · rintro ⟨-, rfl⟩
      rfl

theorem stops_nil : Stops I code 0 [] m (m.names, .done) := by
  intro fuel found
  rw [run]
  constructor
  · intro hrun
    exact ⟨Nat.zero_le _, (Option.some.inj hrun).symm⟩
  · rintro ⟨-, rfl⟩
    rfl

def exec (I : Interpretation V) : List Quad → Memory V → Option (Memory V)
  | [], m => some m
  | q :: rest, m =>
    match act I q m with
    | some (.next m) => exec I rest m
    | _ => none

theorem exec_append (code more : List Quad) (m : Memory V) :
    exec I (code ++ more) m = (exec I code m).bind (exec I more) := by
  induction code generalizing m with
  | nil => rfl
  | cons q rest ih =>
    rw [List.cons_append, exec, exec]
    split
    · exact ih _
    · rfl

theorem exec_singleton (h : act I q m = some (.next m')) : exec I [q] m = some m' := by
  rw [exec, h]
  rfl

theorem leads_exec {straight : List Quad} (h : exec I straight m = some m') :
    Leads I code straight.length (straight ++ rest) m rest m' := by
  induction straight generalizing m with
  | nil =>
    cases h
    exact .refl _ _
  | cons q straight ih =>
    rw [exec] at h
    split at h
    · next m₁ hact => exact (leads_next hact).trans (ih h)
    · cases h

end Runs

end Lookahead.Machine
