import Lookahead.Proofs.Simulation.Function
import Lookahead.Proofs.Source.Headed

namespace Lookahead

namespace Machine

open Source

def targets (code : List Quad) : List (Option Operand) :=
  (code.filter (·.op.isJump)).map (·.result)

theorem targets_append (code more : List Quad) :
    targets (code ++ more) = targets code ++ targets more := by
  rw [targets, List.filter_append, List.map_append, targets, targets]

theorem targets_eq_nil {code : List Quad} (h : ∀ q ∈ code, q.op.isJump = false) :
    targets code = [] := by
  rw [targets, List.filter_eq_nil_iff.2 fun q hq => Bool.eq_false_iff.1 (h q hq), List.map_nil]

/-- A label of `outer`, or a generated one from `l` up to `l'`. -/
def IsTarget (outer : List String) (l l' : Nat) (a : Option Operand) : Prop :=
  ∃ name, a = some (.label name) ∧ (name ∈ outer ∨ ∃ i, l ≤ i ∧ i < l' ∧ name = labelText i)

theorem IsTarget.mono {outer : List String} {l l' m m' : Nat} {a : Option Operand}
    (h : IsTarget outer m m' a) (hl : l ≤ m) (hl' : m' ≤ l') : IsTarget outer l l' a := by
  obtain ⟨name, ha, hname | ⟨i, hi, hi', hname⟩⟩ := h
  · exact ⟨name, ha, .inl hname⟩
  · exact ⟨name, ha, .inr ⟨i, by omega, by omega, hname⟩⟩

/-- The jumps in `code` go to the generated labels from `l` up to `l'`, to each of them, and
otherwise only to labels of `outer`. -/
structure Aims (outer : List String) (l : Nat) (code : List Quad) (l' : Nat) : Prop where
  le : l ≤ l'
  isTarget : ∀ a ∈ targets code, IsTarget outer l l' a
  onto : ∀ i, l ≤ i → i < l' → some (.label (labelText i)) ∈ targets code

section Aims

variable {outer : List String} {l m l' : Nat} {code more : List Quad}

theorem aims_of_unbranched (h : ∀ q ∈ code, q.op.isJump = false) : Aims outer l code l := by
  refine ⟨Nat.le_refl l, ?_, fun i hl hi => by omega⟩
  rw [targets_eq_nil h]
  exact List.forall_mem_nil _

theorem aims_jump {q : Quad} {name : String} (hop : q.op.isJump = true)
    (hresult : q.result = some (.label name)) (hname : name ∈ outer) : Aims outer l [q] l := by
  have htargets : targets [q] = [q.result] := by simp [targets, hop]
  refine ⟨Nat.le_refl l, ?_, fun i hl hi => by omega⟩
  rw [htargets]
  exact List.forall_mem_singleton.2 ⟨name, hresult, .inl hname⟩

theorem Aims.append (h : Aims outer l code m) (h' : Aims outer m more l') :
    Aims outer l (code ++ more) l' := by
  refine ⟨Nat.le_trans h.le h'.le, ?_, ?_⟩
  · rw [targets_append]
    exact List.forall_mem_append.2 ⟨fun a ha => (h.isTarget a ha).mono (Nat.le_refl l) h'.le,
      fun a ha => (h'.isTarget a ha).mono h.le (Nat.le_refl l')⟩
  · intro i hl hi
    rw [targets_append, List.mem_append]
    rcases Nat.lt_or_ge i m with hm | hm
    · exact .inl (h.onto i hl hm)
    · exact .inr (h'.onto i hm hi)

/-- A label that was taken first belongs to the code if the code jumps to it. -/
theorem Aims.close (h : Aims (labelText l :: outer) (l + 1) code l')
    (hl : some (.label (labelText l)) ∈ targets code) : Aims outer l code l' := by
  have hle := h.le
  refine ⟨by omega, ?_, ?_⟩
  · intro a ha
    obtain ⟨name, ha, hname | ⟨i, hi, hi', hname⟩⟩ := h.isTarget a ha
    · rcases List.mem_cons.1 hname with hname | hname
      · exact ⟨name, ha, .inr ⟨l, Nat.le_refl l, by omega, hname⟩⟩
      · exact ⟨name, ha, .inl hname⟩
    · exact ⟨name, ha, .inr ⟨i, by omega, hi', hname⟩⟩
  · intro i hi hi'
    rcases Nat.eq_or_lt_of_le hi with rfl | hi
    · exact hl
    · exact h.onto i hi hi'

/-- Where no label is given, every jump goes to a generated one. -/
theorem Aims.exists_label (h : Aims [] l code l') {q : Quad} (hq : q ∈ code)
    (hop : q.op.isJump = true) :
    ∃ i, l ≤ i ∧ i < l' ∧ q.result = some (.label (labelText i)) := by
  have htarget : q.result ∈ targets code := List.mem_map.2 ⟨q, List.mem_filter.2 ⟨hq, hop⟩, rfl⟩
  obtain ⟨name, hresult, hname | ⟨i, hl, hi, rfl⟩⟩ := h.isTarget q.result htarget
  · cases hname
  · exact ⟨i, hl, hi, hresult⟩

end Aims

/-- Code that jumps to all of its own labels and otherwise to labels of `outer`. -/
def Aimed {α : Type} (outer : List String) (x : Emission α) : Prop :=
  ∀ p n l, Aims outer l ((x p n l).code.map Prod.fst) (x p n l).labels

def Hits {α : Type} (name : String) (x : Emission α) : Prop :=
  ∀ p n l, some (.label name) ∈ targets ((x p n l).code.map Prod.fst)

section Emission

variable {α β : Type} {outer : List String} {name : String} {x : Emission α} {f : α → Emission β}

theorem aimed_pure (a : α) : Aimed outer (pure a : Emission α) :=
  fun _ _ _ => aims_of_unbranched (List.forall_mem_nil _)

theorem Aimed.bind (hx : Aimed outer x) (hf : ∀ a, Aimed outer (f a)) :
    Aimed outer (x >>= f) := by
  intro p n l
  rw [Emission.map_fst_bind]
  exact (hx p n l).append (hf _ p _ _)

theorem Hits.bind_left (hx : Hits name x) : Hits name (x >>= f) := by
  intro p n l
  rw [Emission.map_fst_bind, targets_append]
  exact List.mem_append_left _ (hx p n l)

theorem Hits.bind_right (hf : ∀ a, Hits name (f a)) : Hits name (x >>= f) := by
  intro p n l
  rw [Emission.map_fst_bind, targets_append]
  exact List.mem_append_right _ (hf _ p _ _)

theorem Aimed.withLine (hx : Aimed outer x) (line : Option Nat) :
    Aimed outer (Emission.withLine line x) := fun _ => hx _

theorem Aimed.withComponent (hx : Aimed outer x) (component : Component) :
    Aimed outer (Emission.withComponent component x) := fun _ => hx _

/-- A fresh label may be jumped to, and has to be. -/
theorem aimed_newLabel_bind {f : String → Emission β}
    (hf : ∀ i, Aimed (labelText i :: outer) (f (labelText i)))
    (hhits : ∀ i, Hits (labelText i) (f (labelText i))) :
    Aimed outer (Emission.newLabel >>= f) :=
  fun p n l => (hf l p n (l + 1)).close (hhits l p n (l + 1))

theorem aimed_straight {u : Emit α} (hu : Unbranched u) : Aimed outer (Emission.straight u) := by
  intro p n l
  rw [Emission.map_fst_straight]
  exact aims_of_unbranched fun q hq => (hu n q hq).2

theorem aimed_label (name : String) : Aimed outer (Emission.glue (.label name)) :=
  fun _ _ _ => aims_of_unbranched (List.forall_mem_singleton.2 rfl)

theorem aimed_goto (h : name ∈ outer) : Aimed outer (Emission.glue (.goto name)) :=
  fun _ _ _ => aims_jump rfl rfl h

theorem hits_goto (name : String) : Hits name (Emission.glue (.goto name)) :=
  fun _ _ _ => List.mem_cons_self

theorem aimed_test (condition : Expr) (h : name ∈ outer) :
    Aimed outer (Emission.test condition name) := by
  intro p n l
  change Aims outer l (quads (Emission.test condition name) p n l) l
  rw [quads_test]
  exact (aims_of_unbranched fun q hq => (unbranched_expr condition n q hq).2).append
    (aims_jump rfl rfl h)

theorem hits_test (condition : Expr) (name : String) :
    Hits name (Emission.test condition name) := by
  intro p n l
  change _ ∈ targets (quads (Emission.test condition name) p n l)
  rw [quads_test, targets_append]
  exact List.mem_append_right _ List.mem_cons_self

end Emission

section Pieces

variable {outer : List String} {body : Emission Unit}

theorem aimed_loop (condition : Expr) (hbody : ∀ outer, Aimed outer body) :
    Aimed outer (Emission.loop condition body) := by
  -- The test jumps to the second label, behind the loop, and a round ends with a jump to the first.
  refine aimed_newLabel_bind (fun i => aimed_newLabel_bind (fun j => ?_) fun j => ?_) fun i => ?_
  · have hstart : labelText i ∈ labelText j :: labelText i :: outer :=
      List.mem_cons_of_mem _ List.mem_cons_self
    exact (aimed_label _).bind fun _ => (aimed_test condition List.mem_cons_self).bind fun _ =>
      ((hbody _).withComponent .loopBody).bind fun _ => (aimed_goto hstart).bind fun _ =>
        aimed_label _
  · exact Hits.bind_right fun _ => (hits_test condition _).bind_left
  · exact Hits.bind_right fun _ => Hits.bind_right fun _ => Hits.bind_right fun _ =>
      Hits.bind_right fun _ => (hits_goto _).bind_left

theorem aimed_arm (isLast : Bool) {finish : String} (line : Option Nat) (condition : Expr)
    (hfinish : finish ∈ outer) (hbody : ∀ outer, Aimed outer body) :
    Aimed outer (Emission.arm isLast finish line condition body) := by
  have hbranch {outer : List String} {last : Emission Unit} (hlast : Aimed outer last)
      {next : String} (hnext : next ∈ outer) (hfinish : finish ∈ outer) :
      Aimed outer (Emission.withLine line (Emission.test condition next) >>= fun _ =>
        Emission.withComponent .thenBranch body >>= fun _ =>
          Emission.glue (.goto finish) >>= fun _ => last) :=
    ((aimed_test condition hnext).withLine line).bind fun _ =>
      ((hbody _).withComponent .thenBranch).bind fun _ => (aimed_goto hfinish).bind fun _ => hlast
  cases isLast with
  | true => exact hbranch (aimed_pure ()) hfinish hfinish
  | false =>
    refine aimed_newLabel_bind (fun i => ?_) fun i => ?_
    · exact hbranch (aimed_label _) List.mem_cons_self (List.mem_cons_of_mem _ hfinish)
    · exact Hits.bind_left fun _ => hits_test condition _ _

theorem hits_arm (isLast : Bool) (finish : String) (line : Option Nat) (condition : Expr)
    (body : Emission Unit) : Hits finish (Emission.arm isLast finish line condition body) := by
  cases isLast <;> exact Hits.bind_right fun _ => Hits.bind_right fun _ =>
    Hits.bind_right fun _ => (hits_goto finish).bind_left

end Pieces

section Statements

mutual

theorem aimed_stmt : ∀ s : Stmt, s.Headed → ∀ outer, Aimed outer s.lower
  | .simple s, _, _ => (aimed_straight (unbranched_simple s)).bind fun _ => aimed_pure ()
  | .cond arms, ⟨⟨line, condition, body, rest, harm⟩, harms⟩, outer => by
    refine aimed_newLabel_bind (fun i => ?_) fun i => ?_
    · exact (aimed_arms arms harms List.mem_cons_self).bind fun _ => aimed_label _
    · -- The first arm jumps to the end behind its block.
      subst harm
      exact (hits_arm _ _ line condition body.lower).bind_left.bind_left
  | .whileLoop condition body, hbody, _ => aimed_loop condition (aimed_block body hbody)
  | .forLoop init condition step body, hbody, _ =>
    (aimed_straight (unbranched_decl init)).bind fun _ => aimed_loop condition fun outer =>
      (aimed_block body hbody outer).bind fun _ => aimed_straight (unbranched_update step)
  | .doUntil body line condition, hbody, outer => by
    refine aimed_newLabel_bind (fun i => ?_) fun i => ?_
    · exact (aimed_label _).bind fun _ => ((aimed_block body hbody _).withComponent .loopBody).bind
        fun _ => (aimed_test condition List.mem_cons_self).withLine line
    · exact Hits.bind_right fun _ => Hits.bind_right fun _ _ => hits_test condition _ _

theorem aimed_block : ∀ b : Block, b.Headed → ∀ outer, Aimed outer b.lower
  | .nil, _, _ => aimed_pure ()
  | .cons line s rest, ⟨hs, hrest⟩, outer =>
    ((aimed_stmt s hs outer).withLine line).bind fun _ => aimed_block rest hrest outer

theorem aimed_arms : ∀ a : Arms, a.Headed → ∀ {outer finish}, finish ∈ outer →
    Aimed outer (a.lower finish)
  | .done, _, _, _, _ => aimed_pure ()
  | .otherwise body, hbody, outer, _, _ => (aimed_block body hbody outer).withComponent .elseBranch
  | .arm line condition body rest, ⟨hbody, hrest⟩, _, _, hfinish =>
    (aimed_arm rest.isDone line condition hfinish (aimed_block body hbody)).bind fun _ =>
      aimed_arms rest hrest hfinish

end

end Statements

section Functions

variable (entry : String)

theorem isJump_closing (f : Source.Function) (isDefaulted : Bool) (place : Operand) :
    ∀ q ∈ closing f isDefaulted place, q.op.isJump = false := by
  cases isDefaulted with
  | true => exact List.forall_mem_cons.2 ⟨rfl, List.forall_mem_singleton.2 rfl⟩
  | false => exact List.forall_mem_singleton.2 rfl

theorem aimed_function {f : Source.Function} (h : f.body.Headed) : Aimed [] (f.lower entry) := by
  intro p n l
  obtain ⟨q, k, code, hlayout, hlabels⟩ := exists_layout f entry p n l
  have hstart : Aims [] l [.label f.name.text] l :=
    aims_of_unbranched (List.forall_mem_singleton.2 rfl)
  have hmoves : Aims [] l (moves 0 f.params n).code l :=
    aims_of_unbranched fun r hr => (unbranched_moves f.params 0 n r hr).2
  have hbody := aimed_block f.body h [] q k l
  have hclosing (l : Nat) :
      Aims [] l (closing f (f.isDefaulted entry) (Lowering.defaultReturn code)) l :=
    aims_of_unbranched (isJump_closing f _ _)
  change Aims [] l (quads (f.lower entry) p n l) _
  rw [hlayout, hlabels]
  exact hstart.append (hmoves.append (hbody.append (hclosing _)))

theorem aimed_functions {fs : List Source.Function} (h : ∀ f ∈ fs, f.body.Headed) :
    Aimed [] (lowerFunctions entry fs) := by
  induction fs with
  | nil => exact aimed_pure ()
  | cons f fs ih =>
    obtain ⟨hf, hfs⟩ := List.forall_mem_cons.1 h
    exact (aimed_function entry hf).bind fun _ => ih hfs

/-- The labels between those of a function itself are generated, and every jump in its code goes to
one of them. -/
theorem exists_target {f : Source.Function} (h : f.body.Headed) (p : Provenance) (n l : Nat) :
    ∃ between, quads (f.lower entry) p n l =
        .label f.name.text :: (between ++ [.label (Program.endLabel f.name.text)]) ∧
      (∀ name ∈ labelNames between, ∃ i, name = labelText i) ∧
      ∀ q ∈ quads (f.lower entry) p n l, q.op.isJump = true →
        ∃ i, q.result = some (.label (labelText i)) ∧ labelText i ∈ labelNames between := by
  obtain ⟨between, k, hcode, hlabels, hperm⟩ := exists_between f entry p n l
  refine ⟨between, hcode, fun name hname => ?_, fun q hq hop => ?_⟩
  · obtain ⟨i, -, rfl⟩ := List.mem_map.1 (hperm.mem_iff.1 hname)
    exact ⟨i, rfl⟩
  · obtain ⟨i, hl, hi, hresult⟩ := (aimed_function entry h p n l).exists_label hq hop
    refine ⟨i, hresult, hperm.mem_iff.2 (List.mem_map.2 ⟨i, ?_, rfl⟩)⟩
    rw [hlabels] at hi
    exact List.mem_range'_1.2 ⟨hl, hi⟩

theorem exists_target_slice {fs : List Source.Function} (h : ∀ f ∈ fs, f.body.Headed)
    {slice : FunctionSlice} {p : Provenance} {start n l : Nat}
    (hslice : slice ∈ slices entry p fs start n l) :
    ∃ between,
      slice.code = .label slice.name :: (between ++ [.label (Program.endLabel slice.name)]) ∧
        (∀ name ∈ labelNames between, ∃ i, name = labelText i) ∧
        ∀ q ∈ slice.code, q.op.isJump = true →
          ∃ i, q.result = some (.label (labelText i)) ∧ labelText i ∈ labelNames between := by
  obtain ⟨f, hf, hname, n, l, hcode⟩ := exists_of_mem_slices entry hslice
  rw [hname, hcode]
  exact exists_target entry (h f hf) p n l

/-- Of the generated labels, those that a function takes stand in its code, each of them once. -/
theorem exists_count_function (f : Source.Function) (p : Provenance) (n l : Nat) :
    ∃ k, (f.lower entry p n l).labels = l + k ∧
      ∀ i, (labelNames (quads (f.lower entry) p n l)).count (labelText i) =
        (List.range' l k).count i := by
  obtain ⟨between, k, hcode, hlabels, hperm⟩ := exists_between f entry p n l
  refine ⟨k, hlabels, fun i => ?_⟩
  -- The labels of the function itself are no generated ones.
  have hname : f.name.text ≠ labelText i := (labelText_ne_name i f.name).symm
  have hend : Program.endLabel f.name.text ≠ labelText i := (labelText_ne_endLabel i _).symm
  rw [hcode, labelNames_label, labelNames_append, labelNames_label, labelNames_nil,
    List.count_cons_of_ne hname, List.count_append, List.count_cons_of_ne hend, List.count_nil,
    Nat.add_zero, hperm.count_eq, List.count_map_of_injective _ _ labelText_injective]

theorem exists_count_functions (fs : List Source.Function) (p : Provenance) (n l : Nat) :
    ∃ k, (lowerFunctions entry fs p n l).labels = l + k ∧
      ∀ i, (labelNames (quads (lowerFunctions entry fs) p n l)).count (labelText i) =
        (List.range' l k).count i := by
  induction fs generalizing n l with
  | nil => exact ⟨0, rfl, fun i => rfl⟩
  | cons f fs ih =>
    obtain ⟨k, hlabels, hcount⟩ := exists_count_function entry f p n l
    obtain ⟨j, hlabels', hcount'⟩ := ih (f.lower entry p n l).temps (f.lower entry p n l).labels
    refine ⟨k + j, ?_, fun i => ?_⟩
    · change (lowerFunctions entry fs p _ _).labels = _
      omega
    · rw [lowerFunctions, quads_bind, labelNames_append, List.count_append, hcount, hcount',
        hlabels, ← List.range'_append_1, List.count_append]

end Functions

end Machine

end Lookahead
