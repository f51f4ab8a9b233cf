import Lookahead.Proofs.Lowering.Function
import Lookahead.Proofs.Simulation.Labels
import Lookahead.Proofs.Simulation.Reflection
import Mathlib.Data.List.Nodup

namespace Lookahead.Machine

open Source

variable {V : Type}

section Returns

variable (p : Provenance) (n l : Nat)

theorem returns_bind (x y : Emission Unit) :
    ((x >>= fun _ => y) p n l).returns =
      ((x p n l).returns || (y p (x p n l).temps (x p n l).labels).returns) := rfl

theorem returns_loop (condition : Expr) (x : Emission Unit) :
    (Emission.loop condition x p n l).returns =
      (x ⟨p.line, some .loopBody⟩ (condition.lower n).temps (l + 2)).returns :=
  Bool.or_false _

theorem returns_arm (isLast : Bool) (finish : String) (line : Option Nat) (condition : Expr)
    (x : Emission Unit) :
    (Emission.arm isLast finish line condition x p n l).returns =
      (x ⟨p.line, some .thenBranch⟩ (condition.lower n).temps
        (if isLast then l else l + 1)).returns := by
  cases isLast <;> exact Bool.or_false _

mutual

theorem returns_stmt : ∀ (s : Stmt) (p : Provenance) (n l : Nat),
    (s.lower p n l).returns = s.returns
  | .simple _, _, _, _ => rfl
  | .cond arms, p, n, l =>
    (Bool.or_false _).trans (returns_arms arms (labelText l) p n (l + 1))
  | .whileLoop condition body, p, n, l =>
    (returns_loop p n l condition body.lower).trans (returns_block body _ _ _)
  | .forLoop init condition _ body, p, n, l =>
    (returns_loop p (init.lower n).temps l condition _).trans
      ((Bool.or_false _).trans (returns_block body _ _ _))
  | .doUntil body _ _, p, n, l =>
    (Bool.or_false _).trans (returns_block body ⟨p.line, some .loopBody⟩ n (l + 1))

theorem returns_block : ∀ (b : Block) (p : Provenance) (n l : Nat),
    (b.lower p n l).returns = b.returns
  | .nil, _, _, _ => rfl
  | .cons line s rest, p, n, l => by
    rw [Block.lower, returns_bind, Emission.withLine, returns_stmt s, returns_block rest,
      Block.returns]

theorem returns_arms : ∀ (a : Arms) (finish : String) (p : Provenance) (n l : Nat),
    (a.lower finish p n l).returns = a.returns
  | .done, _, _, _, _ => rfl
  | .otherwise body, _, p, n, l => returns_block body ⟨p.line, some .elseBranch⟩ n l
  | .arm line condition body rest, finish, p, n, l => by
    rw [Arms.lower, returns_bind, returns_arm, returns_block body, returns_arms rest, Arms.returns]

end

/-- A piece without a return ends by running off its end. -/
theorem eq_done_of_runs {I : Interpretation V} {piece : Piece} {env env' : Env V} {r : Ending V}
    (h : Runs I piece env env' r) (hpiece : piece.returns = false) : r = .done := by
  induction h with
  | @simple s env =>
    cases s with
    | ret value => cases hpiece
    | declare | update | call => rfl
  | cond _ ih | whileLoop _ ih | forLoop _ ih | otherwise _ ih => exact ih hpiece
  | doUntil | loopExit | nil | armsDone => rfl
  | doAgain _ _ _ _ ih | loopAgain _ _ _ _ ih => exact ih hpiece
  | doReturned _ ih | loopReturned _ _ ih => exact ih hpiece
  | cons _ _ _ ih => exact ih (Bool.or_eq_false_iff.1 hpiece).2
  | consReturned _ ih => exact ih (Bool.or_eq_false_iff.1 hpiece).1
  | armTrue _ _ ih => exact ih (Bool.or_eq_false_iff.1 hpiece).1
  | armFalse _ _ ih => exact ih (Bool.or_eq_false_iff.1 hpiece).2

end Returns

section Function

variable (f : Source.Function) (entry : String) (p : Provenance) (n l : Nat)

/-- The place of the synthesized return can be read. -/
theorem exists_read_default (I : Interpretation V) (code : List Quad) (m : Memory V) :
    ∃ v, m.read I (Lowering.defaultReturn code) = some v := by
  rw [Lowering.defaultReturn]
  cases h : code.reverse.findSome? _ with
  | none => exact ⟨_, rfl⟩
  | some place =>
    obtain ⟨q, -, hq⟩ := List.exists_of_findSome?_eq_some h
    split at hq
    · cases hq
      exact ⟨_, rfl⟩
    · cases hq

def closing (isDefaulted : Bool) (place : Operand) : List Quad :=
  (if isDefaulted then [.ret (some place)] else []) ++ [.label (Program.endLabel f.name.text)]

/-- Where the code of a function is put down to: the line of its definition. -/
def place : Provenance := ⟨f.line <|> p.line, p.component⟩

/-- What closes a function depends on the code in front of it. -/
theorem closing_opening : f.closing entry (f.opening (place f p) n l) =
    closing f (f.isDefaulted entry)
      (Lowering.defaultReturn (quads f.opening (place f p) n l)) := by
  have hreturns : (f.opening (place f p) n l).returns = f.body.returns :=
    returns_block f.body (place f p) (moves 0 f.params n).temps l
  rw [Function.closing, hreturns]
  rfl

theorem exists_code_layout :
    ∃ (k : Nat) (inner : List Quad), (f.lower entry p n l).code =
      (.label f.name.text :: (moves 0 f.params n).code).map (·, place f p) ++
        ((f.body.lower (place f p) k l).code ++
          (closing f (f.isDefaulted entry) (Lowering.defaultReturn inner)).map (·, place f p)) ∧
      (f.lower entry p n l).labels = (f.body.lower (place f p) k l).labels := by
  have hopening : (f.opening (place f p) n l).code =
      (.label f.name.text :: (moves 0 f.params n).code).map (·, place f p) ++
        (f.body.lower (place f p) (moves 0 f.params n).temps l).code := rfl
  refine ⟨(moves 0 f.params n).temps, quads f.opening (place f p) n l, ?_, rfl⟩
  rw [← closing_opening, ← List.append_assoc, ← hopening]
  rfl

theorem exists_layout :
    ∃ (q : Provenance) (k : Nat) (code : List Quad), quads (f.lower entry) p n l =
      .label f.name.text :: ((moves 0 f.params n).code ++ (quads f.body.lower q k l ++
        closing f (f.isDefaulted entry) (Lowering.defaultReturn code))) ∧
      (f.lower entry p n l).labels = (f.body.lower q k l).labels := by
  obtain ⟨k, inner, hcode, hlabels⟩ := exists_code_layout f entry p n l
  refine ⟨place f p, k, inner, ?_, hlabels⟩
  rw [quads, hcode, List.map_append, List.map_append, List.map_map, List.map_map]
  exact congrArg₂ _ (List.map_id _) (congrArg _ (List.map_id _))

theorem labelText_ne_name (i : Nat) (x : Name) : labelText i ≠ x.text := by
  intro h
  have hreserved := isReserved_labelText i
  rw [h, x.unreserved] at hreserved
  cases hreserved

theorem labelText_ne_endLabel (i : Nat) (name : String) : labelText i ≠ Program.endLabel name := by
  intro h
  have hlist := congrArg String.toList h
  rw [labelText_toList, Program.endLabel, String.toList_append] at hlist
  exact absurd (List.cons.inj hlist).1 (by decide)

theorem endLabel_ne (name : String) : name ≠ Program.endLabel name := by
  intro h
  have hlength := congrArg String.length h
  rw [Program.endLabel, String.length_append] at hlength
  have : "end_".length = 4 := rfl
  omega

/-- The code of a function is opened and closed by its own labels. Those between them are the
generated ones that it takes. -/
theorem exists_between : ∃ between k, quads (f.lower entry) p n l =
      .label f.name.text :: (between ++ [.label (Program.endLabel f.name.text)]) ∧
    (f.lower entry p n l).labels = l + k ∧
    (labelNames between).Perm ((List.range' l k).map labelText) := by
  obtain ⟨q, k, code, h, hlabels⟩ := exists_layout f entry p n l
  obtain ⟨j, hj, hperm⟩ := labelled_block f.body q k l
  let final : List Quad :=
    if f.isDefaulted entry then [.ret (some (Lowering.defaultReturn code))] else []
  have hfinal : labelNames final = [] := by
    cases hdefaulted : f.isDefaulted entry <;> simp only [final, hdefaulted] <;> rfl
  refine ⟨(moves 0 f.params n).code ++ quads f.body.lower q k l ++ final, j, ?_,
    hlabels.trans hj, ?_⟩
  · rw [h, closing, List.append_assoc, List.append_assoc]
  · rwa [labelNames_append, labelNames_append, (unbranched_moves f.params 0).labelNames_eq, hfinal,
      List.nil_append, List.append_nil]

theorem nodup_labelNames_function : (labelNames (quads (f.lower entry) p n l)).Nodup := by
  obtain ⟨between, k, h, -, hperm⟩ := exists_between f entry p n l
  have hgenerated {name : String} (hname : name ∈ labelNames between) :
      ∃ i, labelText i = name := by
    obtain ⟨i, -, hi⟩ := List.mem_map.1 (hperm.mem_iff.1 hname)
    exact ⟨i, hi⟩
  rw [h, labelNames_label, labelNames_append, List.nodup_cons, List.nodup_append]
  refine ⟨?_, ?_, List.nodup_singleton _, ?_⟩
  · intro hname
    rcases List.mem_append.1 hname with hname | hname
    · obtain ⟨i, hi⟩ := hgenerated hname
      exact labelText_ne_name i f.name hi
    · exact endLabel_ne _ (List.mem_singleton.1 hname)
  · exact hperm.nodup_iff.2 (List.Nodup.map labelText_injective List.nodup_range')
  · rintro name hname other hother rfl
    obtain ⟨i, rfl⟩ := hgenerated hname
    exact labelText_ne_endLabel i _ (List.mem_singleton.1 hother)

end Function

section Run

variable {I : Interpretation V} {f : Source.Function} {entry : String} {m : Memory V} {env : Env V}
  {r : Ending V}

theorem settles_moves (params : List Name) (n : Nat) (hq : m.queue = []) :
    Settles I (moves n params) m (bindParams m.incoming n params m.names) := by
  induction params generalizing n m with
  | nil => exact settles_pure hq
  | cons x rest ih =>
    intro k
    let m₁ : Memory V :=
      { m with names := Function.update m.names x.text (m.incoming (n + 1)) }
    obtain ⟨m', hexec, hnames, hq'⟩ := ih (m := m₁) (n + 1) hq k
    refine ⟨m', ?_, hnames, hq'⟩
    change exec I ([.assign (.name x.text) (.param (n + 1))] ++ (moves (n + 1) rest k).code) m = _
    rw [exec_append, exec_singleton (act_assign rfl rfl)]
    exact hexec

/-- The end of a function. Only a synthesized return makes it return. -/
theorem exists_stops_closing (f : Source.Function) (isDefaulted : Bool) (code inner : List Quad)
    (m : Memory V) :
    ∃ k r, Stops I code k (closing f isDefaulted (Lowering.defaultReturn inner)) m (m.names, r) ∧
      (isDefaulted = false → r = .done) := by
  cases isDefaulted with
  | true =>
    obtain ⟨v, hv⟩ := exists_read_default I inner m
    exact ⟨1, .returned (some v), stops_of_act (act_ret_some hv), nofun⟩
  | false => exact ⟨_, .done, (leads_next (act_label _)).stops stops_nil, fun _ => rfl⟩

/-- Running a function binds its parameters and gets to its body. -/
theorem exists_leads_body (f : Source.Function) (entry : String) (p : Provenance) (n l : Nat)
    (hq : m.queue = []) :
    ∃ q j inner k m₁, (quads f.body.lower q j l ++
        closing f (f.isDefaulted entry) (Lowering.defaultReturn inner)) <:+
          quads (f.lower entry) p n l ∧
      Leads I (quads (f.lower entry) p n l) k (quads (f.lower entry) p n l) m
        (quads f.body.lower q j l ++
          closing f (f.isDefaulted entry) (Lowering.defaultReturn inner)) m₁ ∧
      m₁.names = bindParams m.incoming 0 f.params m.names ∧ m₁.queue = [] := by
  obtain ⟨q, j, inner, hlayout, -⟩ := exists_layout f entry p n l
  obtain ⟨k, m₁, hleads, hnames, hq₁⟩ := (settles_moves f.params 0 hq).leads n
    (quads (f.lower entry) p n l) (quads f.body.lower q j l ++
      closing f (f.isDefaulted entry) (Lowering.defaultReturn inner))
  refine ⟨q, j, inner, k + 1, m₁, ?_, ?_, hnames, hq₁⟩
  · rw [hlayout]
    exact (List.suffix_append _ _).trans (List.suffix_cons _ _)
  · have hstart := (leads_next (act_label f.name.text)).trans hleads
    rwa [← hlayout] at hstart

theorem stops_of_runs (entry : String) (p : Provenance) (n l : Nat) (hq : m.queue = [])
    (h : f.Runs I m.incoming m.names env r) :
    ∃ k r₀, Stops I (quads (f.lower entry) p n l) k (quads (f.lower entry) p n l) m (env, r₀) ∧
      r = if f.isDefaulted entry then .done else r₀ := by
  obtain ⟨q, j, inner, k, m₁, hsuffix, hstart, hnames, hq₁⟩ :=
    exists_leads_body (I := I) f entry p n l hq
  have hbody := simulated (nodup_labelNames_function f entry p n l) h q j l _ m₁ hnames hq₁ hsuffix
  cases r with
  | done =>
    obtain ⟨k₁, m₂, hleads, rfl, -⟩ := hbody
    obtain ⟨k₂, r₀, hstops, hdone⟩ := exists_stops_closing (I := I) f (f.isDefaulted entry)
      (quads (f.lower entry) p n l) inner m₂
    refine ⟨_, r₀, (hstart.trans hleads).stops hstops, ?_⟩
    cases hdefaulted : f.isDefaulted entry with
    | true => rfl
    | false => exact (hdone hdefaulted).symm
  | returned value =>
    obtain ⟨k₁, hstops⟩ := hbody
    refine ⟨_, _, hstart.stops hstops, ?_⟩
    -- A function with a return of its own gets no other.
    cases hdefaulted : f.isDefaulted entry with
    | false => rfl
    | true =>
      have hreturns : f.body.returns = false := by
        rw [Function.isDefaulted, Bool.and_eq_true, Bool.not_eq_true'] at hdefaulted
        exact hdefaulted.2
      exact eq_done_of_runs h hreturns

/-- The execution of a function ends exactly if the run of its code does. -/
theorem runs_iff_halts (p : Provenance) (n l : Nat) (hq : m.queue = []) :
    f.Runs I m.incoming m.names env r ↔
      ∃ r₀, Halts I (quads (f.lower entry) p n l) m env r₀ ∧
        r = if f.isDefaulted entry then .done else r₀ := by
  constructor
  · intro h
    obtain ⟨k, r₀, hstops, hr⟩ := stops_of_runs entry p n l hq h
    exact ⟨r₀, ⟨k, (hstops k _).2 ⟨Nat.le_refl k, rfl⟩⟩, hr⟩
  · rintro ⟨r₀, ⟨fuel, hrun⟩, rfl⟩
    obtain ⟨q, j, inner, k, m₁, hsuffix, hstart, hnames, hq₁⟩ :=
      exists_leads_body (I := I) f entry p n l hq
    obtain ⟨left, -, hleft⟩ := (hstart fuel _).1 hrun
    obtain ⟨env', r, h⟩ := reflected_block (nodup_labelNames_function f entry p n l) f.body q j l _
      m₁ left _ hq₁ hsuffix hleft
    rw [hnames] at h
    obtain ⟨k, r₁, hstops, rfl⟩ := stops_of_runs entry p n l hq h
    obtain ⟨-, heq⟩ := (hstops fuel _).1 hrun
    cases heq
    exact h

end Run

section Slices

variable (entry : String)

/-- An open stretch goes on up to its end label. -/
theorem brackets_inside {name : String} (start : Nat) (inner rest : List Quad) (i : Nat)
    (h : Program.endLabel name ∉ labelNames inner) :
    Program.brackets (some (name, start)) i (inner ++ rest) =
      Program.brackets (some (name, start)) (i + inner.length) rest := by
  induction inner generalizing i with
  | nil => rfl
  | cons q inner ih =>
    rw [List.length_cons, Nat.add_comm inner.length, ← Nat.add_assoc]
    cases hq : q.labelName? with
    | none =>
      rw [labelNames, List.filterMap_cons_none hq] at h
      rw [← ih _ h]
      simp only [List.cons_append, Program.brackets, hq]
    | some label =>
      rw [labelNames, List.filterMap_cons_some hq, List.mem_cons, not_or] at h
      rw [← ih _ h.2]
      simp only [List.cons_append, Program.brackets, hq, if_neg (Ne.symm h.1)]

theorem brackets_function (f : Source.Function) (p : Provenance) (n l : Nat) (rest : List Quad)
    (i : Nat) :
    Program.brackets none i (quads (f.lower entry) p n l ++ rest) =
      (f.name.text, i, (quads (f.lower entry) p n l).length) ::
        Program.brackets none (i + (quads (f.lower entry) p n l).length) rest := by
  obtain ⟨between, k, h, -, hperm⟩ := exists_between f entry p n l
  have hend : Program.endLabel f.name.text ∉ labelNames between := by
    intro hname
    obtain ⟨i, -, hi⟩ := List.mem_map.1 (hperm.mem_iff.1 hname)
    exact labelText_ne_endLabel i _ hi
  have hlength : (quads (f.lower entry) p n l).length = between.length + 2 := by
    rw [h, List.length_cons, List.length_append, List.length_singleton]
  rw [hlength, h, List.cons_append, List.append_assoc]
  change Program.brackets (some (f.name.text, i)) (i + 1) _ = _
  rw [brackets_inside i between _ _ hend]
  have hcount : i + 1 + between.length + 1 - i = between.length + 2 := by omega
  have hnext : i + 1 + between.length + 1 = i + (between.length + 2) := by omega
  rw [← hnext, ← hcount]
  exact if_pos rfl

def slices (p : Provenance) : List Source.Function → Nat → Nat → Nat → List FunctionSlice
  | [], _, _, _ => []
  | f :: fs, start, n, l =>
    let code := quads (f.lower entry) p n l
    ⟨f.name.text, start, code⟩ ::
      slices p fs (start + code.length) (f.lower entry p n l).temps (f.lower entry p n l).labels

/-- The stretches of the code of some functions are their slices. -/
theorem map_brackets (fs : List Source.Function) (before : List Quad) (p : Provenance)
    (n l : Nat) :
    ((Program.brackets none before.length (quads (lowerFunctions entry fs) p n l)).map
      fun (name, start, length) => (⟨name, start,
        ((before ++ quads (lowerFunctions entry fs) p n l).drop start).take length⟩ :
          FunctionSlice)) = slices entry p fs before.length n l := by
  induction fs generalizing before n l with
  | nil => rfl
  | cons f fs ih =>
    rw [lowerFunctions, quads_bind, brackets_function, List.map_cons, slices, ← List.append_assoc,
      ← List.length_append, ih]
    congr 1
    change FunctionSlice.mk _ _ (((before ++ _ ++ _).drop before.length).take _) = _
    rw [List.append_assoc, List.drop_left, List.take_left]

theorem code_codeOf (fs : List Source.Function) :
    (Program.empty.extend (Lowering.codeOf entry fs)).code.toList =
      quads (lowerFunctions entry fs) ⟨none, none⟩ 0 0 := by
  rw [Program.extend_code]
  rfl

theorem functions_eq (fs : List Source.Function) :
    (Program.empty.extend (Lowering.codeOf entry fs)).functions =
      slices entry ⟨none, none⟩ fs 0 0 0 := by
  rw [Program.functions, code_codeOf]
  exact map_brackets entry fs [] _ _ _

theorem functions_code (fs : List Source.Function) :
    List.Forall₂ (fun f slice => slice.name = f.name.text ∧
        ∃ p n l, slice.code = quads (f.lower entry) p n l) fs
      (Program.empty.extend (Lowering.codeOf entry fs)).functions := by
  have h (p : Provenance) (start n l : Nat) :
      List.Forall₂ (fun f slice => slice.name = f.name.text ∧
        ∃ p n l, slice.code = quads (f.lower entry) p n l) fs (slices entry p fs start n l) := by
    induction fs generalizing start n l with
    | nil => exact .nil
    | cons f fs ih => exact .cons ⟨rfl, p, n, l, rfl⟩ (ih _ _ _)
  rw [functions_eq]
  exact h _ _ _ _

theorem flatMap_slices (p : Provenance) (fs : List Source.Function) (start n l : Nat) :
    (slices entry p fs start n l).flatMap (·.code) = quads (lowerFunctions entry fs) p n l := by
  induction fs generalizing start n l with
  | nil => rfl
  | cons f fs ih =>
    rw [slices, List.flatMap_cons, ih, lowerFunctions, quads_bind]

/-- The slices of a program are all of its code. -/
theorem flatMap_functions (fs : List Source.Function) :
    (Program.empty.extend (Lowering.codeOf entry fs)).functions.flatMap (·.code) =
      (Program.empty.extend (Lowering.codeOf entry fs)).code.toList := by
  rw [functions_eq, flatMap_slices, code_codeOf]

theorem exists_of_mem_slices {slice : FunctionSlice} {p : Provenance} {fs : List Source.Function}
    {start n l : Nat} (h : slice ∈ slices entry p fs start n l) :
    ∃ f ∈ fs, slice.name = f.name.text ∧ ∃ n l, slice.code = quads (f.lower entry) p n l := by
  induction fs generalizing start n l with
  | nil => cases h
  | cons f fs ih =>
    rcases List.mem_cons.1 h with rfl | h
    · exact ⟨f, List.mem_cons_self, rfl, n, l, rfl⟩
    · obtain ⟨g, hg, hslice⟩ := ih h
      exact ⟨g, List.mem_cons_of_mem f hg, hslice⟩

end Slices

end Lookahead.Machine
