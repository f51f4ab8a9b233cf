import Lookahead.Proofs.Code.Jumps
import Lookahead.Proofs.Code.Temporaries
import Lookahead.Proofs.Language.Acceptance

namespace Lookahead.Language

open Grammar (language)
open Machine (labelNames quads)
open Source (labelText lowerFunctions)

section Programs

variable {sets : FirstFollow} {entry source : String} {c : Compiler} {program : Program}

theorem exists_code (hc : (Compiler.build language sets entry).result = .ok c)
    (hp : (c.compile source).result = .ok program) :
    ∃ fs, program = Program.empty.extend (Lowering.codeOf entry fs) ∧ ∀ f ∈ fs, f.body.Headed := by
  obtain ⟨table, t, tokens, fs, h, rfl⟩ := exists_compiles hc hp
  exact ⟨fs, rfl, Source.headed_readProgram h.read⟩

section CountLoop

open Lookahead.Tree (branch emptied leaf)

def countLoopTree : Tree :=
  let test := branch "Expr" [arithTree (branch "Factor" [leaf 0 "ID", emptied "FactorTail"]),
    branch "ExprTail" [branch "RelOp" [leaf 0 "LT"], arithTree (branch "Factor" [leaf 0 "NUM"]),
      emptied "ExprTail"]]
  let step := branch "SimpleStmt"
    [leaf 0 "ID", branch "IdSuffix" [branch "AssignOp" [leaf 0 "INC"]]]
  let loop := branch "WhileStmt" [leaf 0 "WHILE", leaf 0 "LPAREN", test, leaf 0 "RPAREN",
    branch "Block" [leaf 0 "COLON", branch "BlockBody" [step, leaf 0 "NEWLINE"]]]
  programTree [functionTree paramsTree (branch "BlockBody" [leaf 0 "NEWLINE", leaf 0 "BEGIN",
    branch "StmtList" [branch "Stmt" [loop], emptied "StmtList"], leaf 0 "END"])] (leaf 0 "EOF")

end CountLoop

theorem exists_compiled_countLoop (entry : String) :
    ∃ c program, (Compiler.build language (.compute language) entry).result = .ok c ∧
      (c.compile "def f(int a):\n  while (a < 3): a++\n").result = .ok program :=
  exists_compiled (t := countLoopTree) (by decide +kernel) (by decide +kernel)
    (by rw [tokenize_eq_scanLines]; decide +kernel) entry

/-- The temporaries of a program are those below `m`, defined in the order of their numbers. Each
of them is an argument of one instruction, behind its definition and in the same basic block of the
same function. -/
structure LinearTemps (program : Program) (m : Nat) : Prop where
  defined_eq : program.code.toList.filterMap Quad.defined? = List.range m
  lt_of_used : ∀ q ∈ program.code.toList, ∀ i ∈ q.uses, i < m
  used_once : ∀ i < m, program.code.toList.countP (fun q => i ∈ q.uses) = 1
  in_block : ∀ i < m, ∃ slice ∈ program.functions, ∃ before d between q after,
    slice.code = before ++ d :: (between ++ q :: after) ∧ d.defined? = some i ∧ i ∈ q.uses ∧
      ∀ r ∈ between, r.op.isControl = false

theorem exists_flows (entry : String) (fs : List Source.Function) :
    ∃ m, Flows 0 0 (Program.empty.extend (Lowering.codeOf entry fs)).code.toList 0 m := by
  rw [Machine.code_codeOf]
  exact ⟨_, Source.tidy_functions entry fs ⟨none, none⟩ 0 0⟩

theorem exists_flows_slice (entry : String) {fs : List Source.Function} {slice : FunctionSlice}
    (h : slice ∈ (Program.empty.extend (Lowering.codeOf entry fs)).functions) :
    ∃ n n', Flows 0 n slice.code 0 n' := by
  rw [Machine.functions_eq] at h
  obtain ⟨f, -, -, n, l, hcode⟩ := Machine.exists_of_mem_slices entry h
  rw [hcode]
  exact ⟨n, _, Source.tidy_function f entry ⟨none, none⟩ n l⟩

/-- In the code of a compiled source, temporaries are linear and local to a basic block. -/
theorem temporaries_linear (hc : (Compiler.build language sets entry).result = .ok c)
    (hp : (c.compile source).result = .ok program) : ∃ m, LinearTemps program m := by
  obtain ⟨fs, rfl, -⟩ := exists_code hc hp
  obtain ⟨_, hflows⟩ := exists_flows entry fs
  obtain ⟨m, -, hdefined⟩ := hflows.exists_defined
  rw [← List.range_eq_range'] at hdefined
  obtain ⟨hused, honce⟩ := hflows.linear
  simp only [hdefined, List.mem_range] at hused honce
  refine ⟨m, hdefined, hused, honce, fun i hi => ?_⟩
  -- The definition stands in one of the slices, which leaves no temporary open either.
  rw [← List.mem_range, ← hdefined, ← Machine.flatMap_functions, List.filterMap_flatMap,
    List.mem_flatMap] at hi
  obtain ⟨slice, hslice, hi⟩ := hi
  obtain ⟨n, n', hflows⟩ := exists_flows_slice entry hslice
  exact ⟨slice, hslice, hflows.exists_define hi (Multiset.notMem_zero i)⟩

theorem temporaries_linear_countLoop : ∃ c program,
    (Compiler.build language (.compute language) "main").result = .ok c ∧
      (c.compile "def f(int a):\n  while (a < 3): a++\n").result = .ok program ∧
      ∃ m, LinearTemps program m := by
  obtain ⟨c, program, hc, hp⟩ := exists_compiled_countLoop "main"
  exact ⟨c, program, hc, hp, temporaries_linear hc hp⟩

/-- The generated labels of a program are those below `k`. Each of them stands in the code once, and
some jump goes to it. The code is that of the functions. Inside the code of a function, between its
own labels, all labels are generated, and every jump goes to one of them. -/
structure ResolvedJumps (program : Program) (k : Nat) : Prop where
  generated_iff : ∀ i, labelText i ∈ labelNames program.code.toList ↔ i < k
  placed_once : ∀ i < k, (labelNames program.code.toList).count (labelText i) = 1
  aimed_at : ∀ i < k, ∃ q ∈ program.code.toList, q.op.isJump = true ∧
    q.result = some (.label (labelText i))
  slices : program.functions.flatMap (·.code) = program.code.toList
  resolved : ∀ slice ∈ program.functions, ∃ between,
    slice.code = .label slice.name :: (between ++ [.label (Program.endLabel slice.name)]) ∧
      (∀ name ∈ labelNames between, ∃ i < k, name = labelText i) ∧
      ∀ q ∈ slice.code, q.op.isJump = true →
        ∃ i < k, q.result = some (.label (labelText i)) ∧ labelText i ∈ labelNames between

theorem exists_aims (entry : String) {fs : List Source.Function} (h : ∀ f ∈ fs, f.body.Headed) :
    ∃ k, Machine.Aims [] 0 (Program.empty.extend (Lowering.codeOf entry fs)).code.toList k ∧
      ∀ i, (labelNames (Program.empty.extend (Lowering.codeOf entry fs)).code.toList).count
        (labelText i) = (List.range k).count i := by
  obtain ⟨k, hlabels, hcount⟩ := Machine.exists_count_functions entry fs ⟨none, none⟩ 0 0
  have haims := Machine.aimed_functions entry h ⟨none, none⟩ 0 0
  rw [hlabels, Nat.zero_add] at haims
  rw [← List.range_eq_range'] at hcount
  rw [Machine.code_codeOf]
  exact ⟨k, haims, hcount⟩

/-- In the code of a compiled source, every jump has its one place to go to, in the same function,
and every generated label has a jump to it. -/
theorem jumps_resolved (hc : (Compiler.build language sets entry).result = .ok c)
    (hp : (c.compile source).result = .ok program) : ∃ k, ResolvedJumps program k := by
  obtain ⟨fs, rfl, hheaded⟩ := exists_code hc hp
  obtain ⟨k, haims, hcount⟩ := exists_aims entry hheaded
  have hgenerated (i : Nat) : labelText i ∈ labelNames
      (Program.empty.extend (Lowering.codeOf entry fs)).code.toList ↔ i < k := by
    rw [← List.count_pos_iff, hcount, List.count_pos_iff, List.mem_range]
  refine ⟨k, hgenerated, fun i hi => ?_, fun i hi => ?_, Machine.flatMap_functions entry fs,
    fun slice hslice => ?_⟩
  · rw [hcount]
    exact List.count_eq_one_of_mem List.nodup_range (List.mem_range.2 hi)
  · obtain ⟨q, hq, hresult⟩ := List.mem_map.1 (haims.onto i (Nat.zero_le i) hi)
    obtain ⟨hq, hop⟩ := List.mem_filter.1 hq
    exact ⟨q, hq, hop, hresult⟩
  · have hmem := hslice
    rw [Machine.functions_eq] at hmem
    obtain ⟨between, hbetween, hnames, htarget⟩ := Machine.exists_target_slice entry hheaded hmem
    -- What stands inside a slice stands in the program.
    have hinside {i : Nat} (hi : labelText i ∈ labelNames between) : i < k := by
      rw [← hgenerated, ← Machine.flatMap_functions]
      obtain ⟨q, hq, hlabel⟩ := List.mem_filterMap.1 hi
      refine List.mem_filterMap.2 ⟨q, List.mem_flatMap.2 ⟨slice, hslice, ?_⟩, hlabel⟩
      rw [hbetween]
      exact List.mem_cons_of_mem _ (List.mem_append_left _ hq)
    refine ⟨between, hbetween, fun name hname => ?_, fun q hq hop => ?_⟩
    · obtain ⟨i, rfl⟩ := hnames name hname
      exact ⟨i, hinside hname, rfl⟩
    · obtain ⟨i, hresult, hlabel⟩ := htarget q hq hop
      exact ⟨i, hinside hlabel, hresult, hlabel⟩

theorem jumps_resolved_countLoop : ∃ c program,
    (Compiler.build language (.compute language) "main").result = .ok c ∧
      (c.compile "def f(int a):\n  while (a < 3): a++\n").result = .ok program ∧
      ∃ k, ResolvedJumps program k := by
  obtain ⟨c, program, hc, hp⟩ := exists_compiled_countLoop "main"
  exact ⟨c, program, hc, hp, jumps_resolved hc hp⟩

end Programs

end Lookahead.Language
