import Lookahead.Proofs.Code.CallSites
import Lookahead.Proofs.Language.Program

namespace Lookahead.Language

open Grammar (language)

variable {sets : FirstFollow} {entry source : String} {c : Compiler} {program : Program}

/-- All of the code follows the calling convention with the calls of the source, and so does the
code of every function with those of the function. -/
theorem calls_conventional (hc : (Compiler.build language sets entry).result = .ok c)
    (hp : (c.compile source).result = .ok program) :
    ∃ tree fs, (Derivation.parse c.table c.grammar.start (.scan source)).result = .ok tree ∧
      Source.readProgram tree = some fs ∧
      (∃ sites, Convention (fs.flatMap Source.Function.calls) program.code.toList sites) ∧
      List.Forall₂ (fun f slice => slice.name = f.name.text ∧
        ∃ sites, Convention f.calls slice.code sites) fs program.functions := by
  obtain ⟨table, hbuild, rfl⟩ := exists_table_of_build hc
  obtain ⟨t, tokens, fs, h, rfl⟩ := compiles_of_compile hbuild hp
  refine ⟨_, fs, h.parse_result, h.read, ?_, (Machine.functions_code entry fs).imp ?_⟩
  · rw [Machine.code_codeOf]
    exact (conforms_functions fs entry _ _ _).convention
  · rintro f slice ⟨hname, p, n, l, hcode⟩
    rw [hcode]
    exact ⟨hname, (conforms_function f entry p n l).convention⟩

section NestedCall

open Lookahead.Tree (branch emptied leaf)

def nestedCallTree : Tree :=
  let expr (factor : List Tree) :=
    branch "Expr" [arithTree (branch "Factor" factor), emptied "ExprTail"]
  let passed (label : Symbol) (args : Tree) :=
    branch label [leaf 0 "LPAREN", args, leaf 0 "RPAREN"]
  let inner := expr [leaf 0 "ID", passed "FactorTail"
    (branch "Args" [expr [leaf 0 "ID", emptied "FactorTail"], emptied "ArgTail"])]
  let call := branch "SimpleStmt" [leaf 0 "ID", passed "IdSuffix" (branch "Args"
    [inner, branch "ArgTail" [leaf 0 "COMMA", expr [leaf 0 "NUM"], emptied "ArgTail"]])]
  programTree [functionTree paramsTree (branch "BlockBody" [call, leaf 0 "NEWLINE"])] (leaf 0 "EOF")

end NestedCall

theorem calls_conventional_nestedCall : ∃ c program,
    (Compiler.build language (.compute language) "main").result = .ok c ∧
      (c.compile "def f(int a): f(f(a), 2)\n").result = .ok program ∧
      ∃ tree fs, (Derivation.parse c.table c.grammar.start
          (.scan "def f(int a): f(f(a), 2)\n")).result = .ok tree ∧
        Source.readProgram tree = some fs ∧
        (∃ sites, Convention (fs.flatMap Source.Function.calls) program.code.toList sites) ∧
        List.Forall₂ (fun f slice => slice.name = f.name.text ∧
          ∃ sites, Convention f.calls slice.code sites) fs program.functions := by
  have hkinds : (tokenize "def f(int a): f(f(a), 2)\n").map (·.map (·.kind)) =
      .ok (language.yield nestedCallTree) := by
    rw [tokenize_eq_scanLines]
    decide +kernel
  obtain ⟨c, program, hc, hp⟩ :=
    exists_compiled (by decide +kernel) (by decide +kernel) hkinds "main"
  exact ⟨c, program, hc, hp, calls_conventional hc hp⟩

end Lookahead.Language
