import Lookahead.Proofs.Language.Acceptance
import Lookahead.Proofs.Simulation.Function

namespace Lookahead.Language

open Source (Interpretation Env Ending)
open Machine (Halts Memory)
open Grammar (language)

/-- A slice has the name of its function, and its run ends exactly if the execution of the function
does: with the same variables and, up to the return that the source does not have, in the same
way. The temporaries may hold anything at the start. -/
def MeansSame (entry : String) (f : Source.Function) (slice : FunctionSlice) : Prop :=
  slice.name = f.name.text ∧
    ∀ (V : Type) (I : Interpretation V) (incoming temps : Nat → V) (names names' : Env V)
      (r : Ending V), f.Runs I incoming names names' r ↔
        ∃ r₀, Halts I slice.code ⟨names, temps, incoming, []⟩ names' r₀ ∧
          r = if f.isDefaulted entry then .done else r₀

/-- The slices of a compiled source mean the same as its functions, in order. -/
theorem slices_meanSame {entry source : String} {c : Compiler} {program : Program}
    (hc : (Compiler.language entry).result = .ok c) (hp : (c.compile source).result = .ok program) :
    ∃ tree fs, (Derivation.parse c.table c.grammar.start (.scan source)).result = .ok tree ∧
      Source.readProgram tree = some fs ∧
      List.Forall₂ (MeansSame entry) fs program.functions := by
  obtain ⟨table, hbuild, hc'⟩ := exists_compiler entry
  rw [hc'] at hc
  cases hc
  rcases compiles_or_error hbuild entry source with ⟨t, tokens, fs, h⟩ | ⟨e, -, -, herror⟩
  · rw [h.compile_eq] at hp
    cases hp
    refine ⟨_, fs, h.parse_result, h.read, ?_⟩
    refine (Machine.functions_code entry fs).imp ?_
    rintro f slice ⟨hname, p, n, l, hcode⟩
    refine ⟨hname, fun V I incoming temps names names' r => ?_⟩
    rw [hcode]
    exact Machine.runs_iff_halts (m := ⟨names, temps, incoming, []⟩) p n l rfl
  · rw [herror] at hp
    cases hp

section CountUp

open Lookahead.Tree (branch leaf)

def countUpTree : Tree :=
  let step := branch "SimpleStmt"
    [leaf 0 "ID", branch "IdSuffix" [branch "AssignOp" [leaf 0 "INC"]]]
  programTree [functionTree paramsTree (branch "BlockBody" [step, leaf 0 "NEWLINE"])] (leaf 0 "EOF")

end CountUp

theorem slices_meanSame_countUp : ∃ c program, (Compiler.language "main").result = .ok c ∧
    (c.compile "def f(int a): a++\n").result = .ok program ∧
    ∃ tree fs,
      (Derivation.parse c.table c.grammar.start (.scan "def f(int a): a++\n")).result = .ok tree ∧
        Source.readProgram tree = some fs ∧
        List.Forall₂ (MeansSame "main") fs program.functions := by
  have hkinds : (tokenize "def f(int a): a++\n").map (·.map (·.kind)) =
      .ok (language.yield countUpTree) := by
    rw [tokenize_eq_scanLines]
    decide +kernel
  obtain ⟨c, program, hc, hp⟩ :=
    exists_compiled (by decide +kernel) (by decide +kernel) hkinds "main"
  rw [← language_result] at hc
  exact ⟨c, program, hc, hp, slices_meanSame hc hp⟩

end Lookahead.Language
