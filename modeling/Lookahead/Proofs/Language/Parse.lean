import Lookahead.Compiler
import Lookahead.Proofs.Derivation.Completeness
import Lookahead.Proofs.Derivation.Termination
import Lookahead.Proofs.Language.Sets
import Lookahead.Proofs.Layout.Tokens

namespace Lookahead.Language

open Grammar (language)
open Lookahead.Derivation

section Trees

open Lookahead.Tree (branch emptied leaf)

def arithTree (factor : Tree) : Tree :=
  branch "ArithExpr" [branch "Term" [factor, emptied "TermTail"], emptied "ArithTail"]

def paramsTree : Tree :=
  branch "Params" [branch "Param" [branch "Type" [leaf 0 "INT"], leaf 0 "ID"], emptied "ParamTail"]

def functionTree (params body : Tree) : Tree :=
  branch "FuncDef" [leaf 0 "DEF", leaf 0 "ID", leaf 0 "LPAREN", params, leaf 0 "RPAREN",
    branch "Block" [leaf 0 "COLON", body]]

def programTree (functions : List Tree) (eof : Tree) : Tree :=
  branch "Program"
    [functions.foldr (fun f rest => branch "FuncList" [f, rest]) (emptied "FuncList"), eof]

end Trees

theorem isRule_name (kind : Terminal) : language.isRule kind.name = false := by
  cases kind <;> decide +kernel

theorem isRule_kind_scan {source : String} {i : Nat} {x : Token}
    (h : (TokenStream.scan source).get i = .ok x) : language.isRule x.kind = false := by
  rcases TokenStream.get_scan h with ⟨-, kind, hkind, -⟩ | ⟨-, rfl⟩
  · rw [hkind]
    exact isRule_name kind
  · exact Grammar.isRule_eof_language

theorem productions_start : language.productions language.start = [["FuncList", Symbol.eof]] := by
  decide +kernel

/-- A derivation of a program yields the end marker last and nowhere else. -/
theorem yield_start {t : Tree} (hd : language.IsDerivation t) (hlabel : t.label = language.start) :
    ∃ w, language.yield t = w ++ [Symbol.eof] ∧ Symbol.eof ∉ w := by
  cases t with
  | node info children =>
    have hr : language.isRule info.label = true := by
      rw [show info.label = language.start from hlabel]
      exact language.isRule_start
    have hp := hd.production hr
    rw [hlabel, productions_start, List.mem_singleton] at hp
    obtain ⟨list, rest, rfl, hlist, hrest⟩ := List.map_eq_cons_iff.1 hp
    obtain ⟨last, rfl, hlast⟩ := List.map_eq_singleton_iff.1 hrest
    obtain ⟨hdlist, hdlast⟩ : language.IsDerivation list ∧ language.IsDerivation last :=
      ⟨hd.child List.mem_cons_self, hd.child (List.mem_cons_of_mem _ List.mem_cons_self)⟩
    refine ⟨language.yield list, ?_, ?_⟩
    · rw [Grammar.yield_node _ hr, List.flatMap_cons, List.flatMap_singleton]
      congr 1
      cases last with
      | node info' children' =>
        obtain rfl : children' = [] := hdlast.children_eq_nil (hlast ▸ Grammar.isRule_eof_language)
        rw [Grammar.yield_leaf, show info'.label = Symbol.eof from hlast]
        rfl
    · -- Below `FuncList` neither the end marker nor the start symbol is reached.
      intro hmem
      refine (hdlist.inner_of_mem_yield (fun s hs => Grammar.inner_of_end Grammar.end_language hs.1)
        ?_ _ hmem).2 rfl
      rw [hlist]
      exact ⟨by decide, by decide⟩

/-- What is known of a source that is derived: its tokens, each of them at a leaf of the tree. -/
theorem tokens_of_parse {sets : FirstFollow} {table : Table}
    (hbuild : Table.build language sets = .ok table) {source : String} {tree : Tree} {pulled : Nat}
    {steps : List Step}
    (h : parse table language.start (.scan source) = ⟨.ok tree, pulled, steps⟩) :
    ∃ t tokens, tree = .rooted t ∧ t.label = language.start ∧ tokenize source = .ok tokens ∧
      Bears language [t] tokens ∧ matchCount steps = tokens.length ∧
      pulled = tokens.length + 1 := by
  obtain ⟨t, tokens, rfl, hlabel, hshows, hcount, hpulled, hbears⟩ :=
    bears_of_parse hbuild Grammar.isRule_epsilon_language language.isRule_start h
  have hbears := hbears fun x hx => by
    obtain ⟨i, hi, rfl⟩ := List.getElem_of_mem hx
    exact isRule_kind_scan (hshows i hi)
  obtain ⟨w, hyield, hw⟩ := yield_start (hbears.1 t List.mem_cons_self) hlabel
  have hkinds := hbears.flatMap_yield
  rw [List.flatMap_singleton, hyield] at hkinds
  obtain ⟨ts, last, rfl, hts, hlast⟩ := List.append_eq_map_iff.1 hkinds
  obtain ⟨e, rfl, he⟩ := List.map_eq_singleton_iff.1 hlast
  refine ⟨t, ts ++ [e], rfl, hlabel, ?_, hbears, hcount, hpulled⟩
  have hget : ∀ i (hi : i < ts.length), (TokenStream.scan source).get i = .ok ts[i] := by
    intro i hi
    rw [hshows i (by rw [List.length_append]; omega), List.getElem_append_left hi]
  have hend : (TokenStream.scan source).get ts.length = .ok e := by
    rw [hshows ts.length (by simp), List.getElem_append_right (Nat.le_refl _)]
    simp
  -- The end marker cannot be an item, and the tokens before it must be.
  obtain ⟨hle, rfl⟩ : (TokenStream.scan source).items.length ≤ ts.length ∧
      e = .eof (TokenStream.scan source).eofLine := by
    rcases TokenStream.get_scan hend with ⟨-, hscanned⟩ | h
    · exact absurd he hscanned.kind_ne_eof
    · exact h
  have hge : ts.length ≤ (TokenStream.scan source).items.length := by
    by_contra hlt
    have hi : (TokenStream.scan source).items.length < ts.length := by omega
    rcases TokenStream.get_scan (hget _ hi) with ⟨h, -⟩ | ⟨-, heof⟩
    · omega
    · apply hw
      rw [← hts]
      exact List.mem_map.2 ⟨_, List.getElem_mem hi, by rw [heof]; rfl⟩
  rw [tokenize_eq_ok]
  refine ⟨ts, ?_, rfl⟩
  apply List.ext_getElem
  · rw [List.length_map]
    omega
  · intro i h₁ h₂
    have hi := hget i (by omega)
    rw [TokenStream.get, List.getD_eq_getElem _ _ h₁] at hi
    rw [hi, List.getElem_map]

variable {table : Table}
  (hbuild : Table.build language (FirstFollow.compute language) = .ok table)

include hbuild

theorem conflicts_language : table.conflicts = [] :=
  Grammar.languageCertificate.conflicts_eq_nil hbuild Grammar.separates_languageCertificate

theorem parse_ne_endless (source : String) :
    (parse table language.start (.scan source)).result ≠ .error .endless :=
  Derivation.parse_ne_endless hbuild (conflicts_language hbuild) _ (.inr Grammar.end_language)

/-- A derivation of the tokens of a source is found again. -/
theorem exists_parse_of_derivation {source : String} {tokens : List Token}
    (htokens : tokenize source = .ok tokens) {t : Tree} (hd : language.IsDerivation t)
    (hstart : t.label = language.start) (hy : language.yield t = tokens.map (·.kind)) :
    ∃ t', (parse table language.start (.scan source)).result = .ok (.rooted t') ∧
      t'.bare = t.bare := by
  obtain ⟨ts, hitems, rfl⟩ := tokenize_eq_ok.1 htokens
  have hpast : ∀ i, ts.length ≤ i →
      (TokenStream.scan source).get i = .ok (.eof (TokenStream.scan source).eofLine) := by
    intro i hi
    exact TokenStream.get_of_le (by rw [hitems, List.length_map]; omega)
  have hshows : (TokenStream.scan source).Shows ts := by
    intro i hi
    rw [TokenStream.get, hitems, List.getD_eq_getElem _ _ (by rwa [List.length_map]),
      List.getElem_map]
  exact exists_parse hbuild (conflicts_language hbuild)
    (FirstFollow.closed_compute language) Grammar.isRule_epsilon_language
    Grammar.isRule_eof_language hd hstart hy.symm
    (hshows.append_singleton (hpast _ (Nat.le_refl _)))
    (hpast _ (by rw [List.length_append]; omega))

theorem exists_parse_of_sentence {source : String} {tokens : List Token}
    (htokens : tokenize source = .ok tokens)
    (hw : language.IsSentence (tokens.map (·.kind))) :
    ∃ tree, (parse table language.start (.scan source)).result = .ok tree := by
  obtain ⟨t, hd, hstart, hy⟩ := (Grammar.isSentence_iff Grammar.isRule_epsilon_language).1 hw
  obtain ⟨t', ht', -⟩ := exists_parse_of_derivation hbuild htokens hd hstart hy
  exact ⟨_, ht'⟩

end Lookahead.Language
