import Lookahead.Proofs.Code.Provenance
import Lookahead.Proofs.Language.Moved
import Lookahead.Proofs.Layout.Blocks
import Mathlib.Data.List.Chain

namespace Lookahead

open Lookahead.Derivation (Bears)
open Grammar (language)

/-- The next token is on the same line, or the line ends here. -/
def Token.Adjoins (x y : Token) : Prop := x.kind = Terminal.newline.name ∨ y.line = x.line

namespace Layout

variable {blocks : Blocks} {lines : List (Nat × List Char)} {ts : List Token}

theorem isChain_of_line (number : Nat) (h : ∀ x ∈ ts, x.line = number) :
    ts.IsChain Token.Adjoins := by
  apply List.Pairwise.isChain
  apply List.pairwise_of_forall_mem_list
  intro x hx y hy
  exact .inr ((h y hy).trans (h x hx).symm)

/-- The tokens of a line are all on it, and the end of the line is the last of them. -/
theorem isChain_scanLines (hlines : ∀ e ∈ lines, isSkipped e.2 = false) {last : Nat}
    (h : (scanLines blocks last lines).items = ts.map .ok) : ts.IsChain Token.Adjoins := by
  induction lines generalizing blocks last ts with
  | nil =>
    rw [scanLines_nil] at h
    rw [← map_ok_injective h]
    apply isChain_of_line last
    intro x hx
    rw [List.eq_of_mem_replicate hx]
    rfl
  | cons e rest ih =>
    obtain ⟨number, line⟩ := e
    obtain ⟨hline, hrest⟩ := List.forall_mem_cons.1 hlines
    obtain ⟨us, rfl, -, -, hus⟩ := exists_of_scanLines_cons hline h
    rw [← List.append_assoc]
    refine List.IsChain.append (isChain_of_line number fun x hx => ?_) (ih hrest hus)
      fun x hx y _ => ?_
    · rcases List.mem_append.1 hx with hx | hx
      · exact line_of_mem_settle hx
      · exact (mem_lineTokens x hx).1
    · -- The last token of the line is its end, behind which any line may follow.
      rw [lineTokens, ← List.append_assoc, List.getLast?_concat] at hx
      cases hx
      exact .inl rfl

theorem isChain_of_tokenize {source : String} {x : Token}
    (h : tokenize source = .ok (ts ++ [x])) : ts.IsChain Token.Adjoins := by
  have hitems := items_of_tokenize h
  rw [scan_eq] at hitems
  exact isChain_scanLines (fun e he => isSkipped_of_mem_codeLines he) hitems

/-- Without the end of a line between them, tokens stay on the line of the first. -/
theorem line_eq_of_isChain {x : Token} (h : (x :: ts).IsChain Token.Adjoins)
    (hinline : ∀ y ∈ x :: ts, y.kind ≠ Terminal.newline.name) : ∀ y ∈ x :: ts, y.line = x.line := by
  induction ts generalizing x with
  | nil => exact List.forall_mem_singleton.2 rfl
  | cons z ts ih =>
    obtain ⟨hadjoins, hrest⟩ := List.isChain_cons_cons.1 h
    obtain ⟨hx, hinline⟩ := List.forall_mem_cons.1 hinline
    have hz : z.line = x.line := hadjoins.resolve_left hx
    refine List.forall_mem_cons.2 ⟨rfl, fun y hy => ?_⟩
    rw [ih hrest hinline y hy, hz]

end Layout

namespace Language

def isInline (s : Symbol) : Bool :=
  s ∉ [NodeKind.program, .funcList, .funcDef, .block, .blockBody, .stmtList, .stmt, .ifStmt,
    .elifList, .elseOpt, .whileStmt, .forStmt, .doStmt, .terminal .newline].map NodeKind.label

theorem isInline_of_production : ∀ s, isInline s = true → ∀ p ∈ language.productions s,
    ∀ x ∈ p, isInline x = true :=
  closed_of_rules (by decide +kernel)

def isSolid (s : Symbol) : Bool :=
  s ∉ [NodeKind.program, .funcList, .params, .paramTail, .stmtList, .declInit, .returnValue,
    .elifList, .elseOpt, .args, .argTail, .exprTail, .arithTail, .termTail, .factorTail,
    .epsilon].map NodeKind.label

variable {t : Tree} {trees : List Tree} {tokens ts : List Token}

theorem exists_solid_of_production {s : Symbol} (hs : isSolid s = true) {p : Production}
    (hp : p ∈ language.productions s) : ∃ x ∈ p, isSolid x = true := by
  have hall : ∀ r ∈ language.rules, isSolid r.name = true → ∀ p ∈ r.productions,
      ∃ x ∈ p, isSolid x = true := by decide +kernel
  obtain ⟨r, hr, rfl, hp'⟩ := Grammar.mem_productions.1 hp
  exact hall r hr hs p hp'

theorem yield_ne_nil (hd : language.IsDerivation t) (hsolid : isSolid t.label = true) :
    language.yield t ≠ [] := by
  induction t using Tree.induct with
  | node info children ih =>
    cases hr : language.isRule info.label with
    | true =>
      obtain ⟨x, hx, hsolid⟩ := exists_solid_of_production hsolid (hd.production hr)
      obtain ⟨c, hc, rfl⟩ := List.mem_map.1 hx
      intro hnil
      rw [Grammar.yield_node _ hr, List.flatMap_eq_nil_iff] at hnil
      exact ih c hc (hd.child hc) hsolid (hnil c hc)
    | false =>
      obtain rfl : children = [] := hd.children_eq_nil hr
      have hε : info.label ≠ Symbol.epsilon := by
        intro hε
        rw [Tree.label_node, hε] at hsolid
        exact absurd hsolid (by decide)
      rw [Grammar.yield_leaf, if_pos (Grammar.isTerminal_iff.2 ⟨hr, hε⟩)]
      exact List.cons_ne_nil _ _

theorem ne_nil_of_bears (hb : Bears language trees ts)
    (hsolid : ∃ t ∈ trees, isSolid t.label = true) : ts ≠ [] := by
  rintro rfl
  obtain ⟨t, ht, hsolid⟩ := hsolid
  have hyield := hb.flatMap_yield
  rw [List.map_nil, List.flatMap_eq_nil_iff] at hyield
  exact yield_ne_nil (hb.1 t ht) hsolid (hyield t ht)

/-- Trees that derive no end of a line bear tokens of one line. -/
theorem exists_line_of_bears (hb : Bears language trees ts) (hchain : ts.IsChain Token.Adjoins)
    (hinline : ∀ t ∈ trees, isInline t.label = true)
    (hsolid : ∃ t ∈ trees, isSolid t.label = true) :
    ∃ x, ts.head? = some x ∧ ∀ y ∈ ts, y.line = x.line := by
  cases ts with
  | nil => exact absurd rfl (ne_nil_of_bears hb hsolid)
  | cons x ts =>
    refine ⟨x, rfl, Layout.line_eq_of_isChain hchain fun y hy heq => ?_⟩
    have hkind := hb.inner_kinds isInline_of_production hinline y hy
    rw [heq] at hkind
    exact absurd hkind (by decide)

end Language

section Operands

open Source (kind? char?)

variable {t : Tree} {trees : List Tree} {tokens ts : List Token} {number : Nat}

theorem Terminal.name_of_ofName? {s : Symbol} {kind : Terminal} (h : ofName? s = some kind) :
    kind.name = s := by
  simpa using List.find?_some h

theorem NodeKind.label_of_ofLabel? {label : Symbol} {kind : Terminal}
    (h : ofLabel? label = some (.terminal kind)) : label = kind.name := by
  have hrules : ∀ e ∈ rules, e.2 ≠ .terminal kind := by
    intro e he heq
    fin_cases he <;> cases heq
  unfold ofLabel? at h
  split at h
  · next e he => exact absurd (Option.some.inj h) (hrules e (List.mem_of_find?_eq_some he))
  · obtain ⟨kind', hname, heq⟩ := Option.map_eq_some_iff.1 h
    cases heq
    exact (Terminal.name_of_ofName? hname).symm

theorem Source.eq_singleton_of_char? {text : String} {c : Char} (h : char? text = some c) :
    text = String.singleton c := by
  unfold char? at h
  split at h
  · next c' heq =>
    cases h
    rw [← String.toList_inj, heq, String.toList_singleton]
  · cases h

/-- A token spells the operand that it stands for. -/
theorem Terminal.spelledOn_of_mem {kind : Terminal} {text : String}
    (h : ⟨kind.name, some text, number⟩ ∈ tokens) :
    ∀ o ∈ kind.operand? text, o.SpelledOn tokens number := by
  intro o ho
  cases kind
  case ident | number =>
    cases ho
    exact h
  case charLit =>
    obtain ⟨c, hc, rfl⟩ := Option.map_eq_some_iff.1 ho
    rw [Source.eq_singleton_of_char? hc] at h
    exact h
  all_goals cases ho

/-- Trees whose tokens are all on one line spell their operands there. -/
theorem spells_of_bears (hblank : t.Blank) (hb : Derivation.Bears language [t] ts)
    (hts : ∀ x ∈ ts, x ∈ tokens ∧ x.line = number) :
    t.Spells (Operand.SpelledOn tokens number) := by
  induction t using Tree.induct generalizing ts with
  | node info children ih =>
    intro s hs o ho
    rw [Tree.preorder_node] at hs
    rcases List.mem_cons.1 hs with rfl | hs
    · -- Only a terminal stands for an operand, and it bears the one token that spells it.
      unfold Tree.operand? at ho
      split at ho
      · next kind hkind =>
        obtain ⟨text, hliteral, ho⟩ := Option.bind_eq_some_iff.1 ho
        have hkinds := hb.flatMap_yield
        rw [List.flatMap_singleton, Language.yield_terminal (hb.1 _ List.mem_cons_self)
          (NodeKind.label_of_ofLabel? hkind)] at hkinds
        obtain ⟨⟨_, literal, line⟩, rfl, rfl⟩ := List.map_eq_singleton_iff.1 hkinds.symm
        obtain ⟨hmem, rfl⟩ := List.forall_mem_singleton.1 hts
        rcases Language.bears_cases hb hblank with ⟨-, -, hnone, -⟩ | ⟨-, hsome, -⟩
        · exact absurd (hliteral.symm.trans hnone) (Option.some_ne_none _)
        · obtain rfl : some text = literal := hliteral.symm.trans hsome
          exact Terminal.spelledOn_of_mem hmem o ho
      · cases ho
    · obtain ⟨c, hc, hs⟩ := List.mem_flatMap.1 hs
      rcases Language.bears_cases hb hblank with ⟨-, -, -, -, hchildren⟩ | ⟨rfl, -⟩
      · obtain ⟨us, before, after, rfl, hus⟩ := hchildren.of_mem hc
        refine ih c hc (hblank.child c hc) hus (fun x hx => hts x ?_) s hs o ho
        exact List.mem_append_left _ (List.mem_append_right _ hx)
      · cases hc

end Operands

namespace Tree

open Lookahead.Language (isInline isSolid)

variable {kind : NodeKind} {tokens : List Token} {info : Node} {t : Tree} {children : List Tree}

structure ParsedFrom (tokens : List Token) (kind : NodeKind) (t : Tree) : Prop where
  parsed : Parsed kind t
  blank : t.Blank
  stretch : ∃ ts, Bears language [t] ts ∧ ts.IsChain Token.Adjoins ∧ ts ⊆ tokens

namespace ParsedFrom

theorem child (h : ParsedFrom tokens kind (.node info children)) (hk : kind.productions ≠ [])
    {c : Tree} (hc : c ∈ children) {k : NodeKind} (hparsed : Parsed k c) :
    ParsedFrom tokens k c := by
  obtain ⟨ts, hb, hchain, hsub⟩ := h.stretch
  obtain ⟨us, before, after, rfl, hus⟩ := (hb.children (h.parsed.isRule hk)).of_mem hc
  refine ⟨hparsed, h.blank.child c hc, us, hus, hchain.left_of_append.right_of_append, ?_⟩
  exact fun x hx => hsub (List.mem_append_left _ (List.mem_append_right _ hx))

theorem forall₂ (h : ParsedFrom tokens kind (.node info children)) (hk : kind.productions ≠ [])
    {Q : NodeKind → Tree → Prop} (hQ : ∀ c ∈ children, ∀ k, ParsedFrom tokens k c → Q k c) :
    ∃ p ∈ kind.productions, List.Forall₂ Q p children :=
  h.parsed.forall₂ hk fun c hc k hparsed => hQ c hc k (h.child hk hc hparsed)

end ParsedFrom

/-- Trees that derive tokens, but not the end of a line, spell their operands on one line. -/
theorem exists_line_of_bears {trees : List Tree} {ts : List Token}
    (hb : Bears language trees ts) (hblank : ∀ t ∈ trees, t.Blank)
    (hchain : ts.IsChain Token.Adjoins) (hsub : ts ⊆ tokens)
    (hinline : ∀ t ∈ trees, isInline t.label = true)
    (hsolid : ∃ t ∈ trees, isSolid t.label = true) :
    ∃ number, ts.head?.map (·.line) = some number ∧
      ∀ t ∈ trees, t.Spells (Operand.SpelledOn tokens number) := by
  obtain ⟨x, hx, hline⟩ := Language.exists_line_of_bears hb hchain hinline hsolid
  refine ⟨x.line, by rw [hx]; rfl, fun t ht => ?_⟩
  obtain ⟨us, before, after, rfl, hus⟩ := hb.of_mem ht
  refine spells_of_bears (hblank t ht) hus fun y hy => ?_
  have hmem : y ∈ before ++ us ++ after := List.mem_append_left _ (List.mem_append_right _ hy)
  exact ⟨hsub hmem, hline y hmem⟩

namespace ParsedFrom

theorem spells (h : ParsedFrom tokens kind t) (hinline : isInline kind.label = true)
    (hsolid : isSolid kind.label = true) :
    ∃ number, t.firstLine = some number ∧ t.Spells (Operand.SpelledOn tokens number) := by
  obtain ⟨ts, hb, hchain, hsub⟩ := h.stretch
  rw [← h.parsed.label] at hinline hsolid
  obtain ⟨number, hnumber, hspells⟩ := exists_line_of_bears hb
    (List.forall_mem_singleton.2 h.blank) hchain hsub (List.forall_mem_singleton.2 hinline)
    ⟨t, List.mem_cons_self, hsolid⟩
  refine ⟨number, ?_, hspells t List.mem_cons_self⟩
  rw [Language.firstLine_of_bears h.blank hb, hnumber]

/-- The first children of a node, up to the end of a line, spell their operands on the first line
of the node. -/
theorem header (h : ParsedFrom tokens kind (.node info children)) (hk : kind.productions ≠ [])
    {p : List NodeKind} (hp : List.Forall₂ Parsed p children) (n : Nat)
    (hinline : ∀ k ∈ p.take n, isInline k.label = true)
    (hsolid : ∃ k ∈ p.take n, isSolid k.label = true) :
    ∃ number, (Tree.node info children).firstLine = some number ∧
      ∀ c ∈ children.take n, c.Spells (Operand.SpelledOn tokens number) := by
  obtain ⟨ts, hb, hchain, hsub⟩ := h.stretch
  have hlabels : (children.take n).map (·.label) = (p.take n).map NodeKind.label := by
    rw [← List.forall₂_eq_eq_eq, List.forall₂_map_left_iff, List.forall₂_map_right_iff]
    exact (List.forall₂_take n hp).flip.imp fun _ _ hparsed => hparsed.label
  have hinline' : ∀ c ∈ children.take n, isInline c.label = true := by
    rw [← List.forall_mem_map (P := (isInline · = true)), hlabels, List.forall_mem_map]
    exact hinline
  have hsolid' : ∃ c ∈ children.take n, isSolid c.label = true := by
    obtain ⟨k, hk, hsolid⟩ := hsolid
    have hmem : k.label ∈ (children.take n).map (·.label) := hlabels ▸ List.mem_map_of_mem hk
    obtain ⟨c, hc, heq⟩ := List.mem_map.1 hmem
    exact ⟨c, hc, heq ▸ hsolid⟩
  have hchildren := hb.children (h.parsed.isRule hk)
  rw [← List.take_append_drop n children] at hchildren
  obtain ⟨us, vs, rfl, hus, -⟩ := hchildren.exists_split
  obtain ⟨number, hnumber, hspells⟩ := exists_line_of_bears hus
    (fun c hc => h.blank.child c (List.mem_of_mem_take hc)) hchain.left_of_append
    (fun x hx => hsub (List.mem_append_left _ hx)) hinline' hsolid'
  refine ⟨number, ?_, hspells⟩
  -- The first children bear at least one token, so the node begins where they do.
  rw [Language.firstLine_of_bears h.blank hb]
  cases us with
  | nil => cases hnumber
  | cons x us => exact hnumber

theorem firstLine_only {c : Tree} (h : ParsedFrom tokens kind (.node info [c]))
    (hk : kind.productions ≠ []) : (Tree.node info [c]).firstLine = c.firstLine := by
  obtain ⟨ts, hb, -, -⟩ := h.stretch
  rw [Language.firstLine_of_bears h.blank hb, Language.firstLine_of_bears
    (h.blank.child c List.mem_cons_self) (hb.children (h.parsed.isRule hk))]

end ParsedFrom

end Tree

end Lookahead
