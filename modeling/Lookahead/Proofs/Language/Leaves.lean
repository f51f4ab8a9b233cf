import Lookahead.Proofs.Language.Shape

namespace Lookahead

open Grammar (language)

namespace Derivation.Bears

variable {g : Grammar} {t : Tree} {trees : List Tree} {ts : List Token}

theorem exists_append (h : Bears g (t :: trees) ts) :
    ∃ us vs, ts = us ++ vs ∧ Bears g [t] us ∧ Bears g trees vs := by
  obtain ⟨hd, hleaves⟩ := h
  rw [List.flatMap_cons, List.map_append] at hleaves
  obtain ⟨us, vs, rfl, hus, hvs⟩ := List.append_eq_map_iff.1 hleaves
  refine ⟨us, vs, rfl, ⟨?_, ?_⟩, ?_, hvs.symm⟩
  · exact List.forall_mem_singleton.2 (hd t List.mem_cons_self)
  · rw [List.flatMap_singleton, hus]
  · exact fun c hc => hd c (List.mem_cons_of_mem t hc)

theorem exists_split {more : List Tree} (h : Bears g (trees ++ more) ts) :
    ∃ us vs, ts = us ++ vs ∧ Bears g trees us ∧ Bears g more vs := by
  induction trees generalizing ts with
  | nil => exact ⟨[], ts, rfl, bears_nil, h⟩
  | cons t trees ih =>
    obtain ⟨us, vs, rfl, hus, hvs⟩ := h.exists_append
    obtain ⟨us', vs', rfl, hus', hvs'⟩ := ih hvs
    exact ⟨us ++ us', vs', (List.append_assoc _ _ _).symm, hus.append hus', hvs'⟩

/-- The tokens of one of several trees stand together. -/
theorem of_mem (h : Bears g trees ts) (ht : t ∈ trees) :
    ∃ us before after, ts = before ++ us ++ after ∧ Bears g [t] us := by
  obtain ⟨left, right, rfl⟩ := List.append_of_mem ht
  obtain ⟨before, vs, rfl, -, hvs⟩ := h.exists_split
  obtain ⟨us, after, rfl, hus, -⟩ := hvs.exists_append
  exact ⟨us, before, after, (List.append_assoc _ _ _).symm, hus⟩

/-- Trees of inner symbols bear tokens of inner kinds if productions do not lead out of these. -/
theorem inner_kinds {inner : Symbol → Bool}
    (hinner : ∀ s, inner s = true → ∀ p ∈ g.productions s, ∀ x ∈ p, inner x = true)
    (h : Bears g trees ts) (htrees : ∀ t ∈ trees, inner t.label = true) :
    ∀ x ∈ ts, inner x.kind = true := by
  intro x hx
  have hmem : x.kind ∈ trees.flatMap g.yield := by
    rw [h.flatMap_yield]
    exact List.mem_map_of_mem hx
  obtain ⟨t, ht, hy⟩ := List.mem_flatMap.1 hmem
  exact (h.1 t ht).inner_of_mem_yield hinner (htrees t ht) _ hy

theorem children {info : Node} (h : Bears g [.node info trees] ts)
    (hr : g.isRule info.label = true) : Bears g trees ts := by
  obtain ⟨hd, hleaves⟩ := h
  rw [List.flatMap_singleton, Grammar.terminalLeaves_node trees hr] at hleaves
  exact ⟨fun c hc => (hd _ List.mem_cons_self).child hc, hleaves⟩

end Derivation.Bears

namespace Language

/-- A property of symbols that no rule leads out of, no production does. -/
theorem closed_of_rules {inner : Symbol → Bool}
    (h : ∀ r ∈ language.rules, inner r.name = true → ∀ p ∈ r.productions, ∀ x ∈ p,
      inner x = true) :
    ∀ s, inner s = true → ∀ p ∈ language.productions s, ∀ x ∈ p, inner x = true := by
  intro s hs p hp
  obtain ⟨r, hr, rfl, hp'⟩ := Grammar.mem_productions.1 hp
  exact h r hr hs p hp'

theorem isTerminal_name (kind : Terminal) : language.isTerminal kind.name = true := by
  rw [Grammar.isTerminal_iff]
  refine ⟨isRule_name kind, ?_⟩
  cases kind <;> decide

end Language

namespace Tree.Parsed

open Lookahead.Derivation (Bears)

variable {t : Tree} {ts : List Token}

theorem isRule {kind : NodeKind} (h : Parsed kind t) (hk : kind.productions ≠ []) :
    language.isRule t.label = true := by
  by_contra hr
  have hnil := Grammar.productions_eq_nil (Bool.eq_false_iff.2 hr)
  rw [h.label, NodeKind.productions_label, List.map_eq_nil_iff] at hnil
  exact hk hnil

theorem exists_token {kind : Terminal} (h : Parsed (.terminal kind) t)
    (hb : Bears language [t] ts) :
    ∃ x, ts = [x] ∧ x.kind = kind.name ∧ x.literal = t.info.literal ∧
      t.info.line = some x.line := by
  obtain ⟨info, rfl, -⟩ := h.leaf
  have hlabel : info.label = kind.name := h.label
  obtain ⟨-, hleaves⟩ := hb
  rw [List.flatMap_singleton, Grammar.terminalLeaves_leaf, hlabel,
    if_pos (Language.isTerminal_name kind)] at hleaves
  obtain ⟨x, rfl, hx⟩ := List.map_eq_singleton_iff.1 hleaves.symm
  obtain ⟨line, hline, rfl⟩ := Option.map_eq_some_iff.1 hx.symm
  exact ⟨_, rfl, hlabel, rfl, hline⟩

theorem tokens_of_epsilon (h : Parsed .epsilon t) (hb : Bears language [t] ts) : ts = [] := by
  have hyield := FirstFollow.Closed.yield_of_epsilon Grammar.isRule_epsilon_language h.derivation
    h.label
  have hkinds := hb.flatMap_yield
  rw [List.flatMap_singleton, hyield] at hkinds
  exact List.map_eq_nil_iff.1 hkinds.symm

/-- The tree of a program is that of its functions and the end marker. -/
theorem exists_list (h : Parsed .program t) (hb : Bears language [t] ts) :
    ∃ info list last us x, t = .node info [list, last] ∧ ts = us ++ [x] ∧
      Parsed .funcList list ∧ Parsed (.terminal .eof) last ∧ Bears language [list] us ∧
      x.kind = Terminal.eof.name := by
  have hr := h.isRule (by decide)
  obtain ⟨info, children⟩ := t
  obtain ⟨p, hp, hf⟩ := h.forall₂ (by decide) fun c _ k hc => hc
  rw [NodeKind.productions, List.mem_singleton] at hp
  subst hp
  rcases hf with _ | ⟨hlist, _ | ⟨hlast, _ | _⟩⟩
  obtain ⟨us, vs, rfl, hus, hvs⟩ := (hb.children hr).exists_append
  obtain ⟨x, rfl, hx, -⟩ := hlast.exists_token hvs
  exact ⟨info, _, _, us, x, rfl, rfl, hlist, hlast, hus, hx⟩

end Tree.Parsed

end Lookahead
