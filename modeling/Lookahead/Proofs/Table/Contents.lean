import Lookahead.Proofs.FirstFollow.Growth

namespace Lookahead

namespace FirstFollow

variable {sets : FirstFollow} {first : Dict SymbolSet} {p : List Symbol} {rule t : Symbol}

/-- By the sets a sequence begins with `t`: one of its symbols does, and all before it can
vanish. -/
def Opens (first : Dict SymbolSet) (p : List Symbol) (t : Symbol) : Prop :=
  ∃ before s after, p = before ++ s :: after ∧ (∀ x ∈ before, Vanishes first x) ∧
    s ≠ Symbol.epsilon ∧ t ∈ firstOf first s

theorem mem_firstOfSequence_iff (ht : t ≠ Symbol.epsilon) :
    t ∈ firstOfSequence first p ↔ Opens first p t := by
  constructor
  · intro h
    induction p with
    | nil => exact absurd (SymbolSet.mem_singleton.1 h) ht
    | cons s rest ih =>
      rcases (mem_firstOfSequence_cons ht).1 h with ⟨hs, h⟩ | ⟨hs, h⟩
      · exact ⟨[], s, rest, rfl, fun _ h => absurd h List.not_mem_nil, hs, h⟩
      · obtain ⟨before, x, after, rfl, hbefore, hx⟩ := ih h
        exact ⟨s :: before, x, after, rfl, List.forall_mem_cons.2 ⟨hs, hbefore⟩, hx⟩
  · rintro ⟨before, s, after, rfl, hbefore, hs, h⟩
    apply mem_firstOfSequence_append hbefore ht
    exact (mem_firstOfSequence_cons ht).2 (.inl ⟨hs, h⟩)

theorem claims_iff : sets.Claims rule p t ↔ t ≠ Symbol.epsilon ∧
    (Opens sets.first p t ∨ (∀ s ∈ p, Vanishes sets.first s) ∧ t ∈ sets.followOf rule) := by
  rw [Claims, epsilon_mem_firstOfSequence]
  exact and_congr_right fun ht => or_congr_left (mem_firstOfSequence_iff ht)

end FirstFollow

def Cell.Precedes (c d : Cell) : Prop :=
  c.rule < d.rule ∨ c.rule = d.rule ∧ c.lookahead < d.lookahead

theorem Cell.not_precedes {c d : Cell} (h : c.Precedes d) : ¬ d.Precedes c := by
  unfold Cell.Precedes at *
  grind

namespace Table

variable {g : Grammar} {sets : FirstFollow} {table : Table}

theorem mem_cells {c : Cell} :
    c ∈ table.cells ↔ table.lookup c.rule c.lookahead = some c.production := by
  obtain ⟨rule, lookahead, p⟩ := c
  simp only [cells, List.mem_flatMap, List.mem_map, Prod.exists, Dict.mem_entries, Cell.mk.injEq]
  constructor
  · rintro ⟨_, row, hrow, _, _, hp, rfl, rfl, rfl⟩
    rw [lookup, Table.row, hrow]
    exact hp
  · intro h
    rw [lookup, Table.row] at h
    cases hrow : table.rows.get? rule with
    | none =>
      rw [hrow] at h
      contradiction
    | some row =>
      rw [hrow] at h
      exact ⟨rule, row, hrow, lookahead, p, h, rfl, rfl, rfl⟩

theorem pairwise_cells (table : Table) : table.cells.Pairwise Cell.Precedes := by
  apply List.pairwise_flatMap.2
  constructor
  · intro e _
    apply List.pairwise_map.2
    exact e.2.sorted.imp fun h => .inr ⟨rfl, h⟩
  · apply table.rows.sorted.imp
    intro e e' h c hc d hd
    obtain ⟨_, _, rfl⟩ := List.mem_map.1 hc
    obtain ⟨_, _, rfl⟩ := List.mem_map.1 hd
    exact .inl h

/-- The order and the members of the listing leave nothing open. -/
theorem eq_cells {cells : List Cell} (hsorted : cells.Pairwise Cell.Precedes)
    (hmem : ∀ c, c ∈ cells ↔ table.lookup c.rule c.lookahead = some c.production) :
    cells = table.cells := by
  have hnodup {l : List Cell} (h : l.Pairwise Cell.Precedes) : l.Nodup :=
    h.imp fun h => by
      rintro rfl
      exact Cell.not_precedes h h
  have hperm : cells.Perm table.cells :=
    (List.perm_ext_iff_of_nodup (hnodup hsorted) (hnodup (pairwise_cells table))).2
      fun c => (hmem c).trans mem_cells.symm
  exact hperm.eq_of_pairwise (fun c d _ _ h h' => absurd h' (Cell.not_precedes h)) hsorted
    (pairwise_cells table)

theorem size_eq_length (table : Table) : table.size = table.cells.length := by
  rw [size, cells, List.length_flatMap, List.sum_eq_foldl, List.foldl_map]
  simp only [List.length_map, Dict.size]

/-- What is claimed, in the words of the declarations and of the sets of single symbols. -/
structure ReadsClaims (g : Grammar) (sets : FirstFollow) : Prop where
  declared : ∀ rules, Grammar.ofRules rules = .ok g →
    ∀ rule, g.productions rule = Grammar.declared rules rule
  claims : ∀ rule p t, sets.Claims rule p t ↔ t ≠ Symbol.epsilon ∧
    (FirstFollow.Opens sets.first p t ∨
      (∀ s ∈ p, FirstFollow.Vanishes sets.first s) ∧ t ∈ sets.followOf rule)

theorem readsClaims (g : Grammar) (sets : FirstFollow) : ReadsClaims g sets where
  declared _ hrules rule := Grammar.productions_ofRules hrules rule
  claims _ _ _ := FirstFollow.claims_iff

/-- Each cell holds the last production that claims it, and the listing has every cell once. -/
structure HoldsLastClaims (g : Grammar) (sets : FirstFollow) (table : Table) : Prop
    extends ReadsClaims g sets where
  lookup : ∀ rule t, table.lookup rule t =
    ((g.productions rule).filter fun p => sets.Claims rule p t).getLast?
  vacant : ∀ rule t, table.lookup rule t = none ↔
    g.isRule rule = false ∨ ∀ p ∈ g.productions rule, ¬sets.Claims rule p t
  cells : ∀ c, c ∈ table.cells ↔ table.lookup c.rule c.lookahead = some c.production
  sorted : table.cells.Pairwise Cell.Precedes
  lines : ∀ cells : List Cell, cells.Pairwise Cell.Precedes →
    (∀ c, c ∈ cells ↔ table.lookup c.rule c.lookahead = some c.production) →
      table.toLines = cells.map fun c =>
        s!"M[{c.rule}, {c.lookahead}] = {c.rule} -> {c.production.text}"
  size : table.size = table.cells.length

theorem holdsLastClaims_of_build (h : build g sets = .ok table) :
    HoldsLastClaims g sets table where
  toReadsClaims := readsClaims g sets
  lookup rule t := lookup_of_build h rule t
  vacant rule t := by
    rw [lookup_of_build h, List.getLast?_eq_none_iff, FirstFollow.claimants,
      List.filter_eq_nil_iff]
    simp only [decide_eq_true_eq]
    refine ⟨.inr, ?_⟩
    rintro (hrule | hnone)
    · rw [Grammar.productions_eq_nil hrule]
      exact fun _ hp => absurd hp List.not_mem_nil
    · exact hnone
  cells _ := mem_cells
  sorted := pairwise_cells table
  lines cells hsorted hmem := by
    rw [eq_cells hsorted hmem]
    rfl
  size := size_eq_length table

/-- The rule `S` is declared twice, and `A` has one of its productions twice. -/
def contestedRules : List Rule :=
  [⟨"S", [["A", "x"]]⟩, ⟨"A", [["a"], [Symbol.epsilon], ["a"]]⟩, ⟨"S", [["a"]]⟩]

def contested : Grammar where
  rules := Grammar.collect contestedRules
  nonempty := by decide +kernel
  nodup := by decide +kernel
  unmixed := by decide +kernel

/-- Sets that no computation gives: a terminal that can be empty, `EPSILON` behind a rule. -/
def loaded : FirstFollow where
  first := .ofList [("S", .ofList ["a"]), ("A", .ofList ["a", Symbol.epsilon]),
    ("x", .ofList ["a", Symbol.epsilon])]
  follow := .ofList [("S", .ofList ["a", Symbol.eof]), ("A", .ofList ["a", Symbol.epsilon])]

theorem holdsLastClaims_of_build_contested :
    ∃ table, build contested loaded = .ok table ∧
      Grammar.ofRules contestedRules = .ok contested ∧
      contested.productions "S" = [["A", "x"], ["a"]] ∧
      table.lookup "S" "a" = some ["a"] ∧ table.lookup "S" Symbol.eof = some ["A", "x"] ∧
      table.lookup "A" "a" = some ["a"] ∧ table.lookup "A" Symbol.epsilon = none := by
  have hrules : Grammar.ofRules contestedRules = .ok contested := rfl
  have hbuild : build contested loaded = .ok _ := rfl
  have hholds := holdsLastClaims_of_build hbuild
  refine ⟨_, hbuild, hrules, ?_, ?_, ?_, ?_, ?_⟩
  · rw [hholds.declared _ hrules]
    decide +kernel
  · rw [hholds.lookup]
    decide +kernel
  · rw [hholds.lookup]
    decide +kernel
  · rw [hholds.lookup]
    decide +kernel
  · rw [hholds.lookup]
    decide +kernel

/-- Each conflict is two productions that claim a cell one after the other and differ. -/
structure ReportsConflicts (g : Grammar) (sets : FirstFollow) (table : Table) : Prop
    extends ReadsClaims g sets where
  conflicts : ∀ rule t,
    (table.conflicts.filter fun c => c.rule = rule ∧ c.lookahead = t) =
      (changes ((g.productions rule).filter fun p => sets.Claims rule p t)).map
        fun e => ⟨rule, t, e.1, e.2⟩
  apart : table.conflicts = [] ↔
    ∀ rule, ∀ p ∈ g.productions rule, ∀ q ∈ g.productions rule, p ≠ q →
      ∀ t, ¬(sets.Claims rule p t ∧ sets.Claims rule q t)
  last : ∀ rule t c,
    (table.conflicts.filter fun c => c.rule = rule ∧ c.lookahead = t).getLast? = some c →
      table.lookup rule t = some c.winner

theorem reportsConflicts_of_build (h : build g sets = .ok table) :
    ReportsConflicts g sets table where
  toReadsClaims := readsClaims g sets
  conflicts rule t := conflictsAt_of_build h rule t
  apart := by
    constructor
    · intro hnone rule p hp q hq hne t hboth
      exact hne (distinct_of_build h hnone rule p hp q hq t hboth.1 hboth.2)
    · intro hapart
      apply conflicts_eq_nil h
      intro rule p hp q hq t hpt hqt
      by_contra hne
      exact hapart rule p hp q hq hne t ⟨hpt, hqt⟩
  last rule t c hc := won_of_build h rule t c hc

theorem reportsConflicts_of_build_contested :
    ∃ table, build contested loaded = .ok table ∧ table.conflicts ≠ [] ∧
      (table.conflicts.filter fun c => c.rule = "A" ∧ c.lookahead = "a") =
        [⟨"A", "a", ["a"], [Symbol.epsilon]⟩, ⟨"A", "a", [Symbol.epsilon], ["a"]⟩] ∧
      table.lookup "A" "a" = some ["a"] := by
  have hbuild : build contested loaded = .ok _ := rfl
  have hreports := reportsConflicts_of_build hbuild
  have hcell := hreports.conflicts "A" "a"
  refine ⟨_, hbuild, ?_, ?_, ?_⟩
  · intro hnone
    have hapart := hreports.apart.1 hnone "A" ["a"] (by decide +kernel) [Symbol.epsilon]
      (by decide +kernel) (by decide +kernel) "a"
    exact hapart ⟨by decide +kernel, by decide +kernel⟩
  · rw [hcell]
    decide +kernel
  · exact hreports.last "A" "a" ⟨"A", "a", [Symbol.epsilon], ["a"]⟩ (by rw [hcell]; decide +kernel)

end Table

end Lookahead
