import Lookahead.Proofs.Derivation.Run
import Lookahead.Proofs.Grammar.Tree

namespace Lookahead

namespace Tree

section Numbers

variable {t c : Tree} {info : Node} {children : List Tree}

def ids (t : Tree) : List Nat := t.preorder.map id

/-- Every child has a larger number than its parent. -/
def Rising (t : Tree) : Prop := ∀ n ∈ t.preorder, ∀ c ∈ n.children, n.id < c.id

/-- The nodes have the numbers from zero on, the root first and children after their parents. -/
structure Numbered (t : Tree) : Prop where
  root : t.id = 0
  ids : t.ids.Perm (List.range t.size)
  rising : t.Rising

theorem ids_node (info : Node) (children : List Tree) :
    (node info children).ids = info.id :: children.flatMap ids := by
  rw [ids, preorder_node, List.map_cons, List.map_flatMap]
  rfl

theorem length_ids (t : Tree) : t.ids.length = t.size := List.length_map _

theorem rising_node : (node info children).Rising ↔
    (∀ c ∈ children, info.id < c.id) ∧ ∀ c ∈ children, c.Rising := by
  simp only [Rising, preorder_node, List.forall_mem_cons, List.mem_flatMap]
  exact ⟨fun ⟨h, h'⟩ => ⟨h, fun c hc n hn => h' n ⟨c, hc, hn⟩⟩,
    fun ⟨h, h'⟩ => ⟨h, fun n ⟨c, hc, hn⟩ => h' c hc n hn⟩⟩

theorem Numbered.mem_ids (h : t.Numbered) {i : Nat} : i ∈ t.ids ↔ i < t.size := by
  rw [h.ids.mem_iff, List.mem_range]

theorem Numbered.nodup (h : t.Numbered) : t.ids.Nodup := h.ids.nodup_iff.2 List.nodup_range

end Numbers

section Grafting

variable {t child : Tree} {parent : Nat}

theorem graftAll_eq (l : List Tree) : graftAll parent child l = l.map (graft parent child) := by
  induction l with
  | nil => rfl
  | cons t l ih => rw [graftAll, ih, List.map_cons]

theorem graft_node (info : Node) (children : List Tree) :
    graft parent child (node info children) =
      node info
        (children.map (graft parent child) ++ if info.id = parent then [child] else []) := by
  rw [graft, graftAll_eq]
  split <;> simp

theorem id_graft (t : Tree) : (graft parent child t).id = t.id := by
  cases t with
  | node info children =>
    rw [graft_node]
    rfl

/-- Each node that bears the number of the parent gets a child. -/
theorem count_ids_graft (t : Tree) (i : Nat) :
    (graft parent child t).ids.count i =
      t.ids.count i + t.ids.count parent * child.ids.count i := by
  induction t using induct with
  | node info children ih =>
    have hchildren : ((children.map (graft parent child)).flatMap ids).count i =
        (children.flatMap ids).count i +
          (children.flatMap ids).count parent * child.ids.count i := by
      induction children with
      | nil => simp
      | cons t l ih' =>
        have ht := ih t List.mem_cons_self
        have hl := ih' fun c hc => ih c (List.mem_cons_of_mem t hc)
        simp only [List.map_cons, List.flatMap_cons, List.count_append, ht, hl, Nat.add_mul]
        omega
    rw [graft_node, ids_node, ids_node, List.flatMap_append, List.count_cons, List.count_append,
      hchildren, List.count_cons, List.count_cons, Nat.add_mul]
    by_cases hp : info.id = parent
    · simp [hp]
      omega
    · simp [hp]
      omega

theorem rising_graft (ht : t.Rising) (hchild : child.Rising) (hlt : parent < child.id) :
    (graft parent child t).Rising := by
  induction t using induct with
  | node info children ih =>
    rw [rising_node] at ht
    rw [graft_node, rising_node]
    simp only [List.mem_append, List.mem_map]
    constructor
    · rintro c (⟨c, hc, rfl⟩ | hc)
      · rw [id_graft]
        exact ht.1 c hc
      · split at hc
        · obtain rfl := List.mem_singleton.1 hc
          omega
        · exact absurd hc List.not_mem_nil
    · rintro c (⟨c, hc, rfl⟩ | hc)
      · exact ih c hc (ht.2 c hc)
      · split at hc
        · obtain rfl := List.mem_singleton.1 hc
          exact hchild
        · exact absurd hc List.not_mem_nil

theorem ids_leaf (id : Nat) (label : Symbol) : (leaf id label).ids = [id] := rfl

theorem rising_leaf (info : Node) : (node info []).Rising := by
  simp [rising_node]

theorem Numbered.ids_add (h : t.Numbered) (hp : parent < t.size) (label : Symbol) :
    (t.add parent label).ids.Perm (List.range (t.size + 1)) := by
  rw [List.perm_iff_count]
  intro i
  have hcount : t.ids.count parent = 1 :=
    List.count_eq_one_of_mem h.nodup (h.mem_ids.2 hp)
  rw [add, count_ids_graft, hcount, ids_leaf, h.ids.count_eq, List.range_succ, List.count_append]
  omega

theorem Numbered.size_add (h : t.Numbered) (hp : parent < t.size) (label : Symbol) :
    (t.add parent label).size = t.size + 1 := by
  rw [← length_ids, (h.ids_add hp label).length_eq, List.length_range]

/-- A new node goes below one that exists. -/
theorem Numbered.add (h : t.Numbered) (hp : parent < t.size) (label : Symbol) :
    (t.add parent label).Numbered where
  root := (id_graft t).trans h.root
  ids := by
    rw [h.size_add hp]
    exact h.ids_add hp label
  rising := rising_graft h.rising (rising_leaf _) hp

end Grafting

/-- The trees have the numbers from `first` on at their roots, and below them those from `n` up to
`m`. -/
structure Fills (trees : List Tree) (first n m : Nat) : Prop where
  le : n ≤ m
  roots : trees.map id = List.range' first trees.length
  ids : (trees.flatMap ids).Perm (List.range' first trees.length ++ List.range' n (m - n))
  rising : ∀ t ∈ trees, t.Rising

section Fills

variable {t : Tree} {trees : List Tree} {first n m k : Nat}

theorem fills_nil (first n : Nat) : Fills [] first n n where
  le := Nat.le_refl n
  roots := rfl
  ids := by simp
  rising := fun _ h => absurd h List.not_mem_nil

theorem fills_leaf (info : Node) (n : Nat) : Fills [node info []] info.id n n where
  le := Nat.le_refl n
  roots := rfl
  ids := by simp [ids_node]
  rising := by simp [rising_leaf]

theorem Fills.cons (h : Fills [t] first n m) (h' : Fills trees (first + 1) m k) :
    Fills (t :: trees) first n k where
  le := Nat.le_trans h.le h'.le
  roots := by
    have hid : t.id = first := by simpa using h.roots
    rw [List.map_cons, h'.roots, hid, List.length_cons, List.range'_succ]
  ids := by
    have hm : n + (m - n) = m := by have := h.le; omega
    have hk : (m - n) + (k - m) = k - n := by have := h.le; have := h'.le; omega
    have hsplit : List.range' n (k - n) = List.range' n (m - n) ++ List.range' m (k - m) := by
      rw [← hk, ← List.range'_append_1, hm]
    rw [List.perm_iff_count]
    intro i
    have ht := h.ids.count_eq i
    have hl := h'.ids.count_eq i
    rw [hsplit, List.length_cons, List.range'_succ]
    simp only [List.flatMap_cons, List.flatMap_nil, List.append_nil, List.length_singleton,
      List.range'_one, List.count_append, List.count_cons, List.count_nil] at ht hl ⊢
    omega
  rising := by
    rw [List.forall_mem_cons]
    exact ⟨h.rising t List.mem_cons_self, h'.rising⟩

/-- The children of a node are numbered when it is expanded. -/
theorem Fills.node {info : Node} (hid : info.id < n)
    (h : Fills trees n (n + trees.length) m) : Fills [.node info trees] info.id n m where
  le := Nat.le_trans (Nat.le_add_right _ _) h.le
  roots := rfl
  ids := by
    have hm : trees.length + (m - (n + trees.length)) = m - n := by have := h.le; omega
    have hids := h.ids
    rw [List.range'_append_1, hm] at hids
    simpa [ids_node] using hids
  rising := by
    rw [List.forall_mem_singleton, rising_node]
    refine ⟨fun c hc => ?_, h.rising⟩
    have hmem : c.id ∈ List.range' n trees.length := h.roots ▸ List.mem_map_of_mem hc
    have := List.mem_range'_1.1 hmem
    omega

theorem Fills.ids_rooted (h : Fills [t] 1 2 m) : (rooted t).ids.Perm (List.range m) := by
  obtain ⟨k, rfl⟩ : ∃ k, m = k + 2 := ⟨m - 2, by have := h.le; omega⟩
  rw [rooted, ids_node, List.range_eq_range', List.range'_succ, List.range'_succ]
  exact h.ids.cons 0

theorem Fills.size_rooted (h : Fills [t] 1 2 m) : (rooted t).size = m := by
  rw [← length_ids, h.ids_rooted.length_eq, List.length_range]

theorem Fills.numbered (h : Fills [t] 1 2 m) : (rooted t).Numbered := by
  refine ⟨rfl, h.size_rooted ▸ h.ids_rooted, rising_node.2 ⟨fun c hc => ?_, h.rising⟩⟩
  have hmem : c.id ∈ List.range' 1 1 := h.roots ▸ List.mem_map_of_mem hc
  have := List.mem_range'_1.1 hmem
  exact this.1

end Fills

end Tree

namespace Derivation

open Lookahead.Tree (Fills)

variable {table : Table}

theorem fills_deriveAll {f : Symbol → Nat → Derivation Tree}
    (hf : ∀ s id c t c', id < c.size → f s id c = (.ok t, c') → Fills [t] id c.size c'.size)
    {p : List Symbol} {id : Nat} {c c' : Cursor} {trees : List Tree} (hid : id + p.length ≤ c.size)
    (h : deriveAll f p id c = (.ok trees, c')) :
    trees.length = p.length ∧ Fills trees id c.size c'.size := by
  induction p generalizing id c trees with
  | nil =>
    cases h
    exact ⟨rfl, Tree.fills_nil id _⟩
  | cons s rest ih =>
    rw [List.length_cons] at hid
    obtain ⟨t, trees, d, rfl, hrest, ht⟩ := deriveAll_ok h
    have hfirst : Fills [t] id c.size d.size := by
      rcases ht with ⟨_, rfl, rfl⟩ | ⟨_, ht⟩
      · exact Tree.fills_leaf _ _
      · exact hf s id c t d (by omega) ht
    have hle := hfirst.le
    obtain ⟨hlength, hfills⟩ := ih (by omega) hrest
    exact ⟨congrArg (· + 1) hlength, hfirst.cons hfills⟩

/-- A matched token makes no new node. -/
theorem size_of_matched {depth id : Nat} {s : Symbol} {c c' : Cursor} {t : Tree}
    (hs : s = c.lookahead.kind) (h : derive table depth s id c = (.ok t, c')) :
    c'.size = c.size := by
  cases depth with
  | zero => cases h
  | succ depth =>
    rw [derive_matched hs] at h
    split at h <;> cases h
    rfl

theorem fills_derive {depth id : Nat} {s : Symbol} {c c' : Cursor} {t : Tree} (hid : id < c.size)
    (h : derive table depth s id c = (.ok t, c')) : Fills [t] id c.size c'.size := by
  induction depth generalizing s id c c' t with
  | zero => cases h
  | succ depth ih =>
    rcases derive_ok h with ⟨hs, _, rfl⟩ | ⟨d, p, children, hd, _, hall, rfl⟩
    · rw [size_of_matched hs h]
      exact Tree.fills_leaf _ _
    · obtain rfl := Nat.succ.inj hd
      obtain ⟨hlength, hfills⟩ :=
        fills_deriveAll (fun s id c t c' hid ht => ih hid ht) (Nat.le_refl (c.size + p.length)) hall
      rw [Cursor.opened, ← hlength] at hfills
      exact hfills.node hid

/-- Every tree that is derived is numbered, whatever the table and the tokens. -/
theorem numbered_of_parse {start : Symbol} {stream : TokenStream} {tree : Tree}
    (h : (parse table start stream).result = .ok tree) : tree.Numbered := by
  rcases hparse : parse table start stream with ⟨result, pulled, steps⟩
  rw [hparse] at h
  obtain rfl : result = .ok tree := h
  obtain ⟨token, rest, t, c, _, hderive, rfl, _⟩ := parse_ok hparse
  exact (fills_derive (Nat.lt_succ_self 1) hderive).numbered

end Derivation

end Lookahead
