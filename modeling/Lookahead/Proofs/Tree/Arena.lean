import Lookahead.Proofs.Language.Acceptance
import Lookahead.Proofs.Tree.Numbering

namespace Lookahead

/-- A node that knows its children by their numbers. -/
structure Row where
  info : Node
  children : List Nat

abbrev Arena := List Row

namespace Arena

variable {β : Type}

def addChild (a : Arena) (parent : Nat) (label : Symbol) : Arena :=
  a.modify parent (fun row => { row with children := row.children ++ [a.length] }) ++
    [⟨⟨a.length, label, none, none⟩, []⟩]

/-- Combines a node with what comes of its children. Nothing comes of a number out of range, or of
a walk that goes further down than `depth` levels. -/
def walk (a : Arena) (f : Row → List β → β) : Nat → Nat → Option β
  | 0, _ => none
  | depth + 1, i => do
    let row ← a[i]?
    let below ← row.children.mapM (walk a f depth)
    return f row below

def kind (a : Arena) (i : Nat) : ExceptT LoweringError Option NodeKind := do
  let row ← liftM a[i]?
  match NodeKind.ofLabel? row.info.label with
  | some kind => return kind
  | none => throw (.unexpectedNode "parse tree" row.info.label)

def isEmpty (a : Arena) (i : Nat) : ExceptT LoweringError Option Bool := do
  let row ← liftM a[i]?
  match row.children with
  | [] => return false
  | c :: _ => return (← a.kind c) = .epsilon

/-- Follows last children of one kind, for `steps` steps at most. -/
def unrollAs (a : Arena) (kind : NodeKind) : Nat → Nat → ExceptT LoweringError Option (List Nat)
  | 0, _ => liftM (none : Option (List Nat))
  | steps + 1, i => do
    if ← a.isEmpty i then return []
    let row ← liftM a[i]?
    match row.children.getLast? with
    | none => return [i]
    | some last =>
      if (← a.kind last) = kind then return i :: (← unrollAs a kind steps last)
      else return [i]

def unroll (a : Arena) (steps i : Nat) : ExceptT LoweringError Option (List Nat) := do
  a.unrollAs (← a.kind i) steps i

end Arena

namespace Row

def firstLine (row : Row) (below : List (Option Nat)) : Option Nat :=
  row.info.line <|> below.findSome? fun line => line

def leaves (row : Row) (below : List (List Node)) : List Node :=
  (if row.children.isEmpty then [row.info] else []) ++ below.flatten

def render (row : Row) (below : List (Nat → String)) (depth : Nat) : String :=
  "".pushn ' ' (2 * depth) ++ Tree.caption row.info ++ "\n" ++
    String.join (below.map fun text => text (depth + 1))

def visit (row : Row) (below : List (List Nat)) : List Nat := row.info.id :: below.flatten

end Row

namespace Tree

variable {β : Type}

def row (t : Tree) : Row := ⟨t.info, t.children.map id⟩

def arena (t : Tree) : Arena := t.byId.map row

mutual

def fold (f : Row → List β → β) : Tree → β
  | node info children => f (node info children).row (foldAll f children)

def foldAll (f : Row → List β → β) : List Tree → List β
  | [] => []
  | t :: rest => fold f t :: foldAll f rest

end

theorem foldAll_eq (f : Row → List β → β) (l : List Tree) : foldAll f l = l.map (fold f) := by
  induction l with
  | nil => rfl
  | cons t l ih => rw [foldAll, ih, List.map_cons]

theorem fold_node (f : Row → List β → β) (info : Node) (children : List Tree) :
    fold f (node info children) = f (node info children).row (children.map (fold f)) := by
  rw [fold, foldAll_eq]

section Folds

theorem firstLineAmong_eq (l : List Tree) :
    firstLineAmong l = (l.map firstLine).findSome? fun line => line := by
  induction l with
  | nil => rfl
  | cons t l ih =>
    rw [firstLineAmong, ih, List.map_cons, List.findSome?_cons]
    cases t.firstLine <;> rfl

theorem findSome?_map_findSome? {α γ : Type} (f : α → List γ) (g : γ → Option β) (l : List α) :
    (l.map fun a => (f a).findSome? g).findSome? (fun b => b) = (l.flatMap f).findSome? g := by
  induction l with
  | nil => rfl
  | cons a l ih =>
    rw [List.map_cons, List.findSome?_cons, ih, List.flatMap_cons, List.findSome?_append]
    cases (f a).findSome? g <;> rfl

/-- The first line is that of the first node that has one. -/
theorem firstLine_eq_findSome? (t : Tree) :
    t.firstLine = t.preorder.findSome? fun n => n.info.line := by
  induction t using induct with
  | node info children ih =>
    rw [firstLine, firstLineAmong_eq, List.map_congr_left ih, findSome?_map_findSome?,
      preorder_node, List.findSome?_cons]
    cases hline : info.line <;> simp [Tree.info, hline]

theorem fold_firstLine (t : Tree) : t.fold Row.firstLine = t.firstLine := by
  induction t using induct with
  | node info children ih =>
    rw [fold_node, List.map_congr_left ih, Row.firstLine, ← firstLineAmong_eq, firstLine]
    rfl

theorem fold_leaves (t : Tree) : t.fold Row.leaves = t.leaves := by
  induction t using induct with
  | node info children ih =>
    have hchildren : (children.map (fold Row.leaves)).flatten = children.flatMap leaves := by
      rw [List.flatMap, List.map_congr_left ih]
    rw [fold_node, Row.leaves, hchildren]
    cases children with
    | nil => rfl
    | cons c rest =>
      rw [leaves_node info (List.cons_ne_nil c rest)]
      rfl

theorem renderAll_eq (depth : Nat) (l : List Tree) :
    renderAll depth l = String.join (l.map (renderAt depth)) := by
  induction l with
  | nil => rfl
  | cons t l ih => rw [renderAll, ih, List.map_cons, String.join_cons]

theorem fold_render (t : Tree) : t.fold Row.render = fun depth => t.renderAt depth := by
  induction t using induct with
  | node info children ih =>
    funext depth
    rw [fold_node, List.map_congr_left ih, Row.render, List.map_map, renderAt, renderAll_eq]
    rfl

theorem fold_visit (t : Tree) : t.fold Row.visit = t.ids := by
  induction t using induct with
  | node info children ih =>
    rw [fold_node, Row.visit, ids_node, List.flatMap, List.map_congr_left ih]
    rfl

theorem fold_node_self (t : Tree) : t.fold (fun row below => node row.info below) = t := by
  induction t using induct with
  | node info children ih =>
    rw [fold_node, List.map_congr_left ih, List.map_id']
    rfl

end Folds

section Places

variable {t n : Tree}

theorem Numbered.map_id_byId (h : t.Numbered) : t.byId.map id = List.range t.size := by
  have hperm : (t.byId.map id).Perm (List.range t.size) :=
    ((List.mergeSort_perm _ _).map id).trans h.ids
  have hbyId : t.byId.Pairwise fun a b => decide (a.id ≤ b.id) = true := by
    refine List.pairwise_mergeSort (fun a b c hab hbc => ?_) (fun a b => ?_) t.preorder
    · simp only [decide_eq_true_eq] at *
      omega
    · simp only [Bool.or_eq_true, decide_eq_true_eq]
      omega
  have hsorted : (t.byId.map id).Pairwise (· ≤ ·) :=
    List.pairwise_map.2 (hbyId.imp fun h => of_decide_eq_true h)
  exact hperm.eq_of_pairwise (fun a b _ _ hab hba => Nat.le_antisymm hab hba) hsorted
    List.pairwise_le_range

theorem mem_byId : n ∈ t.byId ↔ n ∈ t.preorder := (List.mergeSort_perm _ _).mem_iff

theorem Numbered.length_arena (h : t.Numbered) : t.arena.length = t.size := by
  rw [arena, List.length_map, ← List.length_map id, h.map_id_byId, List.length_range]

theorem Numbered.eq_of_id_eq (h : t.Numbered) {m : Tree} (hn : n ∈ t.preorder)
    (hm : m ∈ t.preorder) (hid : n.id = m.id) : n = m :=
  List.inj_on_of_nodup_map h.nodup hn hm hid

theorem Numbered.id_lt (h : t.Numbered) (hn : n ∈ t.preorder) : n.id < t.size :=
  h.mem_ids.1 (List.mem_map_of_mem hn)

theorem Numbered.exists_node (h : t.Numbered) {i : Nat} (hi : i < t.size) :
    ∃ n ∈ t.preorder, n.id = i :=
  List.mem_map.1 (h.mem_ids.2 hi)

/-- A node stands at the place of its number. -/
theorem Numbered.arena_get (h : t.Numbered) (hn : n ∈ t.preorder) :
    t.arena[n.id]? = some n.row := by
  have hid : (t.byId.map id)[n.id]? = some n.id := by
    rw [h.map_id_byId, List.getElem?_range (h.id_lt hn)]
  obtain ⟨m, hm, hmid⟩ := Option.map_eq_some_iff.1 ((List.getElem?_map ..).symm.trans hid)
  have hmem : m ∈ t.preorder := mem_byId.1 (List.mem_of_getElem? hm)
  rw [arena, List.getElem?_map, hm, h.eq_of_id_eq hmem hn hmid]
  rfl

theorem Numbered.find?_id (h : t.Numbered) (hn : n ∈ t.preorder) : t.find? n.id = some n := by
  have hsome : (t.find? n.id).isSome := List.find?_isSome.2 ⟨n, hn, by simp⟩
  obtain ⟨m, hm⟩ := Option.isSome_iff_exists.1 hsome
  have hmid : m.id = n.id := by simpa using List.find?_some hm
  rw [hm, h.eq_of_id_eq (List.mem_of_find?_eq_some hm) hn hmid]

theorem Numbered.arena_get_iff (h : t.Numbered) {i : Nat} {r : Row} :
    t.arena[i]? = some r ↔ ∃ n ∈ t.preorder, n.id = i ∧ r = n.row := by
  constructor
  · intro hr
    have hi : i < t.size := h.length_arena ▸ (List.getElem?_eq_some_iff.1 hr).1
    obtain ⟨n, hn, rfl⟩ := h.exists_node hi
    rw [h.arena_get hn] at hr
    exact ⟨n, hn, rfl, (Option.some.inj hr).symm⟩
  · rintro ⟨n, hn, rfl, rfl⟩
    exact h.arena_get hn

end Places

section Walks

variable {t n : Tree}

theorem mapM_eq_some {α γ : Type} {g : α → Option γ} {f : α → γ} {l : List α}
    (h : ∀ a ∈ l, g a = some (f a)) : l.mapM g = some (l.map f) := by
  induction l with
  | nil => rfl
  | cons a l ih =>
    rw [List.mapM_cons, h a List.mem_cons_self, ih fun b hb => h b (List.mem_cons_of_mem a hb)]
    rfl

/-- A walk from a node needs no more levels than there are numbers from that of the node on. -/
theorem Numbered.walk_eq (h : t.Numbered) (f : Row → List β → β) {depth : Nat}
    (hn : n ∈ t.preorder) (hdepth : t.size ≤ n.id + depth) :
    t.arena.walk f depth n.id = some (n.fold f) := by
  induction depth generalizing n with
  | zero => exact absurd (h.id_lt hn) (by omega)
  | succ depth ih =>
    have hchildren : (n.children.map id).mapM (t.arena.walk f depth) =
        some (n.children.map (fold f)) := by
      rw [List.mapM_map]
      refine mapM_eq_some fun c hc => ih (mem_preorder_of_child hn hc) ?_
      have := h.rising n hn c hc
      omega
    rw [Arena.walk, h.arena_get hn]
    change (do let below ← n.row.children.mapM (t.arena.walk f depth); pure (f n.row below)) = _
    rw [row, hchildren]
    cases n with
    | node info children =>
      rw [fold_node]
      rfl

/-- A result that was found without leaving the range. -/
def inRange {α : Type} (x : Except LoweringError α) : ExceptT LoweringError Option α :=
  ExceptT.mk (some x)

theorem inRange_bind {α γ : Type} (x : Except LoweringError α) (f : α → Except LoweringError γ) :
    (inRange x >>= fun a => inRange (f a)) = inRange (x >>= f) := by
  cases x <;> rfl

theorem Numbered.row_bind (h : t.Numbered) (hn : n ∈ t.preorder)
    (f : Row → ExceptT LoweringError Option β) : (liftM t.arena[n.id]? >>= f) = f n.row := by
  rw [h.arena_get hn]
  rfl

theorem Numbered.kind_eq (h : t.Numbered) (hn : n ∈ t.preorder) :
    t.arena.kind n.id = inRange n.kind := by
  rw [Arena.kind, h.row_bind hn, Tree.kind]
  change (match NodeKind.ofLabel? n.label with | some kind => _ | none => _) = _
  cases NodeKind.ofLabel? n.label <;> rfl

theorem Numbered.isEmpty_eq (h : t.Numbered) (hn : n ∈ t.preorder) :
    t.arena.isEmpty n.id = inRange n.isEmpty := by
  rw [Arena.isEmpty, h.row_bind hn, Tree.isEmpty]
  rcases hc : n.children with _ | ⟨c, rest⟩
  · simp only [row, hc]
    rfl
  · have hmem : c ∈ t.preorder := mem_preorder_of_child hn (hc ▸ List.mem_cons_self)
    simp only [row, hc, List.map_cons, h.kind_eq hmem]
    exact inRange_bind c.kind fun kind => pure (decide (kind = .epsilon))

def unrolled (kind : NodeKind) (t : Tree) : Except LoweringError (List Nat) :=
  (t.unrollAs kind).map fun l => l.map (·.tree.id)

theorem unrolled_eq (kind : NodeKind) (t : Tree) :
    t.unrolled kind = do
      if ← t.isEmpty then return []
      match t.children.getLast? with
      | none => return [t.id]
      | some last =>
        if (← last.kind) = kind then return t.id :: (← last.unrolled kind) else return [t.id] := by
  rw [unrolled, unrollAs]
  rcases t.isEmpty with e | _ | _
  · rfl
  · simp only [bind, Except.bind, Bool.false_eq_true, if_false]
    split
    · next hlast =>
      simp only [hlast]
      rfl
    · next last hlast =>
      simp only [hlast]
      rcases last.kind with e | k
      · rfl
      · dsimp only
        split
        · rw [unrolled]
          cases last.unrollAs kind with
          | error e => rfl
          | ok more =>
            change Except.ok (t.id :: List.map _ (List.map _ more)) = _
            rw [List.map_map]
            rfl
        · rfl
  · rfl

theorem Numbered.unrollAs_eq (h : t.Numbered) (kind : NodeKind) {steps : Nat}
    (hn : n ∈ t.preorder) (hsteps : t.size ≤ n.id + steps) :
    t.arena.unrollAs kind steps n.id = inRange (n.unrolled kind) := by
  induction steps generalizing n with
  | zero => exact absurd (h.id_lt hn) (by omega)
  | succ steps ih =>
    rw [Arena.unrollAs, h.isEmpty_eq hn, unrolled_eq, ← inRange_bind]
    congr 1
    funext empty
    cases empty
    · simp only [Bool.false_eq_true, if_false]
      rw [h.row_bind hn, row, List.getLast?_map]
      rcases hlast : n.children.getLast? with _ | last
      · rfl
      · have hmem := List.mem_of_getLast? hlast
        have hlt := h.rising n hn last hmem
        have hchild := mem_preorder_of_child hn hmem
        simp only [Option.map_some, h.kind_eq hchild, ih hchild (by omega), ← inRange_bind]
        congr 1
        funext k
        split
        · exact inRange_bind (last.unrolled kind) fun more => pure (n.id :: more)
        · rfl
    · rfl

theorem Numbered.unroll_eq (h : t.Numbered) {steps : Nat} (hn : n ∈ t.preorder)
    (hsteps : t.size ≤ n.id + steps) :
    t.arena.unroll steps n.id = inRange (n.unroll.map fun l => l.map (·.tree.id)) := by
  rw [Arena.unroll, h.kind_eq hn, unroll]
  rcases n.kind with e | kind
  · rfl
  · exact h.unrollAs_eq kind hn hsteps

end Walks

section Rows

variable {t n child : Tree} {parent : Nat}

/-- Every node but the root is some node's child. -/
theorem perm_children (t : Tree) :
    t.ids.Perm (t.id :: t.preorder.flatMap fun n => n.row.children) := by
  induction t using induct with
  | node info children ih =>
    rw [ids_node, preorder_node, List.flatMap_cons]
    refine List.Perm.cons _ ?_
    change (children.flatMap ids).Perm (children.map id ++ _)
    induction children with
    | nil => rfl
    | cons t l ih' =>
      have ht := ih t List.mem_cons_self
      have hl := ih' fun c hc => ih c (List.mem_cons_of_mem t hc)
      rw [List.perm_iff_count] at ht hl ⊢
      intro i
      have hti := ht i
      have hli := hl i
      simp only [List.flatMap_cons, List.map_cons, List.flatMap_append, List.count_append,
        List.cons_append, List.count_cons] at hti hli ⊢
      omega

theorem Numbered.count_children (h : t.Numbered) {i : Nat} (hpos : 0 < i) (hi : i < t.size) :
    (t.arena.flatMap Row.children).count i = 1 := by
  have hperm :
      (t.arena.flatMap Row.children).Perm (t.preorder.flatMap fun n => n.row.children) := by
    rw [arena, List.flatMap_map]
    exact (List.mergeSort_perm _ _).flatMap_right _
  have hone : t.ids.count i = 1 := List.count_eq_one_of_mem h.nodup (h.mem_ids.2 hi)
  rw [t.perm_children.count_eq, List.count_cons_of_ne (by rw [h.root]; omega)] at hone
  rw [hperm.count_eq, hone]

theorem mem_preorder_graft (hn : n ∈ t.preorder) :
    graft parent child n ∈ (graft parent child t).preorder := by
  induction t using induct with
  | node info children ih =>
    rw [preorder_node, List.mem_cons, List.mem_flatMap] at hn
    rcases hn with rfl | ⟨c, hc, hn⟩
    · exact mem_preorder_self _
    · rw [graft_node, preorder_node, List.mem_cons, List.mem_flatMap]
      exact .inr ⟨graft parent child c,
        List.mem_append_left _ (List.mem_map_of_mem hc), ih c hc hn⟩

theorem row_graft (n : Tree) : (graft parent child n).row =
    ⟨n.info, n.row.children ++ if n.id = parent then [child.id] else []⟩ := by
  cases n with
  | node info children =>
    have hids : (children.map (graft parent child)).map id = children.map id := by
      rw [List.map_map]
      exact List.map_congr_left fun c _ => id_graft c
    change Row.mk _ _ = Row.mk info (children.map id ++ if info.id = parent then [child.id] else [])
    rw [graft_node, Tree.children, List.map_append, hids]
    split <;> rfl

theorem mem_preorder_child (hn : n ∈ t.preorder) (hid : n.id = parent) :
    child ∈ (graft parent child t).preorder := by
  refine mem_preorder_of_child (mem_preorder_graft hn) ?_
  cases n with
  | node info children =>
    have hif : (if info.id = parent then [child] else []) = [child] := if_pos hid
    rw [graft_node, hif]
    exact List.mem_append_right _ (List.mem_singleton_self child)

/-- Adding a node to a tree adds it to its row of nodes. -/
theorem Numbered.arena_add (h : t.Numbered) (hp : parent < t.size) (label : Symbol) :
    (t.add parent label).arena = t.arena.addChild parent label := by
  have h' := h.add hp label
  have hlength := h.length_arena
  refine List.ext_getElem? fun i => ?_
  rcases Nat.lt_trichotomy i t.size with hi | rfl | hi
  · obtain ⟨n, hn, rfl⟩ := h.exists_node hi
    have hnew := h'.arena_get (mem_preorder_graft hn)
    rw [id_graft, row_graft] at hnew
    rw [hnew, Arena.addChild, List.getElem?_append_left (by simpa [hlength] using hi),
      List.getElem?_modify, h.arena_get hn, hlength]
    by_cases hid : n.id = parent
    · rw [if_pos hid, Option.map_eq_map, Option.map_some, if_pos hid.symm]
      rfl
    · rw [if_neg hid, Option.map_eq_map, Option.map_some, if_neg (Ne.symm hid), List.append_nil]
      rfl
  · obtain ⟨n, hn, hid⟩ := h.exists_node hp
    have hnew : (t.add parent label).arena[t.size]? = some (leaf t.size label).row :=
      h'.arena_get (mem_preorder_child hn hid)
    rw [hnew, Arena.addChild, List.getElem?_append_right (by simp [hlength])]
    simp [hlength, row, leaf, Tree.info, Tree.children]
  · rw [List.getElem?_eq_none (by rw [h'.length_arena, h.size_add hp]; omega),
      List.getElem?_eq_none (by simp [Arena.addChild, hlength]; omega)]

end Rows

end Tree

/-- The rows form a tree whose root is the first of them. -/
structure Arena.IsTree (a : Arena) : Prop where
  ordered : ∀ i row, a[i]? = some row → ∀ c ∈ row.children, i < c ∧ c < a.length
  once : ∀ i, 0 < i → i < a.length → (a.flatMap Row.children).count i = 1
  visited : ∃ visited, a.walk Row.visit a.length 0 = some visited ∧
    visited.Perm (List.range a.length)

namespace Tree

/-- The walks from number `i` on find the subtree `n` there. -/
structure Found (t : Tree) (i : Nat) (n : Tree) : Prop where
  find? : t.find? i = some n
  rebuilt : t.arena.walk (fun row below => .node row.info below) (t.size - i) i = some n
  firstLine : t.arena.walk Row.firstLine (t.size - i) i =
    some (n.preorder.findSome? fun m => m.info.line) ∧
    n.firstLine = n.preorder.findSome? fun m => m.info.line
  leaves : t.arena.walk Row.leaves (t.size - i) i = some n.leaves
  render : t.arena.walk Row.render (t.size - i) i = some fun depth => n.renderAt depth
  unroll : t.arena.unroll (t.size - i) i = inRange (n.unroll.map fun l => l.map (·.tree.id))

structure Stored (t : Tree) : Prop where
  length : t.arena.length = t.size
  isTree : t.arena.IsTree
  found : ∀ i < t.size, ∃ n, t.Found i n
  grows : ∀ parent < t.size, ∀ label, (t.add parent label).arena = t.arena.addChild parent label
  rebuilt : t.arena.walk (fun row below => .node row.info below) t.size 0 = some t
  lowered : ∀ c : Compiler, ∃ r : Except LoweringError Program,
    (c.lower t).result = r.mapError .lowering

/-- The trees there are: a start symbol below a root, what is derived from tokens, and what comes
of these by adding nodes below nodes that exist. -/
inductive Made : Tree → Prop
  | new (start : Symbol) : Made (.rooted (.leaf 1 start))
  | parsed {table : Table} {start : Symbol} {stream : TokenStream} {t : Tree} :
      (Derivation.parse table start stream).result = .ok t → Made t
  | add {t : Tree} {parent : Nat} (label : Symbol) :
      Made t → parent < t.size → Made (t.add parent label)

variable {t n : Tree}

theorem Made.numbered (h : t.Made) : t.Numbered := by
  induction h with
  | new start => exact (fills_leaf _ 2).numbered
  | parsed h => exact Derivation.numbered_of_parse h
  | add label _ hp ih => exact ih.add hp label

theorem Numbered.isTree (h : t.Numbered) : t.arena.IsTree where
  ordered i row hrow c hc := by
    obtain ⟨n, hn, rfl, rfl⟩ := h.arena_get_iff.1 hrow
    obtain ⟨m, hm, rfl⟩ := List.mem_map.1 hc
    rw [h.length_arena]
    exact ⟨h.rising n hn m hm, h.id_lt (mem_preorder_of_child hn hm)⟩
  once i hpos hi := h.count_children hpos (h.length_arena ▸ hi)
  visited := by
    have hwalk := h.walk_eq Row.visit (mem_preorder_self t) (Nat.le_add_left t.size t.id)
    rw [h.root, fold_visit] at hwalk
    rw [h.length_arena]
    exact ⟨t.ids, hwalk, h.ids⟩

theorem Numbered.found (h : t.Numbered) (hn : n ∈ t.preorder) : t.Found n.id n := by
  have hdepth : t.size ≤ n.id + (t.size - n.id) := by omega
  exact {
    find? := h.find?_id hn
    rebuilt := by rw [h.walk_eq _ hn hdepth, fold_node_self]
    firstLine := by
      rw [h.walk_eq _ hn hdepth, fold_firstLine, ← firstLine_eq_findSome?]
      exact ⟨rfl, rfl⟩
    leaves := by rw [h.walk_eq _ hn hdepth, fold_leaves]
    render := by rw [h.walk_eq _ hn hdepth, fold_render]
    unroll := h.unroll_eq hn hdepth }

/-- Kept in a row, the nodes of every tree that is made form a tree: each but the root is once the
child of a node before it, and no walk leaves the row or fails to end. -/
theorem stored_of_made (h : t.Made) : t.Stored where
  length := h.numbered.length_arena
  isTree := h.numbered.isTree
  found i hi := by
    obtain ⟨n, hn, rfl⟩ := h.numbered.exists_node hi
    exact ⟨n, h.numbered.found hn⟩
  grows parent hp label := h.numbered.arena_add hp label
  rebuilt := by
    have hwalk := (h.numbered.found (mem_preorder_self t)).rebuilt
    rwa [h.numbered.root, Nat.sub_zero] at hwalk
  lowered c := ⟨_, Language.lower_result c t⟩

/-- Nodes may be added in any order. -/
theorem stored_of_made_branching :
    Made ((((rooted (leaf 1 "S")).add 1 "a").add 0 "b").add 2 "c") ∧
      Stored ((((rooted (leaf 1 "S")).add 1 "a").add 0 "b").add 2 "c") := by
  have hmade : Made ((((rooted (leaf 1 "S")).add 1 "a").add 0 "b").add 2 "c") :=
    .add "c" (.add "b" (.add "a" (.new "S") (by decide)) (by decide)) (by decide)
  exact ⟨hmade, stored_of_made hmade⟩

end Tree

end Lookahead
