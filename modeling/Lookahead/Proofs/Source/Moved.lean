import Lookahead.Proofs.Grammar.Tree
import Lookahead.Proofs.Source.Syntax
import Mathlib.Data.List.Forall2

namespace Lookahead

/-- The trees have the same shape and literals. Where one has something that begins at a line, the
other has it at the line that `f` gives; leaves may be on any line. -/
inductive Tree.Moved (f : Nat → Nat) : Tree → Tree → Prop
  | node {info info' : Node} {children children' : List Tree} (label : info'.label = info.label)
      (literal : info'.literal = info.literal)
      (line : children ≠ [] →
        (Tree.node info' children').firstLine = (Tree.node info children).firstLine.map f)
      (below : List.Forall₂ (Moved f) children children') :
      Moved f (.node info children) (.node info' children')

namespace Tree.Moved

variable {f : Nat → Nat} {t t' : Tree}

theorem label_eq (h : Moved f t t') : t'.label = t.label := by
  cases h with
  | node label _ _ _ => exact label

theorem literal_eq (h : Moved f t t') : t'.info.literal = t.info.literal := by
  cases h with
  | node _ literal _ _ => exact literal

theorem firstLine_eq (h : Moved f t t') (hc : t.children ≠ []) :
    t'.firstLine = t.firstLine.map f := by
  cases h with
  | node _ _ line _ => exact line hc

end Tree.Moved

namespace Source

mutual

def Stmt.mapLines (f : Nat → Nat) : Stmt → Stmt
  | .simple s => .simple s
  | .cond arms => .cond (arms.mapLines f)
  | .whileLoop test body => .whileLoop test (body.mapLines f)
  | .forLoop init test step body => .forLoop init test step (body.mapLines f)
  | .doUntil body line test => .doUntil (body.mapLines f) (line.map f) test

def Block.mapLines (f : Nat → Nat) : Block → Block
  | .nil => .nil
  | .cons line s rest => .cons (line.map f) (s.mapLines f) (rest.mapLines f)

def Arms.mapLines (f : Nat → Nat) : Arms → Arms
  | .done => .done
  | .otherwise body => .otherwise (body.mapLines f)
  | .arm line test body rest => .arm (line.map f) test (body.mapLines f) (rest.mapLines f)

end

def Function.mapLines (f : Nat → Nat) (g : Function) : Function :=
  { g with line := g.line.map f, body := g.body.mapLines f }

mutual

theorem Stmt.mapLines_id : ∀ s : Stmt, s.mapLines id = s
  | .simple s => rfl
  | .cond arms => by rw [Stmt.mapLines, arms.mapLines_id]
  | .whileLoop test body => by rw [Stmt.mapLines, body.mapLines_id]
  | .forLoop init test step body => by rw [Stmt.mapLines, body.mapLines_id]
  | .doUntil body line test => by rw [Stmt.mapLines, body.mapLines_id, Option.map_id_apply]

theorem Block.mapLines_id : ∀ b : Block, b.mapLines id = b
  | .nil => rfl
  | .cons line s rest => by
    rw [Block.mapLines, s.mapLines_id, rest.mapLines_id, Option.map_id_apply]

theorem Arms.mapLines_id : ∀ a : Arms, a.mapLines id = a
  | .done => rfl
  | .otherwise body => by rw [Arms.mapLines, body.mapLines_id]
  | .arm line test body rest => by
    rw [Arms.mapLines, body.mapLines_id, rest.mapLines_id, Option.map_id_apply]

end

theorem Function.mapLines_id (g : Function) : g.mapLines id = g := by
  rw [Function.mapLines, g.body.mapLines_id, Option.map_id_apply]

open Lookahead.Tree (Moved)

section Expressions

variable {f : Nat → Nat} {t t' : Tree}

theorem kind?_moved (h : Moved f t t') : kind? t' = kind? t := by rw [kind?, kind?, h.label_eq]

theorem name?_moved (h : Moved f t t') : name? t' = name? t := by rw [name?, name?, h.literal_eq]

theorem op?_moved (h : Moved f t t') : op? t' = op? t := by
  obtain ⟨-, -, -, _ | ⟨hleaf, _ | ⟨_, _⟩⟩⟩ := h
  · rfl
  · rw [op?, op?, hleaf.label_eq]
  · rfl

theorem arithOp?_moved (h : Moved f t t') : arithOp? t' = arithOp? t := by
  rw [arithOp?, arithOp?, op?_moved h]

theorem chainOp?_moved (h : Moved f t t') : chainOp? t' = chainOp? t := by
  rw [chainOp?, chainOp?, op?_moved h]

/-- From both nodes the same is read, as whatever part of an expression it is read. -/
structure SameExpr (t t' : Tree) : Prop where
  expr : readExpr t' = readExpr t
  links : readLinks t' = readLinks t
  arith : readArith t' = readArith t
  sum : ∀ lhs, readSum lhs t' = readSum lhs t
  term : readTerm t' = readTerm t
  product : ∀ lhs, readProduct lhs t' = readProduct lhs t
  factor : readFactor t' = readFactor t
  reference : ∀ x, readReference x t' = readReference x t
  args : readArgs t' = readArgs t
  moreArgs : readMoreArgs t' = readMoreArgs t

section Node

variable {info info' : Node} {children children' : List Tree}
  (h : List.Forall₂ (fun c c' => SameExpr c c' ∧ Moved f c c') children children')

include h

theorem readExpr_moved : readExpr (.node info' children') = readExpr (.node info children) := by
  unfold readExpr
  rcases h with _ | ⟨harith, _ | ⟨htail, _ | ⟨_, _⟩⟩⟩
  · rfl
  · rfl
  · simp only [harith.1.arith, htail.1.links]
  · rfl

theorem readLinks_moved : readLinks (.node info' children') = readLinks (.node info children) := by
  unfold readLinks
  rcases h with _ | ⟨hop, _ | ⟨harith, _ | ⟨htail, _ | ⟨_, _⟩⟩⟩⟩
  · rfl
  · rfl
  · rfl
  · simp only [chainOp?_moved hop.2, harith.1.arith, htail.1.links]
  · rfl

theorem readArith_moved : readArith (.node info' children') = readArith (.node info children) := by
  unfold readArith
  rcases h with _ | ⟨hterm, _ | ⟨htail, _ | ⟨_, _⟩⟩⟩
  · rfl
  · rfl
  · simp only [hterm.1.term, htail.1.sum]
  · rfl

theorem readSum_moved (lhs : Expr) :
    readSum lhs (.node info' children') = readSum lhs (.node info children) := by
  unfold readSum
  rcases h with _ | ⟨hop, _ | ⟨hterm, _ | ⟨htail, _ | ⟨_, _⟩⟩⟩⟩
  · rfl
  · rfl
  · rfl
  · simp only [arithOp?_moved hop.2, hterm.1.term, htail.1.sum]
  · rfl

theorem readTerm_moved : readTerm (.node info' children') = readTerm (.node info children) := by
  unfold readTerm
  rcases h with _ | ⟨hfactor, _ | ⟨htail, _ | ⟨_, _⟩⟩⟩
  · rfl
  · rfl
  · simp only [hfactor.1.factor, htail.1.product]
  · rfl

theorem readProduct_moved (lhs : Expr) :
    readProduct lhs (.node info' children') = readProduct lhs (.node info children) := by
  unfold readProduct
  rcases h with _ | ⟨hop, _ | ⟨hfactor, _ | ⟨htail, _ | ⟨_, _⟩⟩⟩⟩
  · rfl
  · rfl
  · rfl
  · simp only [arithOp?_moved hop.2, hfactor.1.factor, htail.1.product]
  · rfl

theorem readFactor_moved :
    readFactor (.node info' children') = readFactor (.node info children) := by
  unfold readFactor
  rcases h with _ | ⟨hfirst, _ | ⟨hsecond, _ | ⟨_, _ | ⟨_, _⟩⟩⟩⟩
  · rfl
  · simp only [kind?_moved hfirst.2, hfirst.2.literal_eq]
  · simp only [kind?_moved hfirst.2, name?_moved hfirst.2, hsecond.1.factor, hsecond.1.reference]
  · exact hsecond.1.expr
  · rfl

theorem readReference_moved (x : Name) :
    readReference x (.node info' children') = readReference x (.node info children) := by
  unfold readReference
  rcases h with _ | ⟨_, _ | ⟨hargs, _ | ⟨_, _ | ⟨_, _⟩⟩⟩⟩
  · rfl
  · rfl
  · rfl
  · simp only [hargs.1.args]
  · rfl

theorem readArgs_moved : readArgs (.node info' children') = readArgs (.node info children) := by
  unfold readArgs
  rcases h with _ | ⟨hexpr, _ | ⟨htail, _ | ⟨_, _⟩⟩⟩
  · rfl
  · rfl
  · simp only [hexpr.1.expr, htail.1.moreArgs]
  · rfl

theorem readMoreArgs_moved :
    readMoreArgs (.node info' children') = readMoreArgs (.node info children) := by
  unfold readMoreArgs
  rcases h with _ | ⟨_, _ | ⟨hexpr, _ | ⟨htail, _ | ⟨_, _⟩⟩⟩⟩
  · rfl
  · rfl
  · rfl
  · simp only [hexpr.1.expr, htail.1.moreArgs]
  · rfl

end Node

theorem sameExpr (h : Moved f t t') : SameExpr t t' := by
  induction t using Tree.induct generalizing t' with
  | node info children ih =>
    obtain ⟨-, -, -, hbelow⟩ := h
    have hbelow := ((List.forall₂_and_left _ _).2 ⟨ih, hbelow⟩).imp fun c c' hc =>
      And.intro (hc.1 hc.2) hc.2
    exact {
      expr := readExpr_moved hbelow
      links := readLinks_moved hbelow
      arith := readArith_moved hbelow
      sum := readSum_moved hbelow
      term := readTerm_moved hbelow
      product := readProduct_moved hbelow
      factor := readFactor_moved hbelow
      reference := readReference_moved hbelow
      args := readArgs_moved hbelow
      moreArgs := readMoreArgs_moved hbelow }

end Expressions

section Statements

variable {f : Nat → Nat} {t t' : Tree}

theorem readInit_moved (h : Moved f t t') : readInit t' = readInit t := by
  obtain ⟨-, -, -, _ | ⟨_, _ | ⟨hexpr, _ | ⟨_, _⟩⟩⟩⟩ := h
  · rfl
  · rfl
  · rw [readInit, readInit, (sameExpr hexpr).expr]
  · rfl

theorem readDecl_moved (h : Moved f t t') : readDecl t' = readDecl t := by
  obtain ⟨-, -, -, _ | ⟨_, _ | ⟨hident, _ | ⟨hinit, _ | ⟨_, _⟩⟩⟩⟩⟩ := h
  · rfl
  · rfl
  · rfl
  · rw [readDecl, readDecl, name?_moved hident, readInit_moved hinit]
  · rfl

theorem readUpdate_moved (target : Name) (h : Moved f t t') :
    readUpdate target t' = readUpdate target t := by
  obtain ⟨-, -, -, _ | ⟨hleaf, _ | ⟨hexpr, _ | ⟨_, _⟩⟩⟩⟩ := h
  · rfl
  · rw [readUpdate, readUpdate, kind?_moved hleaf]
  · rw [readUpdate, readUpdate, (sameExpr hexpr).expr]
  · rfl

theorem readStep_moved (h : Moved f t t') : readStep t' = readStep t := by
  obtain ⟨-, -, -, _ | ⟨hident, _ | ⟨hassign, _ | ⟨_, _⟩⟩⟩⟩ := h
  · rfl
  · rfl
  · rw [readStep, readStep, name?_moved hident]
    simp only [readUpdate_moved _ hassign]
  · rfl

theorem readReturn_moved (h : Moved f t t') : readReturn t' = readReturn t := by
  obtain ⟨-, -, -, _ | ⟨_, _ | ⟨⟨-, -, -, _ | ⟨hvalue, _ | ⟨_, _⟩⟩⟩, _ | ⟨_, _⟩⟩⟩⟩ := h
  · rfl
  · rfl
  · rfl
  · rfl
  · rw [readReturn, readReturn, kind?_moved hvalue, (sameExpr hvalue).expr]
  · rfl
  · rfl
  · rfl

theorem readSuffix_moved (x : Name) (h : Moved f t t') : readSuffix x t' = readSuffix x t := by
  obtain ⟨-, -, -, _ | ⟨hassign, _ | ⟨hargs, _ | ⟨_, _ | ⟨_, _⟩⟩⟩⟩⟩ := h
  · rfl
  · rw [readSuffix, readSuffix, readUpdate_moved x hassign]
  · rfl
  · rw [readSuffix, readSuffix, (sameExpr hargs).args]
  · rfl

theorem readSimple_moved (h : Moved f t t') : readSimple t' = readSimple t := by
  obtain ⟨-, -, -, _ | ⟨hfirst, _ | ⟨hsuffix, _ | ⟨_, _⟩⟩⟩⟩ := h
  · rfl
  · rw [readSimple, readSimple, kind?_moved hfirst, readDecl_moved hfirst, readReturn_moved hfirst]
  · rw [readSimple, readSimple, name?_moved hfirst]
    simp only [readSuffix_moved _ hsuffix]
  · rfl

open Option (bind_eq_some_iff map_eq_some_iff)

/-- What is read from a node with children begins at the moved line. -/
theorem firstLine_moved {α : Type} {read : Tree → Option α} {a : α}
    (hleaf : ∀ info, read (.node info []) = none) (h : Moved f t t') (ha : read t = some a) :
    t'.firstLine = t.firstLine.map f := by
  apply h.firstLine_eq
  intro hnil
  obtain ⟨info, children⟩ := t
  obtain rfl : children = [] := hnil
  rw [hleaf] at ha
  cases ha

/-- Whatever is read from the first node is read from the second, with its lines moved. -/
structure MovedStmt (f : Nat → Nat) (t t' : Tree) : Prop where
  block : ∀ b, readBlock t = some b → readBlock t' = some (b.mapLines f)
  body : ∀ b, readBody t = some b → readBody t' = some (b.mapLines f)
  stmts : ∀ b, readStmts t = some b → readStmts t' = some (b.mapLines f)
  stmt : ∀ s, readStmt t = some s → readStmt t' = some (s.mapLines f)
  cond : ∀ s, readIf t = some s → readIf t' = some (s.mapLines f)
  elifs : ∀ last a, readElifs last t = some a →
    readElifs (last.mapLines f) t' = some (a.mapLines f)
  otherwise : ∀ a, readElse t = some a → readElse t' = some (a.mapLines f)
  whileLoop : ∀ s, readWhile t = some s → readWhile t' = some (s.mapLines f)
  forLoop : ∀ s, readFor t = some s → readFor t' = some (s.mapLines f)
  doUntil : ∀ s, readDo t = some s → readDo t' = some (s.mapLines f)

section Node

variable {info info' : Node} {children children' : List Tree}
  (ih : List.Forall₂ (fun c c' => MovedStmt f c c' ∧ Moved f c c') children children')

include ih

theorem readBlock_moved {b : Block} (h : readBlock (.node info children) = some b) :
    readBlock (.node info' children') = some (b.mapLines f) := by
  unfold readBlock at h
  split at h
  · next heq =>
    cases heq
    obtain _ | ⟨-, _ | ⟨hbody, _ | _⟩⟩ := ih
    exact hbody.1.body b h
  · cases h

theorem readBody_moved {b : Block} (h : readBody (.node info children) = some b) :
    readBody (.node info' children') = some (b.mapLines f) := by
  unfold readBody at h
  split at h
  · next heq =>
    cases heq
    obtain ⟨s, hs, h⟩ := bind_eq_some_iff.1 h
    cases h
    obtain _ | ⟨hsimple, _ | ⟨-, _ | _⟩⟩ := ih
    rw [readBody, readSimple_moved hsimple.2, hs, firstLine_moved (fun _ => rfl) hsimple.2 hs]
    rfl
  · next heq =>
    cases heq
    obtain _ | ⟨-, _ | ⟨-, _ | ⟨hlist, _ | ⟨-, _ | _⟩⟩⟩⟩ := ih
    exact hlist.1.stmts b h
  · cases h

theorem readStmts_moved {b : Block} (h : readStmts (.node info children) = some b) :
    readStmts (.node info' children') = some (b.mapLines f) := by
  unfold readStmts at h
  split at h
  · next heq =>
    cases heq
    cases h
    obtain _ | ⟨-, _ | _⟩ := ih
    rfl
  · next heq =>
    cases heq
    obtain ⟨s, hs, h⟩ := bind_eq_some_iff.1 h
    obtain ⟨rest, hrest, h⟩ := bind_eq_some_iff.1 h
    cases h
    obtain _ | ⟨hstmt, _ | ⟨htail, _ | _⟩⟩ := ih
    rw [readStmts, hstmt.1.stmt s hs, htail.1.stmts rest hrest,
      firstLine_moved (fun _ => rfl) hstmt.2 hs]
    rfl
  · cases h

theorem readStmt_moved {s : Stmt} (h : readStmt (.node info children) = some s) :
    readStmt (.node info' children') = some (s.mapLines f) := by
  unfold readStmt at h
  split at h
  · next heq =>
    cases heq
    obtain ⟨s, hs, rfl⟩ := map_eq_some_iff.1 h
    obtain _ | ⟨hsimple, _ | ⟨-, _ | _⟩⟩ := ih
    rw [readStmt, readSimple_moved hsimple.2, hs]
    rfl
  · next heq =>
    cases heq
    obtain _ | ⟨hinner, _ | _⟩ := ih
    rw [readStmt, kind?_moved hinner.2]
    split at h
    · exact hinner.1.cond s h
    · exact hinner.1.whileLoop s h
    · exact hinner.1.forLoop s h
    · exact hinner.1.doUntil s h
    · cases h
  · cases h

theorem readIf_moved {s : Stmt} (h : readIf (.node info children) = some s) :
    readIf (.node info' children') = some (s.mapLines f) := by
  unfold readIf at h
  split at h
  · next heq =>
    cases heq
    obtain ⟨e, he, h⟩ := bind_eq_some_iff.1 h
    obtain ⟨body, hbody, h⟩ := bind_eq_some_iff.1 h
    obtain ⟨last, hlast, h⟩ := bind_eq_some_iff.1 h
    obtain ⟨rest, hrest, h⟩ := bind_eq_some_iff.1 h
    cases h
    obtain _ | ⟨-, _ | ⟨-, _ | ⟨htest, _ | ⟨-, _ | ⟨hblock, _ | ⟨helifs, _ | ⟨helse, _ | _⟩⟩⟩⟩⟩⟩⟩
      := ih
    rw [readIf, (sameExpr htest.2).expr, he, hblock.1.block body hbody,
      helse.1.otherwise last hlast, firstLine_moved (fun _ => rfl) htest.2 he]
    change (readElifs (last.mapLines f) _ >>= _) = _
    rw [helifs.1.elifs last rest hrest]
    rfl
  · cases h

theorem readElifs_moved {last a : Arms} (h : readElifs last (.node info children) = some a) :
    readElifs (last.mapLines f) (.node info' children') = some (a.mapLines f) := by
  unfold readElifs at h
  split at h
  · next heq =>
    cases heq
    cases h
    obtain _ | ⟨-, _ | _⟩ := ih
    rfl
  · next heq =>
    cases heq
    obtain ⟨e, he, h⟩ := bind_eq_some_iff.1 h
    obtain ⟨body, hbody, h⟩ := bind_eq_some_iff.1 h
    obtain ⟨rest, hrest, h⟩ := bind_eq_some_iff.1 h
    cases h
    obtain _ | ⟨-, _ | ⟨-, _ | ⟨htest, _ | ⟨-, _ | ⟨hblock, _ | ⟨helifs, _ | _⟩⟩⟩⟩⟩⟩ := ih
    rw [readElifs, (sameExpr htest.2).expr, he, hblock.1.block body hbody,
      helifs.1.elifs last rest hrest, firstLine_moved (fun _ => rfl) htest.2 he]
    rfl
  · cases h

theorem readElse_moved {a : Arms} (h : readElse (.node info children) = some a) :
    readElse (.node info' children') = some (a.mapLines f) := by
  unfold readElse at h
  split at h
  · next heq =>
    cases heq
    cases h
    obtain _ | ⟨-, _ | _⟩ := ih
    rfl
  · next heq =>
    cases heq
    obtain ⟨body, hbody, rfl⟩ := map_eq_some_iff.1 h
    obtain _ | ⟨-, _ | ⟨hblock, _ | _⟩⟩ := ih
    rw [readElse, hblock.1.block body hbody]
    rfl
  · cases h

theorem readWhile_moved {s : Stmt} (h : readWhile (.node info children) = some s) :
    readWhile (.node info' children') = some (s.mapLines f) := by
  unfold readWhile at h
  split at h
  · next heq =>
    cases heq
    obtain ⟨e, he, h⟩ := bind_eq_some_iff.1 h
    obtain ⟨body, hbody, h⟩ := bind_eq_some_iff.1 h
    cases h
    obtain _ | ⟨-, _ | ⟨-, _ | ⟨htest, _ | ⟨-, _ | ⟨hblock, _ | _⟩⟩⟩⟩⟩ := ih
    rw [readWhile, (sameExpr htest.2).expr, he, hblock.1.block body hbody]
    rfl
  · cases h

theorem readFor_moved {s : Stmt} (h : readFor (.node info children) = some s) :
    readFor (.node info' children') = some (s.mapLines f) := by
  unfold readFor at h
  split at h
  · next heq =>
    cases heq
    obtain ⟨d, hd, h⟩ := bind_eq_some_iff.1 h
    obtain ⟨e, he, h⟩ := bind_eq_some_iff.1 h
    obtain ⟨u, hu, h⟩ := bind_eq_some_iff.1 h
    obtain ⟨body, hbody, h⟩ := bind_eq_some_iff.1 h
    cases h
    obtain _ | ⟨-, _ | ⟨-, _ | ⟨hdecl, _ | ⟨-, _ | ⟨htest, _ | ⟨-, _ | ⟨hstep, _ | ⟨-,
      _ | ⟨hblock, _ | _⟩⟩⟩⟩⟩⟩⟩⟩⟩ := ih
    rw [readFor, readDecl_moved hdecl.2, hd, (sameExpr htest.2).expr, he, readStep_moved hstep.2,
      hu, hblock.1.block body hbody]
    rfl
  · cases h

theorem readDo_moved {s : Stmt} (h : readDo (.node info children) = some s) :
    readDo (.node info' children') = some (s.mapLines f) := by
  unfold readDo at h
  split at h
  · next heq =>
    cases heq
    obtain ⟨body, hbody, h⟩ := bind_eq_some_iff.1 h
    obtain ⟨e, he, h⟩ := bind_eq_some_iff.1 h
    cases h
    obtain _ | ⟨-, _ | ⟨hblock, _ | ⟨-, _ | ⟨-, _ | ⟨htest, _ | ⟨-, _ | ⟨-, _ | _⟩⟩⟩⟩⟩⟩⟩ := ih
    rw [readDo, hblock.1.block body hbody, (sameExpr htest.2).expr, he,
      firstLine_moved (fun _ => rfl) htest.2 he]
    rfl
  · cases h

end Node

theorem movedStmt (h : Moved f t t') : MovedStmt f t t' := by
  induction t using Tree.induct generalizing t' with
  | node info children ih =>
    obtain ⟨-, -, -, hbelow⟩ := h
    have hbelow := ((List.forall₂_and_left _ _).2 ⟨ih, hbelow⟩).imp fun c c' hc =>
      And.intro (hc.1 hc.2) hc.2
    exact {
      block := fun _ => readBlock_moved hbelow
      body := fun _ => readBody_moved hbelow
      stmts := fun _ => readStmts_moved hbelow
      stmt := fun _ => readStmt_moved hbelow
      cond := fun _ => readIf_moved hbelow
      elifs := fun _ _ => readElifs_moved hbelow
      otherwise := fun _ => readElse_moved hbelow
      whileLoop := fun _ => readWhile_moved hbelow
      forLoop := fun _ => readFor_moved hbelow
      doUntil := fun _ => readDo_moved hbelow }

theorem readParam_moved (h : Moved f t t') : readParam t' = readParam t := by
  obtain ⟨-, -, -, _ | ⟨_, _ | ⟨hident, _ | ⟨_, _⟩⟩⟩⟩ := h
  · rfl
  · rfl
  · exact name?_moved hident
  · rfl

theorem readMoreParams_moved (h : Moved f t t') : readMoreParams t' = readMoreParams t := by
  induction t using Tree.induct generalizing t' with
  | node info children ih =>
    obtain ⟨-, -, -, hbelow⟩ := h
    have hbelow := (List.forall₂_and_left _ _).2 ⟨ih, hbelow⟩
    rcases hbelow with _ | ⟨_, _ | ⟨hparam, _ | ⟨htail, _ | ⟨_, _⟩⟩⟩⟩
    · rfl
    · rfl
    · rfl
    · rw [readMoreParams, readMoreParams, readParam_moved hparam.2, htail.1 htail.2]
    · rfl

theorem readParams_moved (h : Moved f t t') : readParams t' = readParams t := by
  obtain ⟨-, -, -, _ | ⟨hparam, _ | ⟨htail, _ | ⟨_, _⟩⟩⟩⟩ := h
  · rfl
  · rfl
  · rw [readParams, readParams, readParam_moved hparam, readMoreParams_moved htail]
  · rfl

theorem readFunction_moved {g : Function} (h : Moved f t t') (hread : readFunction t = some g) :
    readFunction t' = some (g.mapLines f) := by
  have hline := firstLine_moved (fun _ => rfl) h hread
  obtain ⟨-, -, -, hbelow⟩ := h
  unfold readFunction at hread
  split at hread
  · next heq =>
    cases heq
    obtain ⟨x, hx, hread⟩ := bind_eq_some_iff.1 hread
    obtain ⟨params, hparams, hread⟩ := bind_eq_some_iff.1 hread
    obtain ⟨body, hbody, hread⟩ := bind_eq_some_iff.1 hread
    cases hread
    obtain _ | ⟨-, _ | ⟨hident, _ | ⟨-, _ | ⟨hlist, _ | ⟨-, _ | ⟨hblock, _ | _⟩⟩⟩⟩⟩⟩ := hbelow
    rw [readFunction, name?_moved hident, hx, readParams_moved hlist, hparams,
      (movedStmt hblock).block body hbody, hline]
    rfl
  · cases hread

theorem readFunctions_moved {fs : List Function} (h : Moved f t t')
    (hread : readFunctions t = some fs) :
    readFunctions t' = some (fs.map (Function.mapLines f)) := by
  induction t using Tree.induct generalizing t' fs with
  | node info children ih =>
    obtain ⟨-, -, -, hbelow⟩ := h
    unfold readFunctions at hread
    split at hread
    · next heq =>
      cases heq
      cases hread
      obtain _ | ⟨-, _ | _⟩ := hbelow
      rfl
    · next heq =>
      cases heq
      obtain ⟨g, hg, hread⟩ := bind_eq_some_iff.1 hread
      obtain ⟨rest, hrest, hread⟩ := bind_eq_some_iff.1 hread
      cases hread
      obtain _ | ⟨hdefinition, _ | ⟨htail, _ | _⟩⟩ := hbelow
      rw [readFunctions, readFunction_moved hdefinition hg, ih _ (by simp) htail hrest]
      rfl
    · cases hread

end Statements

end Source

end Lookahead
