import Lookahead.Proofs.Grammar.Tree
import Lookahead.Proofs.Source.Syntax

namespace Lookahead

namespace Source

mutual

/-- Every conditional inside starts with a condition. -/
def Stmt.Headed : Stmt → Prop
  | .simple _ => True
  | .cond arms => (∃ line test body rest, arms = .arm line test body rest) ∧ arms.Headed
  | .whileLoop _ body => body.Headed
  | .forLoop _ _ _ body => body.Headed
  | .doUntil body _ _ => body.Headed

def Block.Headed : Block → Prop
  | .nil => True
  | .cons _ s rest => s.Headed ∧ rest.Headed

def Arms.Headed : Arms → Prop
  | .done => True
  | .otherwise body => body.Headed
  | .arm _ _ body rest => body.Headed ∧ rest.Headed

end

/-- What is read from a node, as whatever it is read, is headed. -/
structure ReadsHeaded (t : Tree) : Prop where
  block : ∀ b, readBlock t = some b → b.Headed
  body : ∀ b, readBody t = some b → b.Headed
  stmts : ∀ b, readStmts t = some b → b.Headed
  stmt : ∀ s, readStmt t = some s → s.Headed
  cond : ∀ s, readIf t = some s → s.Headed
  elifs : ∀ last a, last.Headed → readElifs last t = some a → a.Headed
  otherwise : ∀ a, readElse t = some a → a.Headed
  whileLoop : ∀ s, readWhile t = some s → s.Headed
  forLoop : ∀ s, readFor t = some s → s.Headed
  doUntil : ∀ s, readDo t = some s → s.Headed

section Reading

open Option (bind_eq_some_iff map_eq_some_iff)

variable {info : Node} {children : List Tree} (ih : ∀ c ∈ children, ReadsHeaded c)

include ih

theorem headed_readBlock {b : Block} (h : readBlock (.node info children) = some b) :
    b.Headed := by
  unfold readBlock at h
  split at h
  · next heq =>
    cases heq
    exact (ih _ (by simp)).body b h
  · cases h

theorem headed_readBody {b : Block} (h : readBody (.node info children) = some b) : b.Headed := by
  unfold readBody at h
  split at h
  · obtain ⟨s, -, h⟩ := bind_eq_some_iff.1 h
    cases h
    exact ⟨trivial, trivial⟩
  · next heq =>
    cases heq
    exact (ih _ (by simp)).stmts b h
  · cases h

theorem headed_readStmts {b : Block} (h : readStmts (.node info children) = some b) :
    b.Headed := by
  unfold readStmts at h
  split at h
  · cases h
    trivial
  · next heq =>
    cases heq
    obtain ⟨s, hs, h⟩ := bind_eq_some_iff.1 h
    obtain ⟨rest, hrest, h⟩ := bind_eq_some_iff.1 h
    cases h
    exact ⟨(ih _ (by simp)).stmt s hs, (ih _ (by simp)).stmts rest hrest⟩
  · cases h

theorem headed_readStmt {s : Stmt} (h : readStmt (.node info children) = some s) : s.Headed := by
  unfold readStmt at h
  split at h
  · obtain ⟨s, -, rfl⟩ := map_eq_some_iff.1 h
    trivial
  · next heq =>
    cases heq
    have hinner := ih _ List.mem_cons_self
    split at h
    · exact hinner.cond s h
    · exact hinner.whileLoop s h
    · exact hinner.forLoop s h
    · exact hinner.doUntil s h
    · cases h
  · cases h

theorem headed_readIf {s : Stmt} (h : readIf (.node info children) = some s) : s.Headed := by
  unfold readIf at h
  split at h
  · next heq =>
    cases heq
    obtain ⟨e, -, h⟩ := bind_eq_some_iff.1 h
    obtain ⟨body, hbody, h⟩ := bind_eq_some_iff.1 h
    obtain ⟨last, hlast, h⟩ := bind_eq_some_iff.1 h
    obtain ⟨rest, hrest, h⟩ := bind_eq_some_iff.1 h
    cases h
    -- The first arm is part of the conditional itself; only the further ones may be missing.
    have hlast := (ih _ (by simp)).otherwise last hlast
    exact ⟨⟨_, e, body, rest, rfl⟩, (ih _ (by simp)).block body hbody,
      (ih _ (by simp)).elifs last rest hlast hrest⟩
  · cases h

theorem headed_readElifs {last a : Arms} (hlast : last.Headed)
    (h : readElifs last (.node info children) = some a) : a.Headed := by
  unfold readElifs at h
  split at h
  · cases h
    exact hlast
  · next heq =>
    cases heq
    obtain ⟨e, -, h⟩ := bind_eq_some_iff.1 h
    obtain ⟨body, hbody, h⟩ := bind_eq_some_iff.1 h
    obtain ⟨rest, hrest, h⟩ := bind_eq_some_iff.1 h
    cases h
    exact ⟨(ih _ (by simp)).block body hbody, (ih _ (by simp)).elifs last rest hlast hrest⟩
  · cases h

theorem headed_readElse {a : Arms} (h : readElse (.node info children) = some a) : a.Headed := by
  unfold readElse at h
  split at h
  · cases h
    trivial
  · next heq =>
    cases heq
    obtain ⟨body, hbody, rfl⟩ := map_eq_some_iff.1 h
    exact (ih _ (by simp)).block body hbody
  · cases h

theorem headed_readWhile {s : Stmt} (h : readWhile (.node info children) = some s) :
    s.Headed := by
  unfold readWhile at h
  split at h
  · next heq =>
    cases heq
    obtain ⟨e, -, h⟩ := bind_eq_some_iff.1 h
    obtain ⟨body, hbody, h⟩ := bind_eq_some_iff.1 h
    cases h
    exact (ih _ (by simp)).block body hbody
  · cases h

theorem headed_readFor {s : Stmt} (h : readFor (.node info children) = some s) : s.Headed := by
  unfold readFor at h
  split at h
  · next heq =>
    cases heq
    obtain ⟨d, -, h⟩ := bind_eq_some_iff.1 h
    obtain ⟨e, -, h⟩ := bind_eq_some_iff.1 h
    obtain ⟨u, -, h⟩ := bind_eq_some_iff.1 h
    obtain ⟨body, hbody, h⟩ := bind_eq_some_iff.1 h
    cases h
    exact (ih _ (by simp)).block body hbody
  · cases h

theorem headed_readDo {s : Stmt} (h : readDo (.node info children) = some s) : s.Headed := by
  unfold readDo at h
  split at h
  · next heq =>
    cases heq
    obtain ⟨body, hbody, h⟩ := bind_eq_some_iff.1 h
    obtain ⟨e, -, h⟩ := bind_eq_some_iff.1 h
    cases h
    exact (ih _ (by simp)).block body hbody
  · cases h

omit ih

theorem readsHeaded (t : Tree) : ReadsHeaded t := by
  induction t using Tree.induct with
  | node info children ih =>
    exact {
      block := fun _ => headed_readBlock ih
      body := fun _ => headed_readBody ih
      stmts := fun _ => headed_readStmts ih
      stmt := fun _ => headed_readStmt ih
      cond := fun _ => headed_readIf ih
      elifs := fun _ _ => headed_readElifs ih
      otherwise := fun _ => headed_readElse ih
      whileLoop := fun _ => headed_readWhile ih
      forLoop := fun _ => headed_readFor ih
      doUntil := fun _ => headed_readDo ih }

theorem headed_readFunctions {t : Tree} {fs : List Function} (h : readFunctions t = some fs) :
    ∀ f ∈ fs, f.body.Headed := by
  induction t using Tree.induct generalizing fs with
  | node info children ih =>
    unfold readFunctions at h
    split at h
    · cases h
      exact List.forall_mem_nil _
    · next heq =>
      cases heq
      obtain ⟨f, hf, h⟩ := bind_eq_some_iff.1 h
      obtain ⟨rest, hrest, h⟩ := bind_eq_some_iff.1 h
      cases h
      refine List.forall_mem_cons.2 ⟨?_, ih _ (by simp) hrest⟩
      unfold readFunction at hf
      split at hf
      · obtain ⟨x, -, hf⟩ := bind_eq_some_iff.1 hf
        obtain ⟨params, -, hf⟩ := bind_eq_some_iff.1 hf
        obtain ⟨body, hbody, hf⟩ := bind_eq_some_iff.1 hf
        cases hf
        exact (readsHeaded _).block body hbody
      · cases hf
    · cases h

theorem headed_readProgram {t : Tree} {fs : List Function} (h : readProgram t = some fs) :
    ∀ f ∈ fs, f.body.Headed := by
  unfold readProgram at h
  split at h
  · exact headed_readFunctions h
  · cases h

end Reading

end Source

end Lookahead
