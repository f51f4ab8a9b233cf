import Lookahead.Proofs.Code.Calls

namespace Lookahead

/-- A call instruction in some code, and the run of `param` instructions in front of it. -/
structure CallSite where
  before : List Quad
  places : List Operand
  callee : String
  result : Option Operand
  after : List Quad

namespace CallSite

variable (s : CallSite)

def code : List Quad := s.before ++ (invocation s.callee s.places s.result ++ s.after)

def start : Nat := s.before.length

def position : Nat := s.start + s.places.length

theorem getElem?_position :
    s.code[s.position]? = some (.call s.callee s.places.length s.result) := by
  rw [code, position, start, List.getElem?_append_right (Nat.le_add_right _ _),
    Nat.add_sub_cancel_left, invocation, List.append_assoc,
    List.getElem?_append_right (List.length_map _).le, List.length_map, Nat.sub_self]
  rfl

theorem getElem?_of_lt {i : Nat} (hstart : s.start ≤ i) (hi : i < s.position) :
    ∃ place, s.code[i]? = some (.param place) := by
  have hlt : i - s.before.length < s.places.length := by
    rw [position] at hi
    rw [start] at hi hstart
    omega
  refine ⟨s.places.get ⟨_, hlt⟩, ?_⟩
  rw [code, List.getElem?_append_right hstart, invocation, List.append_assoc,
    List.getElem?_append_left (by rwa [List.length_map]), List.getElem?_map,
    List.getElem?_eq_getElem hlt]
  rfl

end CallSite

open Source in
/-- The site of a call of the source. Its run is as long as it can be and passes the places of the
arguments, whose code ends where it starts. The count of the instruction is that of the arguments as
long as it fits. -/
structure Serves (code : List Quad) (c : Call) (s : CallSite) : Prop where
  code_eq : s.code = code
  callee_eq : s.callee = c.callee.text
  maximal : ∀ q ∈ s.before.getLast?, q.op ≠ .param
  length_eq : s.places.length = c.args.length
  counted : 2 * c.args.length < UInt64.size →
    (Quad.call s.callee s.places.length s.result).arg2 = some (.imm c.args.length)
  delivers : ∃ earlier argsCode, s.before = earlier ++ argsCode ∧
    DeliversAll c.args argsCode s.places

/-- From `start` on, the sites are those of all calls and all that is passed, in their order. -/
structure Located (code : List Quad) (start : Nat) (sites : List CallSite) : Prop where
  start_le : ∀ s ∈ sites, start ≤ s.start
  apart : sites.Pairwise fun s s' => s.position < s'.start
  call : ∀ i q, start ≤ i → code[i]? = some q → q.op = .call → ∃ s ∈ sites, s.position = i
  param : ∀ i q, start ≤ i → code[i]? = some q → q.op = .param →
    ∃ s ∈ sites, s.start ≤ i ∧ i < s.position

namespace Located

variable {code : List Quad} {start : Nat} {sites : List CallSite}

theorem nil (h : code.length ≤ start) : Located code start [] where
  start_le := List.forall_mem_nil _
  apart := .nil
  call i q hi hq := by
    rw [List.getElem?_eq_none (h.trans hi)] at hq
    cases hq
  param i q hi hq := by
    rw [List.getElem?_eq_none (h.trans hi)] at hq
    cases hq

theorem plain {q : Quad} (h : Located code (start + 1) sites) (hcode : code[start]? = some q)
    (hq : q.op.isPassing = false) : Located code start sites := by
  -- An instruction that takes part in a call stands behind `start`.
  have hlt {i : Nat} {r : Quad} (hi : start ≤ i) (hr : code[i]? = some r)
      (hop : r.op.isPassing = true) : start + 1 ≤ i := by
    refine Nat.lt_of_le_of_ne hi ?_
    rintro rfl
    rw [hcode] at hr
    cases hr
    rw [hq] at hop
    cases hop
  exact {
    start_le := fun s hs => (Nat.le_succ _).trans (h.start_le s hs)
    apart := h.apart
    call := fun i r hi hr hop => h.call i r (hlt hi hr (hop ▸ rfl)) hr hop
    param := fun i r hi hr hop => h.param i r (hlt hi hr (hop ▸ rfl)) hr hop }

theorem cons (s : CallSite) (h : Located s.code (s.position + 1) sites) :
    Located s.code s.start (s :: sites) where
  start_le := by
    refine List.forall_mem_cons.2 ⟨le_rfl, fun s' hs => ?_⟩
    have hle := h.start_le s' hs
    rw [CallSite.position] at hle
    omega
  apart := List.pairwise_cons.2 ⟨h.start_le, h.apart⟩
  call i q hi hq hop := by
    rcases Nat.lt_trichotomy i s.position with hlt | rfl | hlt
    · obtain ⟨place, hplace⟩ := s.getElem?_of_lt hi hlt
      rw [hplace] at hq
      cases hq
      cases hop
    · exact ⟨s, List.mem_cons_self, rfl⟩
    · obtain ⟨s', hs, hposition⟩ := h.call i q hlt hq hop
      exact ⟨s', List.mem_cons_of_mem _ hs, hposition⟩
  param i q hi hq hop := by
    rcases Nat.lt_trichotomy i s.position with hlt | rfl | hlt
    · exact ⟨s, List.mem_cons_self, hi, hlt⟩
    · rw [s.getElem?_position] at hq
      cases hq
      cases hop
    · obtain ⟨s', hs, hrun⟩ := h.param i q hlt hq hop
      exact ⟨s', List.mem_cons_of_mem _ hs, hrun⟩

/-- No two sites have an instruction in common. -/
theorem eq_of_covers (h : Located code start sites) {i : Nat} {s s' : CallSite} (hs : s ∈ sites)
    (hs' : s' ∈ sites) (hi : s.start ≤ i ∧ i ≤ s.position) (hi' : s'.start ≤ i ∧ i ≤ s'.position) :
    s = s' := by
  -- The order of the sites is not symmetric; that they have nothing in common is.
  let Disjoint (s s' : CallSite) : Prop :=
    s.start ≤ i ∧ i ≤ s.position → s'.start ≤ i ∧ i ≤ s'.position → s = s'
  have : Std.Symm Disjoint := ⟨fun s s' hd hi hi' => (hd hi' hi).symm⟩
  have hdisjoint : sites.Pairwise Disjoint :=
    h.apart.imp fun {s s'} hlt hi hi' => by omega
  exact hdisjoint.forall_of_forall (fun _ _ _ _ => rfl) hs hs' hi hi'

end Located

open Source in
/-- The sites are those of the calls, one for each in their order. Every call instruction is that of
one site, and every `param` instruction stands in the run of one site. -/
structure Convention (calls : List Call) (code : List Quad) (sites : List CallSite) : Prop where
  serves : List.Forall₂ (Serves code) calls sites
  apart : sites.Pairwise fun s s' => s.position < s'.start
  call : ∀ i q, code[i]? = some q → q.op = .call → ∃! s, s ∈ sites ∧ s.position = i
  param : ∀ i q, code[i]? = some q → q.op = .param →
    ∃! s, s ∈ sites ∧ s.start ≤ i ∧ i < s.position

section Convention

open Source

variable {before code : List Quad} {calls : List Call}

theorem arg2_call (callee : String) {count : Nat} (result : Option Operand)
    (h : 2 * count < UInt64.size) :
    (Quad.call callee count result).arg2 = some (.imm count) := by
  have hcount : Int.bmod count UInt64.size = count :=
    Int.bmod_eq_of_le (by omega) (by omega)
  rw [Quad.call, hcount]

theorem Conforms.exists_sites (h : Conforms before calls code)
    (hlast : ∀ q ∈ before.getLast?, q.op ≠ .param) :
    ∃ sites, List.Forall₂ (Serves (before ++ code)) calls sites ∧
      Located (before ++ code) before.length sites := by
  induction h with
  | @nil before => exact ⟨[], .nil, .nil (by simp)⟩
  | @plain before q calls code hq _ ih =>
    have hop : q.op ≠ .param := by
      intro hop
      rw [hop] at hq
      cases hq
    obtain ⟨sites, hserves, hlocated⟩ := ih (by simpa using hop)
    rw [List.append_assoc, List.singleton_append] at hserves hlocated
    rw [List.length_append, List.length_singleton] at hlocated
    exact ⟨sites, hserves, hlocated.plain (by simp) hq⟩
  | @call c earlier argsCode code places result calls hargs _ ih =>
    obtain ⟨sites, hserves, hlocated⟩ := ih (by simp [invocation, Quad.call])
    -- The others stand behind the call of this site, so its run cannot reach into theirs.
    let s : CallSite := ⟨earlier ++ argsCode, places, c.callee.text, result, code⟩
    have hlength : (earlier ++ argsCode ++ invocation c.callee.text places result).length =
        s.position + 1 := by
      simp only [s, CallSite.position, CallSite.start, invocation, List.length_append,
        List.length_map, List.length_singleton]
      omega
    rw [hlength] at hlocated
    rw [List.append_assoc] at hserves hlocated
    refine ⟨s :: sites, .cons ?_ hserves, .cons s hlocated⟩
    exact {
      code_eq := rfl
      callee_eq := rfl
      maximal := hlast
      length_eq := hargs.length_eq
      counted := fun hcount => by
        rw [← hargs.length_eq] at hcount ⊢
        exact arg2_call _ _ hcount
      delivers := ⟨earlier, argsCode, rfl, hargs⟩ }

theorem Conforms.convention (h : Conforms [] calls code) :
    ∃ sites, Convention calls code sites := by
  obtain ⟨sites, hserves, hlocated⟩ := h.exists_sites (by simp)
  rw [List.nil_append] at hserves hlocated
  refine ⟨sites, hserves, hlocated.apart, ?_, ?_⟩
  · intro i q hq hop
    obtain ⟨s, hs, rfl⟩ := hlocated.call i q (Nat.zero_le i) hq hop
    refine ⟨s, ⟨hs, rfl⟩, ?_⟩
    rintro s' ⟨hs', hposition⟩
    refine hlocated.eq_of_covers hs' hs ⟨?_, hposition.ge⟩ ⟨Nat.le_add_right _ _, le_rfl⟩
    exact hposition ▸ Nat.le_add_right _ _
  · intro i q hq hop
    obtain ⟨s, hs, hstart, hlt⟩ := hlocated.param i q (Nat.zero_le i) hq hop
    refine ⟨s, ⟨hs, hstart, hlt⟩, ?_⟩
    rintro s' ⟨hs', hstart', hlt'⟩
    exact hlocated.eq_of_covers hs' hs ⟨hstart', hlt'.le⟩ ⟨hstart, hlt.le⟩

end Convention

end Lookahead
