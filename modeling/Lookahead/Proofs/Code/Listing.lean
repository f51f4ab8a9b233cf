import Lookahead.Proofs.Code.Forms
import Lookahead.Proofs.Layout.Printing
import Lookahead.Proofs.Lexeme.Reading

namespace Lookahead

section Pieces

def isPlain (c : Char) : Bool := c != ' ' && c != '\''

/-- A piece of a line: a quoted character, which may be a space, or plain characters. -/
def IsPiece (cs : List Char) : Prop :=
  (∃ c, cs = ['\'', c, '\'']) ∨ cs ≠ [] ∧ ∀ c ∈ cs, isPlain c = true

def cutPiece : List Char → List Char × List Char
  | '\'' :: c :: '\'' :: rest => (['\'', c, '\''], rest)
  | cs => (cs.takeWhile (· ≠ ' '), cs.dropWhile (· ≠ ' '))

theorem cutPiece_append {cs rest : List Char} (h : IsPiece cs)
    (hrest : rest = [] ∨ ∃ more, rest = ' ' :: more) : cutPiece (cs ++ rest) = (cs, rest) := by
  rcases h with ⟨c, rfl⟩ | ⟨hne, hplain⟩
  · rfl
  · obtain ⟨d, ds, rfl⟩ := List.exists_cons_of_ne_nil hne
    have hd : d ≠ '\'' := by
      rintro rfl
      exact absurd (hplain '\'' List.mem_cons_self) (by decide)
    have hall : ∀ e ∈ d :: ds, decide (e ≠ ' ') = true := by
      intro e he
      refine decide_eq_true ?_
      rintro rfl
      exact absurd (hplain ' ' he) (by decide)
    rw [List.cons_append, cutPiece.eq_2 _ fun c more heq => hd (List.cons.inj heq).1,
      ← List.cons_append, List.takeWhile_append_of_pos hall, List.dropWhile_append_of_pos hall]
    rcases hrest with rfl | ⟨more, rfl⟩ <;> simp

def spaced (pieces : List String) : List Char := pieces.flatMap fun p => ' ' :: p.toList

theorem spaced_cons (p : String) (ps : List String) :
    spaced (p :: ps) = ' ' :: (p.toList ++ spaced ps) := List.flatMap_cons

theorem spaced_eq (ps : List String) : spaced ps = [] ∨ ∃ more, spaced ps = ' ' :: more := by
  cases ps with
  | nil => exact .inl rfl
  | cons p ps => exact .inr ⟨_, spaced_cons p ps⟩

theorem spaced_injective {ps qs : List String} (hp : ∀ p ∈ ps, IsPiece p.toList)
    (hq : ∀ q ∈ qs, IsPiece q.toList) (h : spaced ps = spaced qs) : ps = qs := by
  induction ps generalizing qs with
  | nil =>
    cases qs with
    | nil => rfl
    | cons q qs =>
      rw [spaced_cons] at h
      cases h
  | cons p ps ih =>
    cases qs with
    | nil =>
      rw [spaced_cons] at h
      cases h
    | cons q qs =>
      obtain ⟨hphere, hps⟩ := List.forall_mem_cons.1 hp
      obtain ⟨hqhere, hqs⟩ := List.forall_mem_cons.1 hq
      rw [spaced_cons, spaced_cons] at h
      have hcut := congrArg cutPiece (List.cons.inj h).2
      rw [cutPiece_append hphere (spaced_eq ps), cutPiece_append hqhere (spaced_eq qs)] at hcut
      obtain ⟨hhere, hrest⟩ := Prod.mk.inj hcut
      rw [String.toList_inj.1 hhere, ih hps hqs hrest]

end Pieces

section Words

theorem isPlain_of_isWordChar {c : Char} (h : Lexeme.isWordChar c = true) : isPlain c = true := by
  rw [isPlain, Bool.and_eq_true, bne_iff_ne, bne_iff_ne]
  constructor <;> rintro rfl <;> exact absurd h (by decide)

theorem isPlain_of_isName {cs : List Char} (h : Lexeme.IsName cs) :
    cs ≠ [] ∧ ∀ c ∈ cs, isPlain c = true := by
  obtain ⟨c, rest, rfl, hc, hrest⟩ := h
  refine ⟨List.cons_ne_nil _ _, List.forall_mem_cons.2 ⟨?_, fun d hd => ?_⟩⟩
  · exact isPlain_of_isWordChar (Lexeme.isWordChar_of_isWordStart hc)
  · exact isPlain_of_isWordChar (hrest d hd)

theorem isPlain_toDigits (i : Nat) : ∀ c ∈ Nat.toDigits 10 i, isPlain c = true :=
  fun c hc => isPlain_of_isWordChar (Lexeme.isWordChar_of_isDigit (Machine.isDigit_toDigits i c hc))

theorem isPiece_comma {s : String} (h : Lexeme.IsName s.toList) : IsPiece (s ++ ",").toList := by
  rw [String.toList_append]
  refine .inr ⟨by simp, List.forall_mem_append.2 ⟨(isPlain_of_isName h).2, ?_⟩⟩
  exact List.forall_mem_singleton.2 (by decide)

end Words

namespace Operand

/-- The same operand, or a number of the source and a constant of lowering that read the same. -/
inductive Alike : Operand → Operand → Prop
  | refl (a : Operand) : Alike a a
  | numImm {digits : String} {v : Int} (h : digits = (imm v).text) : Alike (num digits) (imm v)
  | immNum {digits : String} {v : Int} (h : digits = (imm v).text) : Alike (imm v) (num digits)

theorem Alike.text_eq {a b : Operand} (h : a.Alike b) : a.text = b.text := by
  cases h with
  | refl => rfl
  | numImm h => exact h
  | immNum h => exact h.symm

/-- Names and numbers are of the form that the scanner lets through. -/
def Lexical : Operand → Prop
  | name s => Lexeme.IsName s.toList ∧ Lexeme.isReserved s.toList = false
  | num s => s.toList ≠ [] ∧ ∀ c ∈ s.toList, c.isDigit = true
  | _ => True

section Texts

theorem toList_temp (i : Nat) : (temp i).text.toList = ['t'] ++ Nat.toDigits 10 i := by
  rw [← Machine.toList_toString]
  exact String.toList_append

theorem toList_param (i : Nat) :
    (param i).text.toList = ['p', 'a', 'r', 'a', 'm'] ++ Nat.toDigits 10 i := by
  rw [← Machine.toList_toString]
  exact String.toList_append

theorem toList_imm_ofNat (n : Nat) : (imm (.ofNat n)).text.toList = Nat.toDigits 10 n := by
  rw [← Machine.toList_toString]
  rfl

theorem toList_imm_negSucc (n : Nat) :
    (imm (.negSucc n)).text.toList = '-' :: Nat.toDigits 10 (n + 1) := by
  rw [← Machine.toList_toString]
  exact String.toList_append

theorem toList_char (c : Char) : (char c).text.toList = ['\'', c, '\''] := by
  simp [text, toString]

end Texts

section Initials

inductive Initial
  | word | quote | number
deriving DecidableEq

def Initial.of (c : Char) : Initial :=
  if Lexeme.isWordStart c then word else if c = '\'' then quote else number

def initial : Operand → Initial
  | name _ | temp _ | param _ | label _ => .word
  | char _ => .quote
  | num _ | imm _ => .number

theorem of_isDigit {c : Char} (h : c.isDigit = true) : Initial.of c = .number := by
  have hquote : c ≠ '\'' := by
    rintro rfl
    exact absurd h (by decide)
  rw [Initial.of, Lexeme.isWordStart_of_isDigit h, if_neg hquote]
  rfl

theorem exists_head_of_isDigit {cs : List Char} (hne : cs ≠ [])
    (h : ∀ c ∈ cs, c.isDigit = true) : ∃ c rest, cs = c :: rest ∧ Initial.of c = .number := by
  obtain ⟨c, rest, rfl⟩ := List.exists_cons_of_ne_nil hne
  exact ⟨c, rest, rfl, of_isDigit (h c List.mem_cons_self)⟩

theorem IsValue.exists_head {a : Operand} (h : a.IsValue Lexical) :
    ∃ c rest, a.text.toList = c :: rest ∧ Initial.of c = a.initial := by
  obtain ⟨hlabel, h⟩ := h
  cases a with
  | name s =>
    obtain ⟨⟨c, rest, heq, hc, -⟩, -⟩ := h
    exact ⟨c, rest, heq, if_pos hc⟩
  | temp i => exact ⟨'t', _, toList_temp i, rfl⟩
  | param i => exact ⟨'p', _, toList_param i, rfl⟩
  | num s => exact exists_head_of_isDigit h.1 h.2
  | imm v =>
    obtain n | n := v
    · rw [toList_imm_ofNat]
      exact exists_head_of_isDigit Nat.toDigits_ne_nil (Machine.isDigit_toDigits n)
    · exact ⟨'-', _, toList_imm_negSucc n, rfl⟩
  | char c => exact ⟨'\'', _, toList_char c, rfl⟩
  | label name => cases hlabel

end Initials

theorem IsValue.isPiece {a : Operand} (h : a.IsValue Lexical) : IsPiece a.text.toList := by
  obtain ⟨c, rest, hcons, -⟩ := h.exists_head
  have hne : a.text.toList ≠ [] := hcons ▸ List.cons_ne_nil c rest
  obtain ⟨hlabel, h⟩ := h
  cases a with
  | name s => exact .inr (isPlain_of_isName h.1)
  | temp i =>
    refine .inr ⟨hne, ?_⟩
    rw [toList_temp]
    exact List.forall_mem_append.2 ⟨List.all_eq_true.1 (by decide), isPlain_toDigits i⟩
  | param i =>
    refine .inr ⟨hne, ?_⟩
    rw [toList_param]
    exact List.forall_mem_append.2 ⟨List.all_eq_true.1 (by decide), isPlain_toDigits i⟩
  | num s => exact .inr ⟨hne, fun c hc =>
      isPlain_of_isWordChar (Lexeme.isWordChar_of_isDigit (h.2 c hc))⟩
  | imm v =>
    refine .inr ⟨hne, ?_⟩
    obtain n | n := v
    · rw [toList_imm_ofNat]
      exact isPlain_toDigits n
    · rw [toList_imm_negSucc]
      exact List.forall_mem_cons.2 ⟨by decide, isPlain_toDigits (n + 1)⟩
  | char c => exact .inl ⟨c, toList_char c⟩
  | label name => cases hlabel

section Alike

/-- No name of a source reads like a temporary, a parameter slot or a generated label. -/
theorem Lexical.ne_made {s : String} (h : (name s).Lexical) (i : Nat) :
    s ≠ (temp i).text ∧ s ≠ (param i).text ∧ s ≠ Source.labelText i := by
  have hreserved {text : String} (ht : Lexeme.isReserved text.toList = true) : s ≠ text := by
    rintro rfl
    rw [h.2] at ht
    cases ht
  refine ⟨hreserved ?_, hreserved ?_, hreserved (Machine.isReserved_labelText i)⟩
  · rw [toList_temp]
    exact Machine.isReserved_append (by decide) i
  · rw [toList_param]
    exact Machine.isReserved_append (by decide) i

theorem temp_text_ne_param (i j : Nat) : (temp i).text ≠ (param j).text := by
  intro h
  have hlist := congrArg String.toList h
  rw [toList_temp, toList_param] at hlist
  exact absurd (List.cons.inj hlist).1 (by decide)

theorem imm_text_injective {v w : Int} (h : (imm v).text = (imm w).text) : v = w := by
  have hlist := congrArg String.toList h
  have hminus (m n : Nat) : Nat.toDigits 10 m ≠ '-' :: Nat.toDigits 10 n := fun heq =>
    absurd (Machine.isDigit_toDigits m '-' (heq ▸ List.mem_cons_self)) (by decide)
  obtain m | m := v <;> obtain n | n := w
  · rw [toList_imm_ofNat, toList_imm_ofNat] at hlist
    rw [Machine.toDigits_injective hlist]
  · rw [toList_imm_ofNat, toList_imm_negSucc] at hlist
    exact absurd hlist (hminus _ _)
  · rw [toList_imm_negSucc, toList_imm_ofNat] at hlist
    exact absurd hlist.symm (hminus _ _)
  · rw [toList_imm_negSucc, toList_imm_negSucc] at hlist
    rw [Nat.succ.inj (Machine.toDigits_injective (List.cons.inj hlist).2)]

/-- Values that read the same are alike. -/
theorem alike_of_text {a b : Operand} (ha : a.IsValue Lexical) (hb : b.IsValue Lexical)
    (h : a.text = b.text) : a.Alike b := by
  have hinitial : a.initial = b.initial := by
    obtain ⟨c, rest, hc, hac⟩ := ha.exists_head
    obtain ⟨d, rest', hd, hbd⟩ := hb.exists_head
    rw [h, hd] at hc
    rw [← hac, ← hbd, (List.cons.inj hc).1]
  have hlist := congrArg String.toList h
  -- Of two kinds that begin alike, names are told apart by what is reserved.
  cases a with
  | name s =>
    cases b with
    | name s' => exact (show s = s' from h) ▸ .refl _
    | temp i => exact absurd h (ha.2.ne_made i).1
    | param i => exact absurd h (ha.2.ne_made i).2.1
    | label => cases hb.1
    | _ => cases hinitial
  | temp i =>
    cases b with
    | name s => exact absurd h.symm (hb.2.ne_made i).1
    | temp j =>
      rw [toList_temp, toList_temp] at hlist
      exact Machine.toDigits_injective (List.append_cancel_left hlist) ▸ .refl _
    | param j => exact absurd h (temp_text_ne_param i j)
    | label => cases hb.1
    | _ => cases hinitial
  | param i =>
    cases b with
    | name s => exact absurd h.symm (hb.2.ne_made i).2.1
    | temp j => exact absurd h.symm (temp_text_ne_param j i)
    | param j =>
      rw [toList_param, toList_param] at hlist
      exact Machine.toDigits_injective (List.append_cancel_left hlist) ▸ .refl _
    | label => cases hb.1
    | _ => cases hinitial
  | num s =>
    cases b with
    | num s' => exact (show s = s' from h) ▸ .refl _
    | imm v => exact .numImm h
    | _ => cases hinitial
  | imm v =>
    cases b with
    | num s => exact .immNum h.symm
    | imm w => exact imm_text_injective h ▸ .refl _
    | _ => cases hinitial
  | char c =>
    cases b with
    | char d =>
      rw [toList_char, toList_char] at hlist
      cases hlist
      exact .refl _
    | _ => cases hinitial
  | label => cases ha.1

/-- The variable `_` is the one value that reads like an empty slot. -/
theorem eq_blank_of_text {a : Operand} (ha : a.IsValue Lexical) (h : a.text = "_") :
    a = name "_" := by
  have hblank : (name "_").IsValue Lexical :=
    ⟨rfl, ⟨'_', [], rfl, by decide, List.forall_mem_nil _⟩, by decide⟩
  cases alike_of_text ha hblank h
  rfl

end Alike

end Operand

namespace Op

/-- Whether the operator has a first argument. A return may have none all the same. -/
def takesArg1 : Op → Bool
  | label | goto => false
  | _ => true

def takesArg2 (op : Op) : Bool := op.isArithmetic || op.precedence?.isSome || op = call

/-- Whether the operator has a result. A call may have one all the same. -/
def takesResult : Op → Bool
  | param | ret | call => false
  | _ => true

theorem slots_binary {op : Op} (h : op.isArithmetic = true ∨ op.precedence?.isSome = true) :
    op.isGlue = false ∧ op.takesArg1 = true ∧ op.takesArg2 = true ∧ op.takesResult = true := by
  cases op <;> first | decide | simp [isArithmetic, precedence?] at h

theorem ofText?_text (op : Op) : ofText? op.text = some op := by
  cases op <;> rfl

/-- No operator ends with a comma. -/
theorem ofText?_comma (s : String) : ofText? (s ++ ",") = none := by
  have hlast : all.all fun op => op.text.toList.getLast? != some ',' := by decide
  rw [ofText?, List.find?_eq_none]
  intro op hop heq
  have hop := List.all_eq_true.1 hlast op hop
  rw [of_decide_eq_true heq, String.toList_append] at hop
  simp at hop

end Op

namespace Quad

/-- The same operator, and in each slot nothing or operands that are alike. -/
structure Alike (q r : Quad) : Prop where
  op : q.op = r.op
  arg1 : Option.Rel Operand.Alike q.arg1 r.arg1
  arg2 : Option.Rel Operand.Alike q.arg2 r.arg2
  result : Option.Rel Operand.Alike q.result r.result

/-- An instruction whose names and numbers are of the form that the scanner lets through, and whose
labels are words. -/
def Lexical (q : Quad) : Prop := q.Formed Operand.Lexical fun name => Lexeme.IsName name.toList

/-- An operator with the texts of the slots. -/
structure Texts where
  op : Op
  arg1 : Option String
  arg2 : Option String
  result : Option String

def texts (q : Quad) : Texts :=
  ⟨q.op, q.arg1.map Operand.text, q.arg2.map Operand.text, q.result.map Operand.text⟩

section Slots

variable {q r : Quad}

/-- What stands in the slots of an instruction. Results are labels where control flow is. -/
theorem Lexical.slots (h : q.Lexical) :
    (∀ a ∈ q.arg1, a.IsValue Operand.Lexical) ∧ (∀ a ∈ q.arg2, a.IsValue Operand.Lexical) ∧
      ∀ a ∈ q.result, if q.op.isGlue then ∃ name, a = .label name ∧ Lexeme.IsName name.toList
        else a.IsValue Operand.Lexical := by
  rcases h with @⟨_, h⟩ | h | h | ⟨ha, h⟩
  · cases h with
    | assign hx ha => simpa [Quad.assign, Op.isGlue] using ⟨ha, rfl, hx⟩
    | @binary op a b hop ha hb i =>
      simpa [Quad.binary, (Op.slots_binary hop).1] using ⟨ha, hb, rfl, trivial⟩
    | not ha i => simpa [Quad.not, Op.isGlue] using ⟨ha, rfl, trivial⟩
    | param ha => simpa [Quad.param] using ha
    | call hf count => simpa [Quad.call] using ⟨⟨rfl, hf⟩, rfl, trivial⟩
    | callInto hf count i =>
      simpa [Quad.call, Op.isGlue] using ⟨⟨rfl, hf⟩, ⟨rfl, trivial⟩, rfl, trivial⟩
    | ret => simp [Quad.ret]
    | retValue ha => simpa [Quad.ret] using ha
  · simpa [Quad.label, Op.isGlue] using h
  · simpa [Quad.goto, Op.isGlue] using h
  · simpa [Quad.ifFalse, Op.isGlue] using ⟨ha, h⟩

theorem rel_of_map_text {a b : Option Operand} {R : Operand → Prop}
    (hR : ∀ x y, R x → R y → x.text = y.text → x.Alike y) (ha : ∀ x ∈ a, R x) (hb : ∀ x ∈ b, R x)
    (h : a.map Operand.text = b.map Operand.text) : Option.Rel Operand.Alike a b := by
  cases a <;> cases b
  · exact .none
  · cases h
  · cases h
  · exact .some (hR _ _ (ha _ rfl) (hb _ rfl) (Option.some.inj h))

theorem map_text_of_rel {a b : Option Operand} (h : Option.Rel Operand.Alike a b) :
    a.map Operand.text = b.map Operand.text := by
  cases h with
  | none => rfl
  | some h => exact congrArg some h.text_eq

theorem alike_iff_texts_eq (hq : q.Lexical) (hr : r.Lexical) : q.Alike r ↔ q.texts = r.texts := by
  constructor
  · intro h
    rw [texts, texts, h.op, map_text_of_rel h.arg1, map_text_of_rel h.arg2,
      map_text_of_rel h.result]
  · intro h
    obtain ⟨hop, harg1, harg2, hresult⟩ := Texts.mk.inj h
    obtain ⟨hq1, hq2, hq3⟩ := hq.slots
    obtain ⟨hr1, hr2, hr3⟩ := hr.slots
    refine ⟨hop, rel_of_map_text (fun _ _ => Operand.alike_of_text) hq1 hr1 harg1,
      rel_of_map_text (fun _ _ => Operand.alike_of_text) hq2 hr2 harg2,
      rel_of_map_text ?_ hq3 (hop ▸ hr3) hresult⟩
    intro a b ha hb heq
    split at ha
    · next hglue =>
      rw [if_pos hglue] at hb
      obtain ⟨name, rfl, -⟩ := ha
      obtain ⟨name', rfl, -⟩ := hb
      exact (show name = name' from heq) ▸ .refl _
    · next hglue =>
      rw [if_neg hglue] at hb
      exact Operand.alike_of_text ha hb heq

end Slots

section Listing

def pieces (q : Quad) : List String :=
  let arg1 := slotText q.arg1
  let arg2 := slotText q.arg2
  let result := slotText q.result
  match q.op with
  | .label => ["label", result]
  | .assign => [result, "=", arg1]
  | .not => [result, "=", "!", arg1]
  | .ifFalse => ["ifFalse", arg1, "->", result]
  | .goto => ["goto", result]
  | .param => ["param", arg1]
  | .call => if q.result.isSome then [result, "=", "call", arg1 ++ ",", arg2]
    else ["call", arg1 ++ ",", arg2]
  | .ret => if q.arg1.isSome then ["return", arg1] else ["return"]
  | op => [result, "=", arg1, op.text, arg2]

theorem pieces_binary {q : Quad} (h : q.op.isArithmetic = true ∨ q.op.precedence?.isSome = true) :
    q.pieces = [slotText q.result, "=", slotText q.arg1, q.op.text, slotText q.arg2] := by
  obtain ⟨op, arg1, arg2, result⟩ := q
  cases op <;> first | rfl | simp [Op.isArithmetic, Op.precedence?] at h

theorem text_binary {q : Quad} (h : q.op.isArithmetic = true ∨ q.op.precedence?.isSome = true) :
    q.text = s!"{slotText q.result} = {slotText q.arg1} {q.op.text} {slotText q.arg2}" := by
  obtain ⟨op, arg1, arg2, result⟩ := q
  cases op <;> first | rfl | simp [Op.isArithmetic, Op.precedence?] at h

theorem spaced_pieces (q : Quad) : spaced q.pieces = ' ' :: q.text.toList := by
  by_cases hop : q.op.isArithmetic = true ∨ q.op.precedence?.isSome = true
  · rw [pieces_binary hop, text_binary hop]
    simp [spaced, toString]
  obtain ⟨op, arg1, arg2, result⟩ := q
  cases op
  case call => cases result <;> simp [pieces, text, spaced, toString]
  case ret => cases arg1 <;> simp [pieces, text, spaced, toString]
  all_goals first
    | exact absurd (.inl rfl) hop
    | exact absurd (.inr rfl) hop
    | simp [pieces, text, spaced, toString]

theorem isPiece_word {s : String} (h : (!s.toList.isEmpty && s.toList.all isPlain) = true) :
    IsPiece s.toList := by
  rw [Bool.and_eq_true, Bool.not_eq_true', List.isEmpty_eq_false_iff, List.all_eq_true] at h
  exact .inr h

theorem isPiece_text (op : Op) : IsPiece op.text.toList := by
  cases op <;> exact isPiece_word (by decide)

theorem isPiece_label {name : String} (h : Lexeme.IsName name.toList) : IsPiece name.toList :=
  .inr (isPlain_of_isName h)

theorem isPiece_temp (i : Nat) : IsPiece (Operand.temp i).text.toList :=
  Operand.IsValue.isPiece (a := .temp i) ⟨rfl, trivial⟩

theorem isPiece_imm (v : Int) : IsPiece (Operand.imm v).text.toList :=
  Operand.IsValue.isPiece (a := .imm v) ⟨rfl, trivial⟩

/-- The count of a call is some constant. -/
theorem exists_call_eq (callee : String) (count : Nat) (result : Option Operand) :
    ∃ v, Quad.call callee count result = ⟨.call, some (.name callee), some (.imm v), result⟩ :=
  ⟨_, rfl⟩

theorem Lexical.isPiece_pieces {q : Quad} (h : q.Lexical) : ∀ p ∈ q.pieces, IsPiece p.toList := by
  intro p hp
  rcases h with @⟨_, h⟩ | h | h | ⟨ha, h⟩
  · cases h with
    | assign hx ha =>
      fin_cases hp
      exacts [isPiece_label hx.1, isPiece_word (by decide), ha.isPiece]
    | binary hop ha hb i =>
      rw [pieces_binary hop] at hp
      fin_cases hp
      exacts [isPiece_temp i, isPiece_word (by decide), ha.isPiece, isPiece_text _, hb.isPiece]
    | not ha i =>
      fin_cases hp
      exacts [isPiece_temp i, isPiece_word (by decide), isPiece_word (by decide), ha.isPiece]
    | param ha =>
      fin_cases hp
      exacts [isPiece_word (by decide), ha.isPiece]
    | @call callee hf count =>
      obtain ⟨v, hcall⟩ := exists_call_eq callee count none
      rw [hcall] at hp
      fin_cases hp
      exacts [isPiece_word (by decide), isPiece_comma hf.1, isPiece_imm v]
    | @callInto callee hf count i =>
      obtain ⟨v, hcall⟩ := exists_call_eq callee count (some (.temp i))
      rw [hcall] at hp
      fin_cases hp
      exacts [isPiece_temp i, isPiece_word (by decide), isPiece_word (by decide),
        isPiece_comma hf.1, isPiece_imm v]
    | ret =>
      fin_cases hp
      exact isPiece_word (by decide)
    | retValue ha =>
      fin_cases hp
      exacts [isPiece_word (by decide), ha.isPiece]
  · fin_cases hp
    exacts [isPiece_word (by decide), isPiece_label h]
  · fin_cases hp
    exacts [isPiece_word (by decide), isPiece_label h]
  · fin_cases hp
    exacts [isPiece_word (by decide), ha.isPiece, isPiece_word (by decide), isPiece_label h]

def dropComma (s : String) : String := String.ofList s.toList.dropLast

theorem dropComma_append (s : String) : dropComma (s ++ ",") = s := by
  rw [dropComma, String.toList_append]
  simp

def readPieces : List String → Option Texts
  | [_] => some ⟨.ret, none, none, none⟩
  | [word, a] =>
    match Op.ofText? word with
    | some .param => some ⟨.param, some a, none, none⟩
    | some .ret => some ⟨.ret, some a, none, none⟩
    | some op => some ⟨op, none, none, some a⟩
    | none => none
  | [a, word, b] =>
    if word = "=" then some ⟨.assign, some b, none, some a⟩
    else some ⟨.call, some (dropComma word), some b, none⟩
  | [a, b, word, c] =>
    if word = "!" then some ⟨.not, some c, none, some a⟩
    else some ⟨.ifFalse, some b, none, some c⟩
  | [a, _, b, word, c] =>
    match Op.ofText? word with
    | some op => some ⟨op, some b, some c, some a⟩
    | none => some ⟨.call, some (dropComma word), some c, some a⟩
  | _ => none

theorem readPieces_binary (a b c : String) (op : Op) :
    readPieces [a, "=", b, op.text, c] = some ⟨op, some b, some c, some a⟩ := by
  simp only [readPieces, Op.ofText?_text]

theorem readPieces_call (callee count : String) :
    readPieces ["call", callee ++ ",", count] = some ⟨.call, some callee, some count, none⟩ := by
  have hne : callee ++ "," ≠ "=" := by
    intro heq
    have hnone := Op.ofText?_comma callee
    rw [heq] at hnone
    cases hnone
  simp only [readPieces, if_neg hne, dropComma_append]

theorem readPieces_callInto (a callee count : String) :
    readPieces [a, "=", "call", callee ++ ",", count] =
      some ⟨.call, some callee, some count, some a⟩ := by
  simp only [readPieces, Op.ofText?_comma, dropComma_append]

theorem readPieces_pieces {q : Quad} (h : q.Lexical) : readPieces q.pieces = some q.texts := by
  rcases h with @⟨_, h⟩ | _ | _ | _
  · cases h with
    | binary hop =>
      rw [pieces_binary hop]
      exact readPieces_binary _ _ _ _
    | @call callee _ count =>
      obtain ⟨v, hcall⟩ := exists_call_eq callee count none
      rw [hcall]
      exact readPieces_call callee (Operand.imm v).text
    | @callInto callee _ count i =>
      obtain ⟨v, hcall⟩ := exists_call_eq callee count (some (.temp i))
      rw [hcall]
      exact readPieces_callInto (Operand.temp i).text callee (Operand.imm v).text
    | _ => rfl
  all_goals rfl

theorem dumpLine_eq (q : Quad) : q.dumpLine = "Result: " ++ dumpSlot q.result ++ " Arg1: " ++
    dumpSlot q.arg1 ++ " Arg2: " ++ dumpSlot q.arg2 ++ " Op: " ++ q.op.text := rfl

/-- The texts of the slots decide how an instruction is written. -/
theorem text_congr {q r : Quad} (h : q.texts = r.texts) :
    q.text = r.text ∧ q.dumpLine = r.dumpLine := by
  obtain ⟨hop, harg1, harg2, hresult⟩ := Texts.mk.inj h
  have hsome1 := congrArg Option.isSome harg1
  have hsome := congrArg Option.isSome hresult
  rw [Option.isSome_map, Option.isSome_map] at hsome1 hsome
  simp only [text, dumpLine_eq, slotText, dumpSlot, hop, harg1, harg2, hresult, hsome1, hsome,
    and_self]

/-- The listing tells instructions apart. -/
theorem text_eq_iff {q r : Quad} (hq : q.Lexical) (hr : r.Lexical) :
    q.text = r.text ↔ q.Alike r := by
  rw [alike_iff_texts_eq hq hr]
  refine ⟨fun h => ?_, fun h => (text_congr h).1⟩
  have hpieces : q.pieces = r.pieces := by
    apply spaced_injective hq.isPiece_pieces hr.isPiece_pieces
    rw [spaced_pieces, spaced_pieces, h]
  have hread := readPieces_pieces hq
  rw [hpieces, readPieces_pieces hr] at hread
  exact (Option.some.inj hread).symm

end Listing

section Dump

variable {q r : Quad}

def dumpPieces (q : Quad) : List String :=
  ["Result:", dumpSlot q.result, "Arg1:", dumpSlot q.arg1, "Arg2:", dumpSlot q.arg2, "Op:",
    q.op.text]

theorem spaced_dumpPieces (q : Quad) : spaced q.dumpPieces = ' ' :: q.dumpLine.toList := by
  simp [dumpPieces, dumpLine_eq, spaced]

theorem isPiece_dumpSlot {slot : Option Operand} (h : ∀ a ∈ slot, IsPiece a.text.toList) :
    IsPiece (dumpSlot slot).toList := by
  cases slot with
  | none => exact isPiece_word (by decide)
  | some a => exact h a rfl

theorem Lexical.isPiece_dumpPieces (h : q.Lexical) : ∀ p ∈ q.dumpPieces, IsPiece p.toList := by
  obtain ⟨harg1, harg2, hresult⟩ := h.slots
  intro p hp
  fin_cases hp
  · exact isPiece_word (by decide)
  · refine isPiece_dumpSlot fun a ha => ?_
    have ha := hresult a ha
    split at ha
    · obtain ⟨name, rfl, hname⟩ := ha
      exact isPiece_label hname
    · exact ha.isPiece
  · exact isPiece_word (by decide)
  · exact isPiece_dumpSlot fun a ha => (harg1 a ha).isPiece
  · exact isPiece_word (by decide)
  · exact isPiece_dumpSlot fun a ha => (harg2 a ha).isPiece
  · exact isPiece_word (by decide)
  · exact isPiece_text q.op

/-- A dump tells the operator and how each slot is written. -/
theorem slots_of_dumpLine (hq : q.Lexical) (hr : r.Lexical) (h : q.dumpLine = r.dumpLine) :
    q.op = r.op ∧ dumpSlot q.arg1 = dumpSlot r.arg1 ∧ dumpSlot q.arg2 = dumpSlot r.arg2 ∧
      dumpSlot q.result = dumpSlot r.result := by
  have hpieces : q.dumpPieces = r.dumpPieces := by
    apply spaced_injective hq.isPiece_dumpPieces hr.isPiece_dumpPieces
    rw [spaced_dumpPieces, spaced_dumpPieces, h]
  simp only [dumpPieces, List.cons.injEq, true_and, and_true] at hpieces
  obtain ⟨hresult, harg1, harg2, hop⟩ := hpieces
  have hop := congrArg Op.ofText? hop
  rw [Op.ofText?_text, Op.ofText?_text] at hop
  exact ⟨Option.some.inj hop, harg1, harg2, hresult⟩

theorem map_text_of_dumpSlot {a b : Option Operand} (hsome : a.isSome = b.isSome)
    (h : dumpSlot a = dumpSlot b) : a.map Operand.text = b.map Operand.text := by
  cases a <;> cases b
  · rfl
  · cases hsome
  · cases hsome
  · exact congrArg some h

end Dump

section Blank

variable {q r : Quad}

/-- The operator decides which slots are in use, but for the value of a return and the result of
a call. -/
theorem Lexical.inUse (h : q.Lexical) :
    (q.op ≠ .ret → q.arg1.isSome = q.op.takesArg1) ∧ q.arg2.isSome = q.op.takesArg2 ∧
      (q.op ≠ .call → q.result.isSome = q.op.takesResult) := by
  rcases h with @⟨_, h⟩ | _ | _ | _
  · cases h with
    | binary hop =>
      obtain ⟨-, harg1, harg2, hresult⟩ := Op.slots_binary hop
      exact ⟨fun _ => harg1.symm, harg2.symm, fun _ => hresult.symm⟩
    | call => exact ⟨fun _ => rfl, rfl, fun h => absurd rfl h⟩
    | callInto => exact ⟨fun _ => rfl, rfl, fun h => absurd rfl h⟩
    | ret => exact ⟨fun h => absurd rfl h, rfl, fun _ => rfl⟩
    | _ => exact ⟨fun _ => rfl, rfl, fun _ => rfl⟩
  all_goals exact ⟨fun _ => rfl, rfl, fun _ => rfl⟩

/-- The result of a call is no name. -/
theorem Lexical.text_result_ne (h : q.Lexical) (hop : q.op = .call) :
    ∀ a ∈ q.result, a.text ≠ "_" := by
  have htemp (i : Nat) : (Operand.temp i).text ≠ "_" := by
    intro heq
    have hlist := congrArg String.toList heq
    rw [Operand.toList_temp] at hlist
    exact absurd (List.cons.inj hlist).1 (by decide)
  rcases h with @⟨_, h⟩ | _ | _ | _
  · cases h with
    | binary _ _ _ i =>
      rintro _ ⟨⟩
      exact htemp i
    | callInto _ _ i =>
      rintro _ ⟨⟩
      exact htemp i
    | call =>
      rintro _ ⟨⟩
    | _ => cases hop
  all_goals cases hop

/-- A return without a value and a return of the variable `_`, in either order. -/
inductive Blanks : Quad → Quad → Prop
  | left : Blanks (.ret none) (.ret (some (.name "_")))
  | right : Blanks (.ret (some (.name "_"))) (.ret none)

theorem Lexical.eq_ret (h : q.Lexical) (hop : q.op = .ret) : q = .ret q.arg1 := by
  obtain ⟨-, harg2, hresult⟩ := h.inUse
  have hresult := hresult (by rw [hop]; decide)
  rw [hop] at harg2 hresult
  obtain ⟨op, arg1, arg2, result⟩ := q
  obtain rfl : arg2 = none := Option.isNone_iff_eq_none.1 (Option.isSome_eq_false_iff.1 harg2)
  obtain rfl : result = none :=
    Option.isNone_iff_eq_none.1 (Option.isSome_eq_false_iff.1 hresult)
  obtain rfl : op = .ret := hop
  rfl

/-- Only returns can differ in whether they have a first argument. -/
theorem eq_ret_of_arg1 (hq : q.Lexical) (hr : r.Lexical) (hop : q.op = r.op)
    (hnone : q.arg1 = none) {a : Operand} (hsome : r.arg1 = some a) :
    q = .ret none ∧ r = .ret (some a) := by
  have hret : q.op = .ret := by
    by_contra hne
    have hq1 := hq.inUse.1 hne
    rw [hop, ← hr.inUse.1 (hop ▸ hne), hnone, hsome] at hq1
    cases hq1
  rw [hq.eq_ret hret, hr.eq_ret (hop ▸ hret), hnone, hsome]
  exact ⟨rfl, rfl⟩

/-- Whether a call has a result is seen in its dump. -/
theorem isSome_result_eq (hq : q.Lexical) (hr : r.Lexical) (hop : q.op = r.op)
    (h : dumpSlot q.result = dumpSlot r.result) : q.result.isSome = r.result.isSome := by
  by_cases hcall : q.op = .call
  · have hq := hq.text_result_ne hcall
    have hr := hr.text_result_ne (hop ▸ hcall)
    cases hqr : q.result <;> cases hrr : r.result <;> rw [hqr, hrr] at h
    · exact absurd h.symm (hr _ hrr)
    · exact absurd h (hq _ hqr)
    · rfl
  · rw [hq.inUse.2.2 hcall, hr.inUse.2.2 (hop ▸ hcall), hop]

/-- The dump tells instructions apart, except a return without a value and a return of `_`. -/
theorem dumpLine_eq_iff (hq : q.Lexical) (hr : r.Lexical) :
    q.dumpLine = r.dumpLine ↔ q.Alike r ∨ Blanks q r := by
  rw [alike_iff_texts_eq hq hr]
  constructor
  · intro h
    obtain ⟨hop, harg1, harg2, hresult⟩ := slots_of_dumpLine hq hr h
    cases hq1 : q.arg1 <;> cases hr1 : r.arg1
    case none.some a =>
      obtain ⟨rfl, rfl⟩ := eq_ret_of_arg1 hq hr hop hq1 hr1
      obtain rfl := Operand.eq_blank_of_text (hr.slots.1 a hr1) harg1.symm
      exact .inr .left
    case some.none a =>
      obtain ⟨rfl, rfl⟩ := eq_ret_of_arg1 hr hq hop.symm hr1 hq1
      obtain rfl := Operand.eq_blank_of_text (hq.slots.1 a hq1) harg1
      exact .inr .right
    all_goals
      left
      have hsome1 : q.arg1.isSome = r.arg1.isSome := by simp [hq1, hr1]
      have hsome2 : q.arg2.isSome = r.arg2.isSome := by rw [hq.inUse.2.1, hr.inUse.2.1, hop]
      rw [texts, texts, hop, map_text_of_dumpSlot hsome1 harg1, map_text_of_dumpSlot hsome2 harg2,
        map_text_of_dumpSlot (isSome_result_eq hq hr hop hresult) hresult]
  · rintro (h | h)
    · exact (text_congr h).2
    · cases h <;> rfl

end Blank

end Quad

end Lookahead
