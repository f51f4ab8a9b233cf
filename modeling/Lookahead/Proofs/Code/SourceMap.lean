import Lookahead.Code.SourceMap
import Mathlib.Data.List.Induction
import Mathlib.Data.List.Range

namespace Lookahead.SourceMap

section Insert

variable (m : SourceMap) (i j : Nat) (p : Provenance)

theorem size_insert : (m.insert i p).size = max m.size (i + 1) := by
  simp only [size, insert, Array.size_setIfInBounds, Array.size_append, Array.size_replicate]
  omega

/-- One record changes its own index and fills those skipped before it. -/
theorem get?_insert : (m.insert i p).get? j =
    if j = i then some p
    else if j < m.size then m.get? j
    else if j < i then some .unknown else none := by
  have hsize : i < m.entries.size + (i + 1 - m.entries.size) := by omega
  rw [get?, insert, Array.getElem?_setIfInBounds, Array.size_append, Array.size_replicate,
    if_pos hsize]
  by_cases hi : i = j
  · rw [if_pos hi, if_pos hi.symm]
  · rw [if_neg hi, if_neg (Ne.symm hi), Array.getElem?_append]
    by_cases hj : j < m.size
    · rw [if_pos hj]
      exact if_pos hj
    · rw [if_neg hj, Array.getElem?_replicate]
      rw [size] at hj
      rw [if_neg hj]
      congr 1
      rw [eq_iff_iff]
      omega

end Insert

section Recording

def recorded (records : List (Nat × Provenance)) : SourceMap :=
  records.foldl (fun m record => m.insert record.1 record.2) empty

def lastAt (records : List (Nat × Provenance)) (i : Nat) : Option Provenance :=
  (records.filter (·.1 = i)).getLast?.map (·.2)

variable (records : List (Nat × Provenance)) (i : Nat)

theorem recorded_concat (record : Nat × Provenance) :
    recorded (records ++ [record]) = (recorded records).insert record.1 record.2 :=
  List.foldl_concat _ _ _ _

theorem lastAt_concat (record : Nat × Provenance) :
    lastAt (records ++ [record]) i = if i = record.1 then some record.2 else lastAt records i := by
  rw [lastAt, List.filter_append]
  by_cases h : i = record.1
  · simp [h]
  · simp [h, lastAt, Ne.symm h]

theorem lastAt_eq_none_iff {records : List (Nat × Provenance)} {i : Nat} :
    lastAt records i = none ↔ ∀ record ∈ records, record.1 ≠ i := by
  rw [lastAt, Option.map_eq_none_iff, List.getLast?_eq_none_iff, List.filter_eq_nil_iff]
  simp only [decide_eq_true_eq, ne_eq]

theorem lt_size_of_mem {records : List (Nat × Provenance)} {record : Nat × Provenance}
    (h : record ∈ records) : record.1 < (recorded records).size := by
  induction records using List.reverseRecOn with
  | nil => cases h
  | append_singleton records last ih =>
    rw [recorded_concat, size_insert]
    rcases List.mem_append.1 h with h | h
    · have := ih h
      omega
    · rw [List.mem_singleton.1 h]
      omega

theorem lastAt_eq_none_of_size_le {records : List (Nat × Provenance)} {i : Nat}
    (h : (recorded records).size ≤ i) : lastAt records i = none :=
  lastAt_eq_none_iff.2 fun _ hrecord heq => Nat.not_lt.2 h (heq ▸ lt_size_of_mem hrecord)

/-- The size is one more than the greatest index recorded. -/
theorem exists_size_eq (h : records ≠ []) :
    ∃ record ∈ records, (recorded records).size = record.1 + 1 := by
  induction records using List.reverseRecOn with
  | nil => exact absurd rfl h
  | append_singleton records last ih =>
    rw [recorded_concat, size_insert]
    by_cases hlast : (recorded records).size ≤ last.1 + 1
    · exact ⟨last, by simp, Nat.max_eq_right hlast⟩
    · have hne : records ≠ [] := by
        rintro rfl
        exact hlast (Nat.zero_le _)
      obtain ⟨record, hrecord, hsize⟩ := ih hne
      exact ⟨record, List.mem_append_left _ hrecord, by omega⟩

/-- After any records, an index below the size has what was recorded last at it, or nothing known
if it was skipped. -/
theorem get?_recorded : (recorded records).get? i =
    if i < (recorded records).size then some ((lastAt records i).getD .unknown) else none := by
  induction records using List.reverseRecOn with
  | nil => rfl
  | append_singleton records last ih =>
    rw [recorded_concat, get?_insert, size_insert, lastAt_concat]
    by_cases hi : i = last.1
    · rw [if_pos hi, if_pos hi, if_pos (by omega)]
      rfl
    · rw [if_neg hi, if_neg hi, ih]
      by_cases hsize : i < (recorded records).size
      · rw [if_pos hsize, if_pos hsize, if_pos (by omega)]
      · -- past the old size nothing was recorded at the index
        rw [if_neg hsize, lastAt_eq_none_of_size_le (Nat.le_of_not_lt hsize)]
        congr 1
        rw [eq_iff_iff]
        omega

/-- An index that was skipped has no line. -/
theorem lineOf?_recorded {line : Nat} : (recorded records).lineOf? i = some line ↔
    ∃ p, lastAt records i = some p ∧ p.line = some line := by
  rw [lineOf?, get?_recorded]
  by_cases hi : i < (recorded records).size
  · rw [if_pos hi, Option.bind_some]
    cases lastAt records i with
    | none => simp [Provenance.unknown]
    | some p => simp
  · rw [if_neg hi, lastAt_eq_none_of_size_le (Nat.le_of_not_lt hi)]
    simp

end Recording

section Indices

variable {m : SourceMap} {i : Nat} (q : Provenance → Bool)

theorem mem_indicesWhere : i ∈ m.indicesWhere q ↔ ∃ p, m.get? i = some p ∧ q p = true := by
  simp only [indicesWhere, List.mem_map, List.mem_filter, Prod.exists, exists_eq_right,
    List.mem_zipIdx_iff_getElem?, Array.getElem?_toList, get?]

theorem pairwise_indicesWhere (m : SourceMap) : (m.indicesWhere q).Pairwise (· < ·) := by
  have hall : (m.entries.toList.zipIdx.map Prod.snd).Pairwise (· < ·) := by
    rw [List.zipIdx_map_snd]
    exact List.pairwise_lt_range'
  exact hall.sublist (List.filter_sublist.map Prod.snd)

theorem mem_forLine {line : Nat} : i ∈ m.forLine line ↔ m.lineOf? i = some line := by
  rw [forLine, mem_indicesWhere, lineOf?, Option.bind_eq_some_iff]
  simp only [decide_eq_true_eq]

theorem mem_forComponent {component : Component} : i ∈ m.forComponent component ↔
    ∃ p, m.get? i = some p ∧ p.component = some component := by
  rw [forComponent, mem_indicesWhere]
  simp only [decide_eq_true_eq]

end Indices

section Groups

variable {line i l : Nat} {groups : List (Nat × List Nat)}

def groupOf (groups : List (Nat × List Nat)) (line : Nat) : List Nat :=
  ((groups.find? (·.1 = line)).map (·.2)).getD []

theorem groupOf_cons (group : Nat × List Nat) :
    groupOf (group :: groups) l = if group.1 = l then group.2 else groupOf groups l := by
  rw [groupOf, List.find?_cons]
  by_cases h : group.1 = l
  · simp [h]
  · simp [h, groupOf]

theorem groupOf_eq_nil (h : l ∉ groups.map Prod.fst) : groupOf groups l = [] := by
  induction groups with
  | nil => rfl
  | cons group rest ih =>
    rw [List.map_cons, List.mem_cons, not_or] at h
    rw [groupOf_cons, if_neg (Ne.symm h.1), ih h.2]

theorem groupOf_of_mem (h : (groups.map Prod.fst).Pairwise (· < ·)) {indices : List Nat}
    (hmem : (l, indices) ∈ groups) : groupOf groups l = indices := by
  induction groups with
  | nil => cases hmem
  | cons group rest ih =>
    rw [groupOf_cons]
    rcases List.mem_cons.1 hmem with rfl | hmem
    · exact if_pos rfl
    · have hlt := List.rel_of_pairwise_cons h (List.mem_map_of_mem hmem)
      rw [if_neg (Nat.ne_of_lt hlt), ih h.of_cons hmem]

theorem mem_keys_addToGroup :
    l ∈ (addToGroup line i groups).map Prod.fst ↔ l = line ∨ l ∈ groups.map Prod.fst := by
  fun_induction addToGroup line i groups <;> grind

theorem pairwise_addToGroup (h : (groups.map Prod.fst).Pairwise (· < ·)) :
    ((addToGroup line i groups).map Prod.fst).Pairwise (· < ·) := by
  fun_induction addToGroup line i groups with
  | case1 => exact List.pairwise_singleton _ _
  | case2 l indices rest hlt =>
    refine .cons (fun k hk => ?_) h
    rcases List.mem_cons.1 hk with rfl | hk
    · exact hlt
    · exact Nat.lt_trans hlt (List.rel_of_pairwise_cons h hk)
  | case3 indices rest => exact h
  | case4 l indices rest hlt hne ih =>
    refine .cons (fun k hk => ?_) (ih h.of_cons)
    rcases mem_keys_addToGroup.1 hk with rfl | hk
    · change l < k
      omega
    · exact List.rel_of_pairwise_cons h hk

/-- An index goes to the end of the group of its line, and the other groups stay. -/
theorem groupOf_addToGroup (h : (groups.map Prod.fst).Pairwise (· < ·)) :
    groupOf (addToGroup line i groups) l =
      groupOf groups l ++ if l = line then [i] else [] := by
  fun_induction addToGroup line i groups with
  | case1 =>
    rw [groupOf_cons]
    by_cases hl : l = line
    · simp [hl, groupOf]
    · simp [hl, groupOf, Ne.symm hl]
  | case2 l' indices rest hlt =>
    rw [groupOf_cons]
    by_cases hl : l = line
    · -- all lines behind are greater, so the line had no group
      have hnone : line ∉ ((l', indices) :: rest).map Prod.fst := by
        intro hmem
        rcases List.mem_cons.1 hmem with rfl | hmem
        · exact Nat.lt_irrefl _ hlt
        · exact Nat.lt_asymm hlt (List.rel_of_pairwise_cons h hmem)
      rw [if_pos hl.symm, if_pos hl, hl, groupOf_eq_nil hnone, List.nil_append]
    · rw [if_neg (Ne.symm hl), if_neg hl, List.append_nil]
  | case3 indices rest =>
    rw [groupOf_cons, groupOf_cons]
    by_cases hl : l = line
    · simp [hl]
    · simp [hl, Ne.symm hl]
  | case4 l' indices rest hlt hne ih =>
    rw [groupOf_cons, groupOf_cons, ih h.of_cons]
    by_cases hl : l' = l
    · rw [if_pos hl, if_pos hl, if_neg (by omega), List.append_nil]
    · rw [if_neg hl, if_neg hl]

def indicesOn (line : Nat) (entries : List (Provenance × Nat)) : List Nat :=
  (entries.filter fun e => e.1.line = some line).map Prod.snd

theorem indicesOn_concat (entries : List (Provenance × Nat)) (e : Provenance × Nat) :
    indicesOn l (entries ++ [e]) =
      indicesOn l entries ++ if e.1.line = some l then [e.2] else [] := by
  rw [indicesOn, List.filter_append, List.map_append, indicesOn]
  by_cases h : e.1.line = some l <;> simp [h]

/-- The groups hold the indices of some entries by their lines, which are in order. -/
structure Gathers (groups : List (Nat × List Nat)) (entries : List (Provenance × Nat)) : Prop where
  sorted : (groups.map Prod.fst).Pairwise (· < ·)
  mem_keys : ∀ l, l ∈ groups.map Prod.fst ↔ indicesOn l entries ≠ []
  groupOf_eq : ∀ l, groupOf groups l = indicesOn l entries

theorem Gathers.addEntry {entries : List (Provenance × Nat)} (h : Gathers groups entries)
    (e : Provenance × Nat) : Gathers (addEntry groups e) (entries ++ [e]) := by
  obtain ⟨⟨line?, component⟩, i⟩ := e
  cases line? with
  | none =>
    refine ⟨h.sorted, fun l => ?_, fun l => ?_⟩
    · rw [indicesOn_concat, if_neg (by simp), List.append_nil]
      exact h.mem_keys l
    · rw [indicesOn_concat, if_neg (by simp), List.append_nil]
      exact h.groupOf_eq l
  | some line =>
    refine ⟨pairwise_addToGroup h.sorted, fun l => ?_, fun l => ?_⟩
    · rw [indicesOn_concat]
      refine mem_keys_addToGroup.trans ?_
      rw [h.mem_keys]
      by_cases hl : l = line
      · simp [hl]
      · simp [hl, Ne.symm hl]
    · rw [indicesOn_concat]
      refine (groupOf_addToGroup h.sorted).trans ?_
      simp only [h.groupOf_eq, Option.some.injEq, eq_comm]

theorem gathers_foldl (entries : List (Provenance × Nat)) :
    Gathers (entries.foldl addEntry []) entries := by
  induction entries using List.reverseRecOn with
  | nil => exact ⟨.nil, fun l => by simp [indicesOn], fun l => rfl⟩
  | append_singleton entries e ih =>
    rw [List.foldl_concat]
    exact ih.addEntry e

theorem gathers_byLine (m : SourceMap) : Gathers m.byLine m.entries.toList.zipIdx :=
  gathers_foldl _

end Groups

/-- What a map answers after some records: at each index what was recorded there last, and the
lists of indices for a line, for all lines at once and for a component as these tell. -/
structure Answers (records : List (Nat × Provenance)) (m : SourceMap) : Prop where
  size_empty : records = [] → m.size = 0
  size_eq : records ≠ [] → ∃ record ∈ records, m.size = record.1 + 1 ∧
    ∀ other ∈ records, other.1 ≤ record.1
  get_recorded : ∀ i p, lastAt records i = some p → m.get? i = some p
  get_skipped : ∀ i < m.size, (∀ record ∈ records, record.1 ≠ i) → m.get? i = some ⟨none, none⟩
  get_beyond : ∀ i, m.size ≤ i → m.get? i = none
  lineOf : ∀ i line, m.lineOf? i = some line ↔ ∃ p, lastAt records i = some p ∧ p.line = some line
  forLine_sorted : ∀ line, (m.forLine line).Pairwise (· < ·)
  mem_forLine : ∀ line i, i ∈ m.forLine line ↔ m.lineOf? i = some line
  byLine_sorted : (m.byLine.map Prod.fst).Pairwise (· < ·)
  byLine_keys : ∀ line, line ∈ m.byLine.map Prod.fst ↔ m.forLine line ≠ []
  byLine_values : ∀ line indices, (line, indices) ∈ m.byLine → indices = m.forLine line
  forComponent_sorted : ∀ component, (m.forComponent component).Pairwise (· < ·)
  mem_forComponent : ∀ component i, i ∈ m.forComponent component ↔
    ∃ p, m.get? i = some p ∧ p.component = some component

/-- Whatever is recorded in whatever order, the queries of the map agree. -/
theorem answers_recorded (records : List (Nat × Provenance)) :
    Answers records (recorded records) where
  size_empty h := by
    rw [h]
    rfl
  size_eq h := by
    obtain ⟨record, hrecord, hsize⟩ := exists_size_eq records h
    refine ⟨record, hrecord, hsize, fun other hother => ?_⟩
    have hlt := lt_size_of_mem hother
    omega
  get_recorded i p h := by
    have hi : i < (recorded records).size := by
      by_contra hi
      rw [lastAt_eq_none_of_size_le (Nat.le_of_not_lt hi)] at h
      cases h
    rw [get?_recorded, if_pos hi, h]
    rfl
  get_skipped i hi h := by
    rw [get?_recorded, if_pos hi, lastAt_eq_none_iff.2 h]
    rfl
  get_beyond i hi := by
    rw [get?_recorded, if_neg (by omega)]
  lineOf i _ := lineOf?_recorded records i
  forLine_sorted _ := pairwise_indicesWhere _ _
  mem_forLine _ _ := SourceMap.mem_forLine
  byLine_sorted := (gathers_byLine _).sorted
  byLine_keys := (gathers_byLine _).mem_keys
  byLine_values line indices h := by
    rw [← groupOf_of_mem (gathers_byLine _).sorted h]
    exact (gathers_byLine _).groupOf_eq line
  forComponent_sorted _ := pairwise_indicesWhere _ _
  mem_forComponent _ _ := SourceMap.mem_forComponent

end Lookahead.SourceMap
