import Lookahead.CommandLine
import Lookahead.Proofs.Failing

namespace Lookahead.CommandLine

section Runs

variable {α β : Type} {w w₁ w₂ : World} {x : ExceptT CompileError (StateM World) α}
  {f : α → ExceptT CompileError (StateM World) β}

/-- Run in `w`, it comes to the result `r` and leaves `w'`, whatever is reported before and on the
way. -/
def Runs (x : ExceptT CompileError (StateM World) α) (w : World) (r : Except CompileError α)
    (w' : World) : Prop :=
  ∀ before, ∃ after, x { w with stderr := before } = (r, { w' with stderr := after })

theorem runs_pure (a : α) (w : World) : Runs (pure a) w (.ok a) w := fun before => ⟨before, rfl⟩

theorem runs_throw (e : CompileError) (w : World) :
    Runs (throw e : ExceptT CompileError (StateM World) α) w (.error e) w :=
  fun before => ⟨before, rfl⟩

theorem Runs.bind {a : α} {r : Except CompileError β} (hx : Runs x w (.ok a) w₁)
    (hf : Runs (f a) w₁ r w₂) : Runs (x >>= f) w r w₂ := by
  intro before
  obtain ⟨between, hx⟩ := hx before
  obtain ⟨after, hf⟩ := hf between
  exact ⟨after, by rw [Failing.bind_ok hx, hf]⟩

theorem Runs.bind_error {e : CompileError} (hx : Runs x w (.error e) w₁) :
    Runs (x >>= f) w (.error e) w₁ := by
  intro before
  obtain ⟨after, hx⟩ := hx before
  exact ⟨after, by rw [Failing.bind_apply, hx]⟩

theorem runs_log (o : Options) (records : List Record) (w : World) :
    Runs (o.log records) w (.ok ()) w := by
  induction records with
  | nil => exact runs_pure () w
  | cons r records ih =>
    refine Runs.bind (a := ()) ?_ ih
    dsimp only
    split
    · exact fun before => ⟨_, rfl⟩
    · exact runs_pure () w

theorem runs_perform (o : Options) (x : Logged α) (w : World) :
    Runs (o.perform x) w x.result w := by
  refine (runs_log o x.log w).bind ?_
  cases x.result with
  | ok a => exact runs_pure a w
  | error e => exact runs_throw e w

theorem runs_readFile (path : String) (w : World) :
    Runs (readFile path) w ((w.files path).mapError .file) w := by
  have hread : Runs (ExceptT.lift (Shell.readFile path)) w (.ok (w.files path)) w :=
    fun before => ⟨before, rfl⟩
  refine hread.bind ?_
  cases w.files path with
  | ok text => exact runs_pure text w
  | error reason => exact runs_throw (.file reason) w

theorem lift_writeFile (path contents : String) (w : World) :
    (ExceptT.lift (Shell.writeFile path contents) : ExceptT CompileError (StateM World) _) w =
      match w.locked path with
      | some reason => (.ok (.error reason), w)
      | none => (.ok (.ok ()), w.write path contents) := by
  simp only [ExceptT.lift, ExceptT.mk, Shell.writeFile, Functor.map, StateT.map]
  cases w.locked path <;> rfl

theorem runs_writeFile {path : String} (h : w.locked path = none) (contents : String) :
    Runs (writeFile path contents) w (.ok ()) (w.write path contents) := by
  have hwrite : Runs (ExceptT.lift (Shell.writeFile path contents)) w (.ok (.ok ()))
      (w.write path contents) := by
    refine fun before => ⟨before, (lift_writeFile _ _ _).trans ?_⟩
    dsimp only
    rw [h]
    rfl
  exact hwrite.bind (runs_pure () _)

theorem runs_writeFile_locked {path reason : String} (h : w.locked path = some reason)
    (contents : String) : Runs (writeFile path contents) w (.error (.file reason)) w := by
  have hwrite : Runs (ExceptT.lift (Shell.writeFile path contents)) w (.ok (.error reason)) w := by
    refine fun before => ⟨before, (lift_writeFile _ _ _).trans ?_⟩
    dsimp only
    rw [h]
  exact hwrite.bind (runs_throw _ _)

theorem runs_print (text : String) (w : World) : Runs (print text) w (.ok ()) (w.print text) :=
  fun before => ⟨before, rfl⟩

def unlines (lines : List String) : String := String.join (lines.map (· ++ "\n"))

theorem print_print (w : World) (text more : String) :
    (w.print text).print more = w.print (text ++ more) := by
  simp only [World.print, String.append_assoc]

theorem print_empty (w : World) : w.print "" = w := by
  simp only [World.print, String.append_empty]

theorem runs_printLines (lines : List String) (w : World) :
    Runs (printLines lines) w (.ok ()) (w.print (unlines lines)) := by
  induction lines generalizing w with
  | nil =>
    rw [unlines, List.map_nil, String.join_nil, print_empty]
    exact runs_pure () w
  | cons line lines ih =>
    rw [unlines, List.map_cons, String.join_cons, ← print_print]
    exact (runs_print (line ++ "\n") w).bind (ih _)

end Runs

section Stages

variable {α β : Type} {w : World}

/-- Run in `w`, it changes nothing, and it comes to what has the property or fails if there is no
such thing. -/
def Decides (x : ExceptT CompileError (StateM World) α) (w : World) (P : α → Prop) : Prop :=
  ∃ r, Runs x w r w ∧ ∀ a, r = .ok a ↔ P a

theorem Decides.bind {x : ExceptT CompileError (StateM World) α}
    {f : α → ExceptT CompileError (StateM World) β} {P : α → Prop} {Q : α → β → Prop}
    (hx : Decides x w P) (hf : ∀ a, P a → Decides (f a) w (Q a)) :
    Decides (x >>= f) w fun b => ∃ a, P a ∧ Q a b := by
  obtain ⟨e | a, hrun, hP⟩ := hx
  · refine ⟨.error e, hrun.bind_error, fun b => ⟨fun h => (by cases h), fun ⟨a, ha, _⟩ => ?_⟩⟩
    cases (hP a).2 ha
  · obtain ⟨r, hr, hQ⟩ := hf a ((hP a).1 rfl)
    refine ⟨r, hrun.bind hr, fun b => ⟨fun h => ⟨a, (hP a).1 rfl, (hQ b).1 h⟩, ?_⟩⟩
    rintro ⟨a', ha', hb⟩
    obtain rfl := Except.ok.inj ((hP a').2 ha')
    exact (hQ b).2 hb

theorem Decides.congr {x : ExceptT CompileError (StateM World) α} {P Q : α → Prop}
    (hx : Decides x w P) (h : ∀ a, P a ↔ Q a) : Decides x w Q :=
  hx.imp fun _ hr => ⟨hr.1, fun a => (hr.2 a).trans (h a)⟩

theorem decides_pure (a : α) (w : World) : Decides (pure a) w fun b => b = a :=
  ⟨.ok a, runs_pure a w, fun _ => ⟨fun h => (Except.ok.inj h).symm, fun h => congrArg _ h.symm⟩⟩

theorem decides_throw (e : CompileError) (w : World) {P : α → Prop} (h : ∀ a, ¬ P a) :
    Decides (throw e) w P :=
  ⟨.error e, runs_throw e w, fun a => ⟨fun h => (by cases h), fun ha => absurd ha (h a)⟩⟩

theorem decides_perform (o : Options) (x : Logged α) (w : World) :
    Decides (o.perform x) w fun a => x.result = .ok a :=
  ⟨x.result, runs_perform o x w, fun _ => .rfl⟩

theorem decides_readFile (path : String) (w : World) :
    Decides (readFile path) w fun text => w.files path = .ok text := by
  refine ⟨_, runs_readFile path w, fun text => ?_⟩
  cases w.files path with
  | ok text' =>
    constructor <;> intro h
    · exact congrArg Except.ok (Except.ok.inj h)
    · exact congrArg Except.ok (Except.ok.inj h)
  | error reason =>
    constructor <;> intro h
    · cases h
    · cases h

/-- What an optional file stands for: what is read from its text, or the default without it. -/
def Supplied (w : World) (given : Option String) (read : String → α → Prop) (default value : α) :
    Prop :=
  match given with
  | some path => ∃ text, w.files path = .ok text ∧ read text value
  | none => value = default

namespace Options

/-- Everything is read and the table is filled. -/
structure Prepares (o : Options) (w : World) (source : String) (sets : FirstFollow)
    (compiler : Compiler) : Prop where
  source : Supplied w o.source (fun text source => text = source) sample source
  compiler : ∃ grammar : Grammar,
    Supplied w o.grammar (fun text g => Grammar.ofText text = .ok g) .language grammar ∧
      Supplied w o.sets (fun text sets => FirstFollow.ofDocument text = some sets)
        (FirstFollow.compute grammar) sets ∧
      (Compiler.build grammar sets o.entry).result = .ok compiler

variable (o : Options)

theorem decides_readSource : Decides o.readSource w
    (Supplied w o.source (fun text source => text = source) sample) := by
  unfold readSource Supplied
  cases o.source with
  | none =>
    refine ((decides_perform o _ w).bind fun _ _ => decides_pure sample w).congr fun source => ?_
    simp [Logged.say]
  | some path =>
    refine ((decides_perform o _ w).bind fun _ _ => decides_readFile path w).congr fun source => ?_
    simp [Logged.say]

theorem decides_readGrammar : Decides o.readGrammar w
    (Supplied w o.grammar (fun text g => Grammar.ofText text = .ok g) .language) := by
  unfold readGrammar Supplied
  cases o.grammar with
  | none => exact decides_pure _ w
  | some path =>
    refine (decides_readFile path w).bind fun text _ => ?_
    cases Grammar.ofText text with
    | ok g => exact (decides_pure g w).congr fun g' => by simp [eq_comm]
    | error e => exact decides_throw (.grammar e) w fun g h => by cases h

theorem decides_readSets (g : Grammar) : Decides (o.readSets g) w
    (Supplied w o.sets (fun text sets => FirstFollow.ofDocument text = some sets)
      (FirstFollow.compute g)) := by
  unfold readSets Supplied
  cases o.sets with
  | none =>
    refine (decides_perform o _ w).congr fun sets => ?_
    exact ⟨fun h => (Except.ok.inj h).symm, fun h => congrArg Except.ok h.symm⟩
  | some path =>
    refine (decides_readFile path w).bind fun text _ => ?_
    cases FirstFollow.ofDocument text with
    | some sets => exact (decides_pure sets w).congr fun sets' => by simp [eq_comm]
    | none => exact decides_throw .document w fun sets h => by cases h

/-- Nothing is printed and nothing is written before all is read and the table is filled. -/
theorem decides_prepare : Decides o.prepare w fun p => o.Prepares w p.1 p.2.1 p.2.2 := by
  refine (o.decides_readSource.bind fun source _ => o.decides_readGrammar.bind fun grammar _ =>
    (o.decides_readSets grammar).bind fun sets _ => (decides_perform o _ w).bind fun compiler _ =>
      decides_pure (source, sets, compiler) w).congr fun p => ?_
  constructor
  · rintro ⟨source, hsource, grammar, hgrammar, sets, hsets, compiler, hcompiler, rfl⟩
    exact ⟨hsource, grammar, hgrammar, hsets, hcompiler⟩
  · rintro ⟨hsource, grammar, hgrammar, hsets, hcompiler⟩
    exact ⟨_, hsource, grammar, hgrammar, _, hsets, _, hcompiler, rfl⟩

end Options

end Stages

section Emission

/-- What is printed in each mode if its stages are passed. -/
inductive Shows (compiler : Compiler) (sets : FirstFollow) (source : String) :
    EmitMode → String → Prop
  | tokens {tokens : List Token} : tokenize source = .ok tokens →
      Shows compiler sets source .tokens (unlines (tokens.map tokenLine))
  | sets : Shows compiler sets source .sets (sets.toDocument ++ "\n")
  | table : Shows compiler sets source .table
      (unlines (compiler.table.toLines ++ compiler.table.conflicts.map conflictLine))
  | tree {tree : Tree} : (compiler.parse source).result = .ok tree →
      Shows compiler sets source .tree tree.render
  | tac {program : Program} : (compiler.compile source).result = .ok program →
      Shows compiler sets source .tac (unlines program.toAnnotatedLines)
  | dump {program : Program} : (compiler.compile source).result = .ok program →
      Shows compiler sets source .dump program.dumpText

/-- A dump is to be left at `path`. -/
def Options.Dumps (o : Options) (path : String) : Prop :=
  o.dumpPath = some path ∧ (o.emit = .tac ∨ o.emit = .dump)

/-- Where a dump is due it holds the dump of the program, and nothing else is changed. -/
structure Options.Leaves (o : Options) (compiler : Compiler) (source : String)
    (before after : String → Except String String) : Prop where
  dumped : ∀ path, o.Dumps path → ∃ program, (compiler.compile source).result = .ok program ∧
    after path = .ok program.dumpText
  kept : ∀ path, ¬ o.Dumps path → after path = before path

variable {o : Options} {w : World} {compiler : Compiler} {sets : FirstFollow} {source : String}

theorem runs_compile {program : Program} (h : (compiler.compile source).result = .ok program)
    (hfree : ∀ path, o.dumpPath = some path → w.locked path = none) :
    Runs (o.compile compiler source) w (.ok program)
      (o.dumpPath.elim w fun path => w.write path program.dumpText) := by
  have hrun := runs_perform o (compiler.compile source) w
  rw [h] at hrun
  refine hrun.bind ?_
  cases hpath : o.dumpPath with
  | none => exact runs_pure program w
  | some path =>
    refine (runs_writeFile (hfree path hpath) program.dumpText).bind ?_
    exact (runs_perform o _ _).bind (runs_pure program _)

theorem runs_compile_error (h : (∃ e, (compiler.compile source).result = .error e) ∨
      ∃ path reason, o.dumpPath = some path ∧ w.locked path = some reason) :
    ∃ e, Runs (o.compile compiler source) w (.error e) w := by
  have hrun := runs_perform o (compiler.compile source) w
  cases hresult : (compiler.compile source).result with
  | error e =>
    rw [hresult] at hrun
    exact ⟨e, hrun.bind_error⟩
  | ok program =>
    rw [hresult] at h hrun
    obtain ⟨e, h⟩ | ⟨path, reason, hpath, hlocked⟩ := h
    · cases h
    · refine ⟨.file reason, hrun.bind ?_⟩
      rw [hpath]
      exact (runs_writeFile_locked hlocked program.dumpText).bind_error

theorem leaves_of_files_eq {w' : World} (h : ∀ path, ¬ o.Dumps path) (hfiles : w'.files = w.files) :
    o.Leaves compiler source w.files w'.files where
  dumped path hpath := absurd hpath (h path)
  kept path _ := congrFun hfiles path

theorem leaves_of_compile {program : Program} {text : String}
    (h : (compiler.compile source).result = .ok program) (hmode : o.emit = .tac ∨ o.emit = .dump) :
    o.Leaves compiler source w.files
      ((o.dumpPath.elim w fun path => w.write path program.dumpText).print text).files where
  dumped path hpath := ⟨program, h, by simp [hpath.1, World.write, World.print]⟩
  kept path hpath := by
    cases hdump : o.dumpPath with
    | none => rfl
    | some path' =>
      have hne : path ≠ path' := by
        rintro rfl
        exact hpath ⟨hdump, hmode⟩
      simp [World.write, World.print, hne]

theorem stdout_compile {program : Program} {text : String} :
    ((o.dumpPath.elim w fun path => w.write path program.dumpText).print text).stdout =
      w.stdout ++ text := by
  cases o.dumpPath <;> rfl

/-- Passing the stages of a mode: the dump is written before the program is printed, and nothing
can fail after that. -/
theorem runs_emitAs {text : String} (hshows : Shows compiler sets source o.emit text)
    (hfree : ∀ path, o.Dumps path → w.locked path = none) :
    ∃ w', Runs (o.emitAs compiler sets source o.emit) w (.ok ()) w' ∧
      w'.stdout = w.stdout ++ text ∧ o.Leaves compiler source w.files w'.files := by
  have hcompile {program : Program} (h : (compiler.compile source).result = .ok program)
      (hmode : o.emit = .tac ∨ o.emit = .dump) :=
    runs_compile h fun path hpath => hfree path ⟨hpath, hmode⟩
  have hnone (hmode : ¬ (o.emit = .tac ∨ o.emit = .dump)) (path : String) : ¬ o.Dumps path :=
    fun h => hmode h.2
  generalize hmode : o.emit = mode at hshows
  cases hshows with
  | tokens htokens =>
    refine ⟨w.print _, ?_, rfl, leaves_of_files_eq (hnone (by simp [hmode])) rfl⟩
    simp only [Options.emitAs, htokens]
    exact runs_printLines _ w
  | sets =>
    refine ⟨w.print _, ?_, rfl, leaves_of_files_eq (hnone (by simp [hmode])) rfl⟩
    exact (runs_perform o (pure sets.toDocument) w).bind (runs_print _ w)
  | table =>
    refine ⟨_, (runs_printLines _ w).bind (runs_printLines _ _), ?_,
      leaves_of_files_eq (hnone (by simp [hmode])) rfl⟩
    rw [print_print, unlines, unlines, unlines, List.map_append, String.join_append]
    rfl
  | tree htree =>
    refine ⟨w.print _, ?_, rfl, leaves_of_files_eq (hnone (by simp [hmode])) rfl⟩
    have hrun := runs_perform o (compiler.parse source) w
    rw [htree] at hrun
    exact hrun.bind (runs_print _ w)
  | tac hprogram =>
    exact ⟨_, (hcompile hprogram (.inl hmode)).bind (runs_printLines _ _), stdout_compile,
      leaves_of_compile hprogram (.inl hmode)⟩
  | dump hprogram =>
    exact ⟨_, (hcompile hprogram (.inr hmode)).bind (runs_print _ _), stdout_compile,
      leaves_of_compile hprogram (.inr hmode)⟩

theorem runs_emitAs_error (h : (∀ text, ¬ Shows compiler sets source o.emit text) ∨
      ∃ path reason, o.Dumps path ∧ w.locked path = some reason) :
    ∃ e, Runs (o.emitAs compiler sets source o.emit) w (.error e) w := by
  have hcompile (hshows : ∀ program, (compiler.compile source).result = .ok program →
        ∃ text, Shows compiler sets source o.emit text) :
      ∃ e, Runs (o.compile compiler source) w (.error e) w := by
    apply runs_compile_error
    obtain h | ⟨path, reason, hpath, hlocked⟩ := h
    · refine .inl ?_
      cases hresult : (compiler.compile source).result with
      | error e => exact ⟨e, rfl⟩
      | ok program =>
        obtain ⟨text, htext⟩ := hshows program hresult
        exact absurd htext (h text)
    · exact .inr ⟨path, reason, hpath.1, hlocked⟩
  have hstop (hmode : ¬ (o.emit = .tac ∨ o.emit = .dump)) (text : String) :
      ¬ Shows compiler sets source o.emit text := by
    obtain h | ⟨path, reason, hpath, -⟩ := h
    · exact h text
    · exact absurd hpath.2 hmode
  generalize hmode : o.emit = mode at hcompile hstop
  cases mode with
  | tokens =>
    rw [Options.emitAs]
    cases htokens : tokenize source with
    | ok tokens => exact absurd (.tokens htokens) (hstop (by simp) _)
    | error e => exact ⟨_, runs_throw _ w⟩
  | sets => exact absurd .sets (hstop (by simp) _)
  | table => exact absurd .table (hstop (by simp) _)
  | tree =>
    have hrun := runs_perform o (compiler.parse source) w
    cases htree : (compiler.parse source).result with
    | ok tree => exact absurd (.tree htree) (hstop (by simp) _)
    | error e =>
      rw [htree] at hrun
      exact ⟨e, hrun.bind_error⟩
  | tac =>
    obtain ⟨e, he⟩ := hcompile fun program h => ⟨_, .tac h⟩
    exact ⟨e, he.bind_error⟩
  | dump =>
    obtain ⟨e, he⟩ := hcompile fun program h => ⟨_, .dump h⟩
    exact ⟨e, he.bind_error⟩

end Emission

namespace Options

def Compiles (o : Options) (w : World) (program : Program) : Prop :=
  ∃ source sets compiler, o.Prepares w source sets compiler ∧
    (compiler.compile source).result = .ok program

def Produces (o : Options) (w : World) (text : String) : Prop :=
  ∃ source sets compiler, o.Prepares w source sets compiler ∧
    Shows compiler sets source o.emit text

def exitCode (o : Options) (w : World) : Nat := ((o.main : StateM World Nat) w).1

def after (o : Options) (w : World) : World := ((o.main : StateM World Nat) w).2

/-- A run comes to nothing, or to all that was asked for. -/
structure AllOrNothing (o : Options) (w : World) : Prop where
  exit : o.exitCode w = 0 ∨ o.exitCode w = 1
  /-- Success means that all stages were passed and that a dump, if it is due, can be written. -/
  success : o.exitCode w = 0 ↔
    (∃ text, o.Produces w text) ∧ ∀ path, o.Dumps path → w.locked path = none
  nothing : o.exitCode w = 1 → (o.after w).stdout = w.stdout ∧ (o.after w).files = w.files
  printed : o.exitCode w = 0 → ∃ text, o.Produces w text ∧ (o.after w).stdout = w.stdout ++ text
  /-- A file is there after success if it was there before or is the dump. -/
  dumped : o.exitCode w = 0 → ∀ path, (∃ text, (o.after w).files path = .ok text) ↔
    (∃ text, w.files path = .ok text) ∨ o.Dumps path
  kept : ∀ path, ¬ o.Dumps path → (o.after w).files path = w.files path
  /-- What is dumped is the compiled program, as it is printed on request. -/
  contents : o.exitCode w = 0 → ∀ path, o.Dumps path → ∃ program, o.Compiles w program ∧
    (o.after w).files path = .ok program.dumpText ∧
    ∀ (w' : World) (dumpPath : Option String) (verbosity : Nat), w'.files = w.files →
      (∀ path ∈ dumpPath, w'.locked path = none) →
      let o' : Options := { o with emit := .dump, dumpPath := dumpPath, verbosity := verbosity }
      o'.exitCode w' = 0 ∧ (o'.after w').stdout = w'.stdout ++ program.dumpText

variable {o : Options} {w w' : World}

theorem main_of_runs {r : Except CompileError Unit} (h : Runs o.run w r w') :
    o.exitCode w = (match r with | .ok _ => 0 | .error _ => 1) ∧
      (o.after w).stdout = w'.stdout ∧ (o.after w).files = w'.files := by
  obtain ⟨err, herr⟩ := h w.stderr
  -- The world with its own stderr is the world itself.
  have hrun : (o.run : ExceptT CompileError (StateM World) Unit) w =
      (r, { w' with stderr := err }) := herr
  simp only [exitCode, after, main, bind, StateT.bind, ExceptT.run, hrun]
  cases r <;> exact ⟨rfl, rfl, rfl⟩

theorem runs_of_shows {source : String} {sets : FirstFollow} {compiler : Compiler} {text : String}
    (hprepares : o.Prepares w source sets compiler)
    (hshows : Shows compiler sets source o.emit text)
    (hfree : ∀ path, o.Dumps path → w.locked path = none) :
    ∃ w', Runs o.run w (.ok ()) w' ∧ w'.stdout = w.stdout ++ text ∧
      o.Leaves compiler source w.files w'.files := by
  obtain ⟨r, hrun, hr⟩ := o.decides_prepare (w := w)
  rw [(hr (source, sets, compiler)).2 hprepares] at hrun
  obtain ⟨w', hemit, hstdout, hleaves⟩ := runs_emitAs hshows hfree
  exact ⟨w', hrun.bind hemit, hstdout, hleaves⟩

theorem runs_error (h : ¬ ((∃ text, o.Produces w text) ∧
      ∀ path, o.Dumps path → w.locked path = none)) : ∃ e, Runs o.run w (.error e) w := by
  obtain ⟨e | ⟨source, sets, compiler⟩, hrun, hr⟩ := o.decides_prepare (w := w)
  · exact ⟨e, hrun.bind_error⟩
  · have hprepares := (hr _).1 rfl
    have hemit : ∃ e, Runs (o.emitAs compiler sets source o.emit) w (.error e) w := by
      apply runs_emitAs_error
      by_cases hshows : ∃ text, Shows compiler sets source o.emit text
      · obtain ⟨text, htext⟩ := hshows
        refine .inr (Classical.byContradiction fun hno => h ⟨⟨text, _, _, _, hprepares, htext⟩, ?_⟩)
        intro path hpath
        cases hlocked : w.locked path with
        | none => rfl
        | some reason => exact absurd ⟨path, reason, hpath, hlocked⟩ hno
      · exact .inl fun text htext => hshows ⟨text, htext⟩
    obtain ⟨e, he⟩ := hemit
    exact ⟨e, hrun.bind he⟩

/-- What is read depends on the files and on the options that name them. -/
theorem Prepares.of_files_eq {source : String} {sets : FirstFollow} {compiler : Compiler}
    {mode : EmitMode} {dumpPath : Option String} {verbosity : Nat}
    (h : o.Prepares w source sets compiler) (hfiles : w'.files = w.files) :
    Prepares { o with emit := mode, dumpPath := dumpPath, verbosity := verbosity } w' source sets
      compiler := by
  have hsupplied {α : Type} (given : Option String) (read : String → α → Prop) (default value : α) :
      Supplied w' given read default value = Supplied w given read default value := by
    simp only [Supplied, hfiles]
  obtain ⟨hsource, grammar, hgrammar, hsets, hcompiler⟩ := h
  refine ⟨?_, grammar, ?_, ?_, hcompiler⟩ <;> rwa [hsupplied]

/-- Where the source compiles, the mode that dumps prints the program. -/
theorem Compiles.printed {program : Program} (h : o.Compiles w program) (hmode : o.emit = .dump)
    (hfree : ∀ path ∈ o.dumpPath, w.locked path = none) :
    o.exitCode w = 0 ∧ (o.after w).stdout = w.stdout ++ program.dumpText := by
  obtain ⟨source, sets, compiler, hprepares, hprogram⟩ := h
  have hshows : Shows compiler sets source o.emit program.dumpText := hmode ▸ .dump hprogram
  obtain ⟨w', hrun, hstdout, -⟩ := runs_of_shows hprepares hshows fun path h => hfree path h.1
  obtain ⟨hexit, hout, -⟩ := main_of_runs hrun
  exact ⟨hexit, hout.trans hstdout⟩

/-- The command line is all or nothing, whatever it is given, whichever files are missing and
whether or not the dump can be written. -/
theorem all_or_nothing (o : Options) (w : World) : o.AllOrNothing w := by
  by_cases h : (∃ text, o.Produces w text) ∧ ∀ path, o.Dumps path → w.locked path = none
  · obtain ⟨⟨text, source, sets, compiler, hprepares, hshows⟩, hfree⟩ := id h
    obtain ⟨w', hrun, hstdout, hleaves⟩ := runs_of_shows hprepares hshows hfree
    obtain ⟨hexit, hout, hfiles⟩ := main_of_runs hrun
    rw [← hfiles] at hleaves
    exact {
      exit := .inl hexit
      success := iff_of_true hexit h
      nothing := fun h => absurd (hexit.symm.trans h) Nat.zero_ne_one
      printed := fun _ => ⟨text, ⟨source, sets, compiler, hprepares, hshows⟩, hout.trans hstdout⟩
      dumped := fun _ path => by
        by_cases hpath : o.Dumps path
        · obtain ⟨program, -, hwritten⟩ := hleaves.dumped path hpath
          exact iff_of_true ⟨_, hwritten⟩ (.inr hpath)
        · rw [hleaves.kept path hpath, or_iff_left hpath]
      kept := hleaves.kept
      contents := fun _ path hpath => by
        obtain ⟨program, hprogram, hwritten⟩ := hleaves.dumped path hpath
        refine ⟨program, ⟨source, sets, compiler, hprepares, hprogram⟩, hwritten, ?_⟩
        intro w' dumpPath verbosity hsame hfree' o'
        have hprepares' : o'.Prepares w' source sets compiler := hprepares.of_files_eq hsame
        exact Compiles.printed ⟨source, sets, compiler, hprepares', hprogram⟩ rfl hfree' }
  · obtain ⟨e, hrun⟩ := runs_error h
    obtain ⟨hexit, hout, hfiles⟩ := main_of_runs hrun
    have hne : o.exitCode w ≠ 0 := by rw [hexit]; exact Nat.one_ne_zero
    exact {
      exit := .inr hexit
      success := iff_of_false hne h
      nothing := fun _ => ⟨hout, hfiles⟩
      printed := fun h => absurd h hne
      dumped := fun h => absurd h hne
      kept := fun path _ => congrFun hfiles path
      contents := fun h => absurd h hne }

end Options

end Lookahead.CommandLine
