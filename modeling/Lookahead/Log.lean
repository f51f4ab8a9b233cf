import Lookahead.Error

namespace Lookahead

inductive Level
  | trace
  | debug
  | info
  | warn
deriving DecidableEq, Repr

namespace Level

def name : Level → String
  | trace => "TRACE"
  | debug => "DEBUG"
  | info => "INFO"
  | warn => "WARN"

def rank : Level → Nat
  | trace => 0
  | debug => 1
  | info => 2
  | warn => 3

end Level

inductive Channel
  | commandLine
  | compiler
  | sets
  | table
  | derivation
  | program
  | function
deriving DecidableEq, Repr

def Channel.path : Channel → String
  | commandLine => "ll1c"
  | compiler => "ll1_compiler::driver"
  | sets => "ll1_compiler::frontend::first_follow"
  | table => "ll1_compiler::frontend::table"
  | derivation => "ll1_compiler::frontend::parser"
  | program => "ll1_compiler::ir::ir_generator"
  | function => "ll1_compiler::ir::ir_generator::stmt"

structure Record where
  level : Level
  channel : Channel
  message : String
deriving DecidableEq, Repr

/-- One line, with the level in five columns; further lines of a message are indented. -/
def Record.text (r : Record) : String :=
  let level := r.level.name.pushn ' ' (5 - r.level.name.length)
  let message := r.message.toList.flatMap fun c => if c = '\n' then "\n    ".toList else [c]
  s!"[{level} {r.channel.path}] {String.ofList message}\n"

/-- A result with the records made on the way to it, also on the way to an error. -/
structure Logged (α : Type) where
  result : Except CompileError α
  log : List Record

namespace Logged

def bind {α β : Type} (x : Logged α) (f : α → Logged β) : Logged β :=
  match x.result with
  | .ok a => ⟨(f a).result, x.log ++ (f a).log⟩
  | .error e => ⟨.error e, x.log⟩

instance : Monad Logged where
  pure a := ⟨.ok a, []⟩
  bind := bind

def say (level : Level) (channel : Channel) (message : String) : Logged Unit :=
  ⟨.ok (), [⟨level, channel, message⟩]⟩

def fail {α : Type} (e : CompileError) : Logged α := ⟨.error e, []⟩

@[simp] theorem result_pure {α : Type} (a : α) : (pure a : Logged α).result = .ok a := rfl

@[simp] theorem result_bind {α β : Type} (x : Logged α) (f : α → Logged β) :
    (x >>= f).result = x.result >>= fun a => (f a).result := by
  change (bind x f).result = _
  unfold bind
  cases x.result <;> rfl

end Logged

end Lookahead
