namespace Lookahead

/-- What a command may do to its surroundings. Whole files are read and written, or the reason is
given why that fails. The log goes where errors are reported. -/
class Shell (m : Type → Type) where
  readFile (path : String) : m (Except String String)
  writeFile (path contents : String) : m (Except String Unit)
  print (text : String) : m Unit
  report (text : String) : m Unit
  log (line : String) : m Unit

/-- The surroundings as values: what reading each path gives, which paths cannot be written and
why, how a line of the log is shown, and what was printed and reported so far. -/
structure World where
  files : String → Except String String
  locked : String → Option String
  display : String → String
  stdout : String
  stderr : String

namespace World

def write (w : World) (path contents : String) : World :=
  { w with files := fun p => if p = path then .ok contents else w.files p }

def print (w : World) (text : String) : World := { w with stdout := w.stdout ++ text }

def report (w : World) (text : String) : World := { w with stderr := w.stderr ++ text }

end World

instance : Shell (StateM World) where
  readFile path := do return (← get).files path
  writeFile path contents w :=
    match w.locked path with
    | some reason => (.error reason, w)
    | none => (.ok (), w.write path contents)
  print text := modify (·.print text)
  report text := modify (·.report text)
  log line := modify fun w => w.report (w.display line)

end Lookahead
