namespace Lookahead.Text

/-- Lines end at a line feed, and a carriage return right before it belongs to the line's end. The
text after the last line feed is a line of its own unless it is empty. -/
def lines : List Char → List (List Char)
  | [] => []
  | '\r' :: '\n' :: rest => [] :: lines rest
  | '\n' :: rest => [] :: lines rest
  | c :: rest =>
    match lines rest with
    | [] => [[c]]
    | line :: more => (c :: line) :: more

/-- Numbers start at one. -/
def numberedLines (cs : List Char) : List (Nat × List Char) :=
  (lines cs).zipIdx.map fun p => (p.2 + 1, p.1)

def utf8Length (cs : List Char) : Nat :=
  cs.foldl (fun n c => n + c.utf8Size) 0

end Lookahead.Text
