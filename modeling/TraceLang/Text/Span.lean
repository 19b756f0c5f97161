/-
# TraceLang.Text.Span — places in a source text

A span is a half-open range of byte offsets into the UTF-8 form of a text.
`Span.lineColumn` turns the start of a span into the line and column a person
would count: lines and columns start at 1, a column is one character wide, and
an offset past the end of the text means its end.
-/

namespace TraceLang

set_option autoImplicit false

/-- A range of byte offsets; `stop` is the first offset behind it. -/
structure Span where
  start : Nat := 0
  stop : Nat := 0
deriving DecidableEq, Hashable, Repr, Inhabited

namespace Span

/-- The smallest range that covers both. -/
def merge (a b : Span) : Span :=
  { start := min a.start b.start, stop := max a.stop b.stop }

/-- The range as `start..stop`. -/
def text (s : Span) : String :=
  s!"{s.start}..{s.stop}"

/-- The range with its fields named, as compile errors show it. -/
def fields (s : Span) : String :=
  s!"Span \x7b start: {s.start}, end: {s.stop} \x7d"

/-- Walk `left` bytes into the characters, counting from the given line and
column. A walk that would end inside a character has no answer; one that
reaches the end of the text stays there. -/
def walk : List Char → (left line column : Nat) → Option (Nat × Nat)
  | _, 0, line, column => some (line, column)
  | [], _ + 1, line, column => some (line, column)
  | c :: rest, left + 1, line, column =>
    if c.utf8Size ≤ left + 1 then
      if c = '\n' then walk rest (left + 1 - c.utf8Size) (line + 1) 1
      else walk rest (left + 1 - c.utf8Size) line (column + 1)
    else none

/-- Line and column of the start of the span, none if it lies inside a
character. -/
def lineColumn (s : Span) (source : String) : Option (Nat × Nat) :=
  walk source.toList s.start 1 1

end Span

end TraceLang
