/-
# TraceLang.Output — where printed text goes

Printed text goes to a writer of the host. It is asked to take a text, or to flush
what it has taken. It may refuse either, and it may have taken a part of the text
before it does. What it answers can depend on all that it was asked before, and
nothing else is known of it: a buffer takes everything, a full disk nothing.
-/

namespace TraceLang

set_option autoImplicit false

/-- What a writer is asked for. -/
inductive Request
  | write (text : String)
  | flush
deriving DecidableEq, Repr

/-- The answer of a writer that does not do what it is asked for. -/
structure Refusal where
  reason : String
  /-- How many bytes of the text it has taken all the same. -/
  taken : Nat := 0
deriving DecidableEq, Repr

/-- A writer, known by its refusals. -/
structure Writer where
  /-- Whether and why it refuses a request, after the requests that it was asked
  before, the last one first. -/
  refusal? : List Request → Request → Option Refusal

namespace Writer

/-- A writer that takes everything. -/
def buffer : Writer where
  refusal? _ _ := none

/-- A writer that takes nothing, for the given reason. -/
def broken (reason : String) : Writer where
  refusal? _ _ := some { reason }

/-- The bytes that the writer takes when it is asked. -/
def taken (w : Writer) (asked : List Request) : Request → ByteArray
  | .flush => .empty
  | .write text =>
    match w.refusal? asked (.write text) with
    | none => text.toByteArray
    | some refusal => text.toByteArray.extract 0 refusal.taken

/-- The bytes taken at each request, the first one first, in front of later ones. -/
def pieces (w : Writer) : (asked : List Request) → (later : List ByteArray) → List ByteArray
  | [], later => later
  | r :: asked, later => w.pieces asked (w.taken asked r :: later)

/-- All bytes that the writer has taken when it was asked so much. -/
def printed (w : Writer) (asked : List Request) : ByteArray :=
  (w.pieces asked []).foldl (· ++ ·) .empty

end Writer

/-- A writer and all that it was asked so far, the last request first. -/
structure Output where
  writer : Writer := .buffer
  asked : List Request := []
deriving Inhabited

namespace Output

/-- Whether and why a request is refused now. -/
def refusal? (o : Output) (r : Request) : Option Refusal :=
  o.writer.refusal? o.asked r

/-- The output after one more request. -/
def ask (o : Output) (r : Request) : Output :=
  { o with asked := r :: o.asked }

/-- All bytes that were printed so far. -/
def printed (o : Output) : ByteArray :=
  o.writer.printed o.asked

/-- What was printed so far, as a text. -/
def text (o : Output) : String :=
  (String.fromUTF8? o.printed).getD ""

end Output

end TraceLang
