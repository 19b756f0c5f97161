/-
# TraceLang.Proofs.Output — what a writer has taken

Every request adds to what was printed: a text that is taken as a whole, what was
taken of a text before it was refused, and nothing for a flush (`printed_ask`).

What is known of the writers of hosts are assumptions about their refusals. An
output `Works` if nothing is refused from now on. A writer is `AllOrNothing` if it
takes nothing of a text that it refuses and can flush each text that it has taken.
-/
import TraceLang.Output

namespace TraceLang

set_option autoImplicit false

namespace Writer

theorem pieces_eq_append (w : Writer) (asked : List Request) : ∀ later : List ByteArray,
    w.pieces asked later = w.pieces asked [] ++ later := by
  induction asked with
  | nil => exact fun _ => rfl
  | cons r asked ih =>
    intro later
    simp only [pieces]
    rw [ih (_ :: later), ih [_], List.append_assoc, List.singleton_append]

theorem printed_cons (w : Writer) (r : Request) (asked : List Request) :
    w.printed (r :: asked) = w.printed asked ++ w.taken asked r := by
  simp only [printed, pieces]
  rw [pieces_eq_append, List.foldl_append, List.foldl_cons, List.foldl_nil]

theorem taken_of_accepted {w : Writer} {asked : List Request} {text : String}
    (accepted : w.refusal? asked (.write text) = none) :
    w.taken asked (.write text) = text.toByteArray := by
  simp only [taken, accepted]

end Writer

namespace Output

variable {o : Output}

theorem printed_ask (o : Output) (r : Request) :
    (o.ask r).printed = o.printed ++ o.writer.taken o.asked r :=
  o.writer.printed_cons r o.asked

theorem printed_flush (o : Output) : (o.ask .flush).printed = o.printed := by
  rw [printed_ask, Writer.taken, ByteArray.append_empty]

/-- A text is not printed: it is refused, or it is taken and cannot be flushed. The last
argument is the output after that. -/
inductive Refuses (o : Output) (text : String) (refusal : Refusal) : Output → Prop
  | write (refused : o.refusal? (.write text) = some refusal) :
    Refuses o text refusal (o.ask (.write text))
  | flush (accepted : o.refusal? (.write text) = none)
    (refused : (o.ask (.write text)).refusal? .flush = some refusal) :
    Refuses o text refusal ((o.ask (.write text)).ask .flush)

/-- Nothing is refused from now on. -/
def Works (o : Output) : Prop :=
  ∀ later r, o.writer.refusal? (later ++ o.asked) r = none

theorem works_buffer (asked : List Request) : Works { asked } :=
  fun _ _ => rfl

theorem Works.refusal? (works : o.Works) (r : Request) : o.refusal? r = none :=
  works [] r

theorem Works.ask (works : o.Works) (r : Request) : (o.ask r).Works := by
  intro later r'
  have accepted := works (later ++ [r]) r'
  rwa [List.append_assoc] at accepted

/-- The second output goes on from the first one with some text. -/
structure Adds (o : Output) (text : String) (o' : Output) : Prop where
  writer : o'.writer = o.writer
  printed : o'.printed = o.printed ++ text.toByteArray

theorem adds_nothing (o : Output) : o.Adds "" o :=
  ⟨rfl, by rw [String.toByteArray_empty, ByteArray.append_empty]⟩

theorem adds_flush (o : Output) : o.Adds "" (o.ask .flush) :=
  ⟨rfl, by rw [printed_flush, String.toByteArray_empty, ByteArray.append_empty]⟩

theorem Works.adds_write (works : o.Works) (text : String) :
    o.Adds text (o.ask (.write text)) :=
  ⟨rfl, by rw [printed_ask, Writer.taken_of_accepted (works.refusal? _)]⟩

theorem Adds.trans {o' o'' : Output} {text text' : String} (first : o.Adds text o')
    (second : o'.Adds text' o'') : o.Adds (text ++ text') o'' where
  writer := second.writer.trans first.writer
  printed := by
    rw [second.printed, first.printed, String.toByteArray_append, ByteArray.append_assoc]

end Output

end TraceLang
