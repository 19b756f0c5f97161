/-
# TraceLang.Proofs.Syntax.Lexing — a text read piece by piece

The lexer goes over a text one character at a time and counts down those that belong
to a piece it has already recognized. `Scans offset cs ts` is the same thing said of
whole pieces: from the byte `offset` on, the text `cs` is a sequence of blanks and
tokens, and `ts` are the tokens with their places. `tokenize_eq_ok_iff` says that the
two agree.

So the places of the lexemes of a source follow one another (`InOrder`): none of them
is empty, and each ends before the next one begins.
-/
import TraceLang.Syntax.Lexer

namespace TraceLang

set_option autoImplicit false

/-- No lexeme is empty, and each one ends before the next one begins. -/
def InOrder (ls : List Lexeme) : Prop :=
  (∀ l ∈ ls, l.span.start < l.span.stop) ∧ ls.Pairwise fun l l' => l.span.stop ≤ l'.span.start

namespace Lexer

/-! ## Lengths in bytes -/

theorem byteLength_cons (c : Char) (cs : List Char) :
    byteLength (c :: cs) = c.utf8Size + byteLength cs := by
  have from_any (n : Nat) (cs : List Char) :
      cs.foldl (fun n c => n + c.utf8Size) n = n + byteLength cs := by
    unfold byteLength
    induction cs generalizing n with
    | nil => rfl
    | cons c cs ih => rw [List.foldl_cons, List.foldl_cons, ih, ih (0 + _)]; omega
  rw [byteLength, List.foldl_cons, from_any, Nat.zero_add]

@[simp] theorem byteLength_nil : byteLength [] = 0 :=
  rfl

theorem byteLength_cons_pos (c : Char) (cs : List Char) : 0 < byteLength (c :: cs) := by
  rw [byteLength_cons]
  exact Nat.lt_of_lt_of_le c.utf8Size_pos (Nat.le_add_right _ _)

/-! ## Pieces -/

/-- The text, which begins at a byte, is a sequence of blanks and tokens. -/
inductive Scans : Nat → List Char → List Lexeme → Prop
  | done {offset : Nat} : Scans offset [] []
  | blank {offset more : Nat} {c : Char} {rest : List Char} {ts : List Lexeme}
    (piece : munch c rest = .blank more)
    (others : Scans (offset + byteLength (c :: rest.take more)) (rest.drop more) ts) :
    Scans offset (c :: rest) ts
  | token {offset more : Nat} {t : Token} {c : Char} {rest : List Char} {ts : List Lexeme}
    (piece : munch c rest = .token t more)
    (others : Scans (offset + byteLength (c :: rest.take more)) (rest.drop more) ts) :
    Scans offset (c :: rest)
      (⟨t, { start := offset, stop := offset + byteLength (c :: rest.take more) }⟩ :: ts)

/-- The characters of a piece that was recognized are passed over. -/
theorem scan_skip (offset skip : Nat) (found : List Lexeme) (cs : List Char) :
    scan offset skip found cs =
      scan (offset + byteLength (cs.take skip)) 0 found (cs.drop skip) := by
  induction cs generalizing offset skip with
  | nil => simp [scan]
  | cons c rest ih =>
    cases skip with
    | zero => simp
    | succ k =>
      rw [scan, ih, List.take_succ_cons, List.drop_succ_cons, byteLength_cons, Nat.add_assoc]

theorem scan_blank {offset more : Nat} {found : List Lexeme} {c : Char} {rest : List Char}
    (piece : munch c rest = .blank more) :
    scan offset 0 found (c :: rest) =
      scan (offset + byteLength (c :: rest.take more)) 0 found (rest.drop more) := by
  rw [scan, piece, byteLength_cons, ← Nat.add_assoc]
  exact scan_skip _ _ _ _

theorem scan_token {offset more : Nat} {found : List Lexeme} {t : Token} {c : Char}
    {rest : List Char} (piece : munch c rest = .token t more) :
    scan offset 0 found (c :: rest) =
      scan (offset + byteLength (c :: rest.take more)) 0
        (⟨t, { start := offset, stop := offset + byteLength (c :: rest.take more) }⟩ :: found)
        (rest.drop more) := by
  rw [scan, piece, byteLength_cons, ← Nat.add_assoc]
  exact scan_skip _ _ _ _

theorem Scans.scan_eq {offset : Nat} {cs : List Char} {ts : List Lexeme} (scans : Scans offset cs ts)
    (found : List Lexeme) : scan offset 0 found cs = .ok (found.reverse ++ ts) := by
  induction scans generalizing found with
  | done => simp [scan]
  | blank piece others ih => rw [scan_blank piece, ih]
  | token piece others ih => simp [scan_token piece, ih]

/-- What the lexer accepts is a sequence of pieces. The induction is on a bound for the
length, since a piece may have any number of characters. -/
theorem scans_of_scan {n offset : Nat} {found : List Lexeme} {cs : List Char} {ts : List Lexeme}
    (short : cs.length ≤ n) (accepted : scan offset 0 found cs = .ok ts) :
    ∃ later, ts = found.reverse ++ later ∧ Scans offset cs later := by
  induction n generalizing offset found cs with
  | zero =>
    obtain rfl : cs = [] := List.length_eq_zero_iff.mp (Nat.le_zero.mp short)
    cases accepted
    exact ⟨[], by simp, .done⟩
  | succ n ih =>
    cases cs with
    | nil =>
      cases accepted
      exact ⟨[], by simp, .done⟩
    | cons c rest =>
      have shorter (more : Nat) : (rest.drop more).length ≤ n := by
        rw [List.length_drop]
        rw [List.length_cons] at short
        omega
      cases piece : munch c rest with
      | blank more =>
        rw [scan_blank piece] at accepted
        obtain ⟨later, rfl, scans⟩ := ih (shorter more) accepted
        exact ⟨later, rfl, .blank piece scans⟩
      | token t more =>
        rw [scan_token piece] at accepted
        obtain ⟨later, rfl, scans⟩ := ih (shorter more) accepted
        exact ⟨_, by simp, .token piece scans⟩
      | bad more =>
        rw [scan, piece] at accepted
        cases accepted

/-- The lexemes of a text that begins at a byte follow one another from there on. -/
theorem Scans.inOrder {offset : Nat} {cs : List Char} {ts : List Lexeme}
    (scans : Scans offset cs ts) : InOrder ts ∧ ∀ l ∈ ts, offset ≤ l.span.start := by
  induction scans with
  | done => simp [InOrder]
  | blank piece others ih =>
    refine ⟨ih.1, fun l mem => ?_⟩
    have later := ih.2 l mem
    omega
  | @token offset more t c rest ts piece others ih =>
    obtain ⟨⟨nonempty, ordered⟩, later⟩ := ih
    have wide := byteLength_cons_pos c (rest.take more)
    refine ⟨⟨?_, List.pairwise_cons.mpr ⟨fun l mem => later l mem, ordered⟩⟩, ?_⟩
    · intro l mem
      rcases List.mem_cons.mp mem with rfl | mem
      · show offset < offset + _
        omega
      · exact nonempty l mem
    · intro l mem
      rcases List.mem_cons.mp mem with rfl | mem
      · exact Nat.le_refl _
      · have behind := later l mem
        omega

end Lexer

theorem tokenize_eq_ok_iff {source : String} {ts : List Lexeme} :
    tokenize source = .ok ts ↔ Lexer.Scans 0 source.toList ts := by
  constructor
  · intro accepted
    obtain ⟨later, rfl, scans⟩ := Lexer.scans_of_scan (Nat.le_refl _) accepted
    exact scans
  · intro scans
    exact scans.scan_eq []

theorem tokenize_inOrder {source : String} {ts : List Lexeme} (accepted : tokenize source = .ok ts) :
    InOrder ts :=
  (tokenize_eq_ok_iff.mp accepted).inOrder.1

end TraceLang
