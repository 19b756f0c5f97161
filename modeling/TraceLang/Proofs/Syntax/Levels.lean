/-
# TraceLang.Proofs.Syntax.Levels — how deep the statements of a program stand

A statement at the top of a program stands on level 1, and one in a block stands one level
below the statement that the block belongs to. `prog.HoldsAt level rungs i` counts beside
the level the rungs on the way to `i`: the second branches that are nothing but one more
conditional.

The parser takes a level for each block, but none for an `else if`: it reads the conditional
behind `else` on the level of the first one. So the limit on the nesting holds for what is
left of the level without the rungs, and without the `else if`s of the source. There is no
limit on the level itself: a ladder of conditionals is accepted, however long
(`Ladder.parse_lexemes`).
-/
import TraceLang.Proofs.Syntax.Parts

namespace TraceLang

set_option autoImplicit false

/-! ## Levels -/

/-- The body of a loop or of a function, and the first branch of a conditional. -/
def Instr.mainBlock : Instr → List Instr
  | .whileLoop _ _ body | .forLoop _ _ _ _ body | .define _ _ _ body _
  | .conditional _ _ body _ => body
  | _ => []

/-- The second branch of a conditional. -/
def Instr.otherwise : Instr → List Instr
  | .conditional _ _ _ body => body
  | _ => []

/-- One, if the second branch is nothing but a conditional, as an `else if` makes it. -/
def Instr.rungs : Instr → Nat
  | .conditional _ _ _ [.conditional ..] => 1
  | _ => 0

/-- The program has this statement on the level, with so many rungs on the way to it. -/
inductive Program.HoldsAt (prog : Program) : (level rungs : Nat) → Instr → Prop
  | top {i : Instr} (mem : i ∈ prog.body) : prog.HoldsAt 1 0 i
  | inside {level rungs : Nat} {i j : Instr} (outer : prog.HoldsAt level rungs i)
    (mem : j ∈ i.mainBlock) : prog.HoldsAt (level + 1) rungs j
  | otherwise {level rungs : Nat} {i j : Instr} (outer : prog.HoldsAt level rungs i)
    (mem : j ∈ i.otherwise) : prog.HoldsAt (level + 1) (rungs + i.rungs) j

theorem Instr.exists_mem_blocks {i j : Instr} :
    (∃ block ∈ i.blocks, j ∈ block) ↔ j ∈ i.mainBlock ∨ j ∈ i.otherwise := by
  cases i <;> simp [Instr.blocks, Instr.mainBlock, Instr.otherwise]

/-- Every statement of a program stands on some level. -/
theorem Program.holds_iff_holdsAt {prog : Program} {i : Instr} :
    prog.Holds i ↔ ∃ level rungs, prog.HoldsAt level rungs i := by
  constructor
  · intro holds
    induction holds with
    | top mem => exact ⟨1, 0, .top mem⟩
    | inside _ of mem ih =>
      obtain ⟨level, rungs, outer⟩ := ih
      rcases Instr.exists_mem_blocks.mp ⟨_, of, mem⟩ with mem | mem
      · exact ⟨_, _, .inside outer mem⟩
      · exact ⟨_, _, .otherwise outer mem⟩
  · rintro ⟨level, rungs, holds⟩
    induction holds with
    | top mem => exact .top mem
    | inside _ mem ih =>
      obtain ⟨block, of, mem⟩ := Instr.exists_mem_blocks.mpr (.inl mem)
      exact .inside ih of mem
    | otherwise _ mem ih =>
      obtain ⟨block, of, mem⟩ := Instr.exists_mem_blocks.mpr (.inr mem)
      exact .inside ih of mem

/-! ## `else if` -/

/-- How often an `if` follows directly on an `else`. -/
def elseIfs : List Lexeme → Nat
  | l :: l' :: ls =>
    elseIfs (l' :: ls) + if l.token = .keyword .elseWord ∧ l'.token = .keyword .ifWord then 1 else 0
  | _ => 0

theorem elseIfs_le_cons (l : Lexeme) (ls : List Lexeme) : elseIfs ls ≤ elseIfs (l :: ls) := by
  cases ls with
  | nil => exact Nat.zero_le _
  | cons l' ls => exact Nat.le_add_right _ _

theorem elseIfs_le_append_left (ls ls' : List Lexeme) : elseIfs ls ≤ elseIfs (ls ++ ls') := by
  fun_induction elseIfs ls with
  | case1 l l' ls ih =>
    simp only [List.cons_append, elseIfs] at ih ⊢
    omega
  | case2 => exact Nat.zero_le _

theorem elseIfs_le_append_right (ls ls' : List Lexeme) : elseIfs ls' ≤ elseIfs (ls ++ ls') := by
  induction ls with
  | nil => exact Nat.le_refl _
  | cons l ls ih => exact Nat.le_trans ih (elseIfs_le_cons l _)

theorem elseIfs_mono {ls ls' : List Lexeme} (infixed : ls <:+: ls') :
    elseIfs ls ≤ elseIfs ls' := by
  obtain ⟨before, behind, rfl⟩ := infixed
  exact Nat.le_trans (elseIfs_le_append_right before ls) (elseIfs_le_append_left _ behind)

namespace Grammar

variable {d d' : Nat} {ls ls' : List Lexeme} {i j : Instr} {body : List Instr}

theorem Conditional.elseIfs_lt {f : Span → Instr} (derived : Conditional ls f) (place : Span) :
    elseIfs ls < elseIfs (⟨.keyword .elseWord, place⟩ :: ls) := by
  obtain ⟨ofCond, ofTrue, ofFalse⟩ := derived
  simp [elseIfs]

/-! ## Levels of the parser -/

/-- The second branch is one more conditional that an `else if` of the lexemes begins. It is
read with as many levels as the whole. -/
def HasRung (d : Nat) (ls : List Lexeme) (body : List Instr) : Prop :=
  ∃ span cond onTrue onFalse, body = [.conditional span cond onTrue onFalse] ∧
    ∃ d' ≤ d, ∃ ls', Clause d' ls' (.conditional span cond onTrue onFalse) ∧
      elseIfs ls' < elseIfs ls

theorem HasRung.mono (has : HasRung d ls body) (more : d ≤ d') (longer : ls <:+: ls') :
    HasRung d' ls' body := by
  obtain ⟨span, cond, onTrue, onFalse, rfl, d₀, enough, run, clause, fewer⟩ := has
  exact ⟨span, cond, onTrue, onFalse, rfl, d₀, Nat.le_trans enough more, run, clause,
    Nat.lt_of_lt_of_le fewer (elseIfs_mono longer)⟩

theorem Otherwise.levels (derived : Otherwise ls body) :
    ∃ d, OtherwiseRead d ls body ∧ (HasRow d ls body ∨ HasRung d ls body) := by
  cases derived with
  | nothing => exact ⟨0, otherwiseRead_nothing, .inl ⟨[], List.infix_refl _, .nil⟩⟩
  | block inner =>
    obtain ⟨d, read, row⟩ := inner.row
    exact ⟨d, otherwiseRead_block inner read,
      .inl (row.mono (Nat.le_refl d) (infix_in_tail (List.infix_refl _)))⟩
  | @conditional place ls f inner =>
    obtain ⟨d, -, read⟩ := inner.read
    have clause : Clause d ls (f (extent ls)) :=
      ⟨f, .conditional inner, statementRead_conditional inner read, rfl⟩
    have fewer := inner.elseIfs_lt place
    refine ⟨d, otherwiseRead_conditional inner read, .inr ?_⟩
    cases inner
    exact ⟨_, _, _, _, rfl, d, Nat.le_refl d, _, clause, fewer⟩

/-- The blocks of a statement are read with fewer levels than the statement, up to a rung. -/
structure Leveled (d : Nat) (ls : List Lexeme) (i : Instr) : Prop where
  mainBlock : HasRow d ls i.mainBlock
  otherwise : HasRow d ls i.otherwise ∨ HasRung d ls i.otherwise

theorem hasRow_nil : HasRow d ls [] :=
  ⟨ls, List.infix_refl _, .nil⟩

theorem Leveled.of_mainBlock (row : HasRow d ls i.mainBlock) (single : i.otherwise = []) :
    Leveled d ls i where
  mainBlock := row
  otherwise := .inl (single ▸ hasRow_nil)

theorem Statement.levels_of_blockless {f : Span → Instr} (derived : Statement ls f)
    (noMain : ∀ span, (f span).mainBlock = []) (noSecond : ∀ span, (f span).otherwise = []) :
    ∃ d, StatementRead d ls f ∧ ∀ span, Leveled d ls (f span) := by
  obtain ⟨d, -, read⟩ := derived.read
  exact ⟨d, read, fun span => .of_mainBlock (noMain span ▸ hasRow_nil) (noSecond span)⟩

theorem Statement.levels {f : Span → Instr} (derived : Statement ls f) :
    ∃ d, StatementRead d ls f ∧ ∀ span, Leveled d ls (f span) := by
  cases derived with
  | define ofParams ofBody =>
    obtain ⟨d, read, row⟩ := ofBody.row
    refine ⟨d, statementRead_define ofParams read, fun span => .of_mainBlock ?_ rfl⟩
    exact row.mono (Nat.le_refl d) (infix_in_right (infix_in_tail (List.infix_refl _)))
  | conditional inner =>
    obtain ⟨ofCond, ofTrue, ofFalse⟩ := id inner
    obtain ⟨d, -, cond⟩ := ofCond.recognized
    obtain ⟨d', readTrue, row⟩ := ofTrue.row
    obtain ⟨d'', readFalse, second⟩ := ofFalse.levels
    refine ⟨_, statementRead_conditional inner (conditionalRead_mk cond ofTrue readTrue readFalse),
      fun span => ⟨?_, ?_⟩⟩
    · exact row.mono (by omega) (infix_in_left (infix_in_right (List.infix_refl _)))
    · exact second.imp (·.mono (by omega) (infix_in_right (List.infix_refl _)))
        (·.mono (by omega) (infix_in_right (List.infix_refl _)))
  | whileLoop ofCond ofBody =>
    obtain ⟨d, -, cond⟩ := ofCond.recognized
    obtain ⟨d', read, row⟩ := ofBody.row
    refine ⟨_, statementRead_whileLoop cond ofBody read, fun span => .of_mainBlock ?_ rfl⟩
    exact row.mono (Nat.le_max_right _ _) (infix_in_right (List.infix_refl _))
  | forLoop ofInit ofCond ofStep ofBody =>
    obtain ⟨d, -, readInit⟩ := ofInit.read
    obtain ⟨d', -, cond⟩ := ofCond.recognized
    obtain ⟨d'', -, readStep⟩ := ofStep.read
    obtain ⟨dBody, read, row⟩ := ofBody.row
    refine ⟨_, statementRead_forLoop readInit cond readStep read,
      fun span => .of_mainBlock ?_ rfl⟩
    exact row.mono (by omega) (infix_in_right (infix_in_tail (List.infix_refl _)))
  | simple inner =>
    refine Statement.levels_of_blockless (.simple inner) ?_ ?_
    · cases inner <;> exact fun _ => rfl
    · cases inner <;> exact fun _ => rfl
  | trace ofTargets =>
    exact (Statement.trace ofTargets).levels_of_blockless (fun _ => rfl) fun _ => rfl
  | result ofValue =>
    exact (Statement.result ofValue).levels_of_blockless (fun _ => rfl) fun _ => rfl
  | leave => exact Statement.leave.levels_of_blockless (fun _ => rfl) fun _ => rfl
  | again => exact Statement.again.levels_of_blockless (fun _ => rfl) fun _ => rfl
  | stop => exact Statement.stop.levels_of_blockless (fun _ => rfl) fun _ => rfl

theorem Clause.leveled (clause : Clause d ls i) : Leveled d ls i := by
  obtain ⟨f, derived, read, rfl⟩ := clause
  obtain ⟨d', read', leveled⟩ := derived.levels
  rw [read.unique read']
  exact leveled _

theorem HasRow.clause (has : HasRow d ls body) (mem : i ∈ body) :
    ∃ d' < d, ∃ ls', ls' <:+: ls ∧ Clause d' ls' i := by
  obtain ⟨run, infixed, row⟩ := has
  obtain ⟨d', fewer, ls', inside, clause⟩ := row.clause mem
  exact ⟨d', fewer, ls', inside.trans infixed, clause⟩

end Grammar

/-! ## Levels that are left -/

section

open Grammar

variable {size level rungs : Nat} {ts : List Lexeme} {prog : Program} {i : Instr}

/-- The statement can be read with what is left of the levels, and what it has of `else if`s
was not passed on the way to it. -/
structure Fits (ts : List Lexeme) (level rungs d : Nat) (ls : List Lexeme) : Prop where
  rungs : level + d ≤ maxNesting + rungs
  elseIfs : level + d + elseIfs ls ≤ maxNesting + elseIfs ts

theorem Fits.deeper {d d' : Nat} {ls ls' : List Lexeme} (fits : Fits ts level rungs d ls)
    (fewer : d' < d) (infixed : ls' <:+: ls) (more : Nat) :
    Fits ts (level + 1) (rungs + more) d' ls' := by
  obtain ⟨_, _⟩ := fits
  have := elseIfs_mono infixed
  exact ⟨by omega, by omega⟩

theorem clause_of_holdsAt (parsed : parse size ts = .ok prog)
    (holds : prog.HoldsAt level rungs i) : ∃ d ls, Clause d ls i ∧ Fits ts level rungs d ls := by
  induction holds with
  | top mem =>
    obtain ⟨d, fewer, ls, infixed, clause⟩ := (row_of_parse parsed).clause mem
    have := elseIfs_mono infixed
    exact ⟨d, ls, clause, by omega, by omega⟩
  | inside _ mem ih =>
    obtain ⟨d, ls, clause, fits⟩ := ih
    obtain ⟨d', fewer, ls', infixed, clause'⟩ := clause.leveled.mainBlock.clause mem
    exact ⟨d', ls', clause', fits.deeper fewer infixed 0⟩
  | @otherwise level rungs i j _ mem ih =>
    obtain ⟨d, ls, clause, fits⟩ := ih
    rcases clause.leveled.otherwise with row | ⟨span, cond, onTrue, onFalse, only, rung⟩
    · obtain ⟨d', fewer, ls', infixed, clause'⟩ := row.clause mem
      exact ⟨d', ls', clause', fits.deeper fewer infixed i.rungs⟩
    · -- the level of the conditional behind `else` is paid for by the rung
      obtain ⟨d', enough, ls', clause', fewer⟩ := rung
      rw [only, List.mem_singleton] at mem
      have one : i.rungs = 1 := by
        cases i <;> cases only
        rfl
      obtain ⟨_, _⟩ := fits
      exact ⟨d', ls', mem ▸ clause', by omega, by omega⟩

/-! ## Ladders -/

namespace Ladder

/-- The lexemes of `if true`, with an empty block behind it. -/
def rung : List Lexeme :=
  [⟨.keyword .ifWord, {}⟩, ⟨.keyword .trueWord, {}⟩, ⟨.symbol .lBrace, {}⟩, ⟨.symbol .rBrace, {}⟩]

/-- The rung, and as many more behind an `else` each. -/
def lexemes : Nat → List Lexeme
  | 0 => rung
  | n + 1 => rung ++ ⟨.keyword .elseWord, {}⟩ :: lexemes n

/-- What a ladder is read as. -/
def tree : Nat → Span → Instr
  | 0, span => .conditional span (.bool {} true) [] []
  | n + 1, span => .conditional span (.bool {} true) [] [tree n (extent (lexemes n))]

theorem rungs_tree (n : Nat) (span : Span) : (tree (n + 1) span).rungs = 1 := by
  cases n <;> rfl

theorem forms_true : Layer.whole.Forms 0 [⟨.keyword .trueWord, {}⟩] (.bool {} true) :=
  Layer.Forms.whole ⟨.literal .yes, recognizes_literal .yes⟩

theorem block_empty : Block [⟨.symbol .lBrace, {}⟩, ⟨.symbol .rBrace, {}⟩] [] :=
  .mk .close

theorem blockRead_empty : BlockRead 0 [⟨.symbol .lBrace, {}⟩, ⟨.symbol .rBrace, {}⟩] [] :=
  blockRead_mk bodyRead_close

theorem conditional_lexemes (n : Nat) : Conditional (lexemes n) (tree n) := by
  induction n with
  | zero => exact .mk forms_true.derived block_empty .nothing
  | succ n ih => exact .mk forms_true.derived block_empty (.conditional ih)

/-- A ladder is read on one level, however long it is. -/
theorem conditionalRead_lexemes (n : Nat) : ConditionalRead 1 (lexemes n) (tree n) := by
  have ofCond := forms_true.recognized
  induction n with
  | zero => exact conditionalRead_mk ofCond block_empty blockRead_empty otherwiseRead_nothing
  | succ n ih =>
    exact conditionalRead_mk ofCond block_empty blockRead_empty
      (otherwiseRead_conditional (conditional_lexemes n) ih)

theorem parse_lexemes (size n : Nat) :
    parse size (lexemes n) = .ok { body := [tree n (extent (lexemes n))] } := by
  have derived : Statement (lexemes n) (tree n) := .conditional (conditional_lexemes n)
  have read := statementRead_conditional (conditional_lexemes n) (conditionalRead_lexemes n)
  have program := programRead_more derived .done read programRead_done
  rw [List.append_nil] at program
  exact (parse_of_programRead program size).2 (by decide)

/-- The last rung stands below all others. -/
theorem holdsAt_tree (n : Nat) {span : Span} (holds : prog.HoldsAt level rungs (tree n span)) :
    ∃ i, prog.HoldsAt (level + n) (rungs + n) i := by
  induction n generalizing level rungs span with
  | zero => exact ⟨_, holds⟩
  | succ n ih =>
    have next := Program.HoldsAt.otherwise holds (List.mem_singleton.mpr rfl)
    rw [rungs_tree] at next
    obtain ⟨i, last⟩ := ih next
    exact ⟨i, by simpa only [Nat.add_assoc, Nat.add_comm 1] using last⟩

theorem holdsAt_lexemes (size n : Nat) :
    ∃ prog i, parse size (lexemes n) = .ok prog ∧ prog.HoldsAt (n + 1) n i := by
  obtain ⟨i, last⟩ := holdsAt_tree n (.top (List.mem_singleton.mpr rfl))
  rw [Nat.add_comm 1, Nat.zero_add] at last
  exact ⟨_, i, parse_lexemes size n, last⟩

end Ladder

/-! ## The limit on the level -/

/-- Every statement of a program that was read stands on some level. That is deeper than the
limit on the nesting only by the rungs on the way to it, and only by the `else if`s of the
source. There is no limit on these: ladders of any length are read, and the last rung stands
on a level of its own. -/
theorem level_le_of_parse (parsed : parse size ts = .ok prog) :
    (∀ i, prog.Holds i ↔ ∃ level rungs, prog.HoldsAt level rungs i) ∧
    (∀ level rungs i, prog.HoldsAt level rungs i →
      level ≤ maxNesting + rungs ∧ level ≤ maxNesting + elseIfs ts) ∧
    ∀ n, ∃ ladder i, parse size (Ladder.lexemes n) = .ok ladder ∧ ladder.HoldsAt (n + 1) n i := by
  refine ⟨fun i => Program.holds_iff_holdsAt, fun level rungs i holds => ?_,
    Ladder.holdsAt_lexemes size⟩
  obtain ⟨d, ls, -, fits⟩ := clause_of_holdsAt parsed holds
  obtain ⟨_, _⟩ := fits
  exact ⟨by omega, by omega⟩

/-- A ladder that reaches below the limit. -/
theorem level_le_of_parse_ladder : ∃ prog i, parse 0 (Ladder.lexemes 1500) = .ok prog ∧
    prog.Holds i ∧ prog.HoldsAt 1501 1500 i ∧
    1501 ≤ maxNesting + 1500 ∧ 1501 ≤ maxNesting + elseIfs (Ladder.lexemes 1500) := by
  obtain ⟨prog, i, parsed, holds⟩ := Ladder.holdsAt_lexemes 0 1500
  obtain ⟨levels, bounds, -⟩ := level_le_of_parse parsed
  exact ⟨prog, i, parsed, (levels i).mpr ⟨_, _, holds⟩, holds, bounds _ _ i holds⟩

/-- The limit on the nesting is none on the level. -/
theorem level_past_limit : ∃ prog i, parse 0 (Ladder.lexemes 1000) = .ok prog ∧
    prog.HoldsAt 1001 1000 i ∧ ¬1001 ≤ maxNesting := by
  obtain ⟨prog, i, parsed, holds⟩ := Ladder.holdsAt_lexemes 0 1000
  exact ⟨prog, i, parsed, holds, by decide⟩

end

end TraceLang
