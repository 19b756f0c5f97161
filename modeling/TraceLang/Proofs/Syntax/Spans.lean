/-
# TraceLang.Proofs.Syntax.Spans — places cut out what they label

The lexemes of a source do not overlap and stand in order, so the extent of a run of
them reaches from the start of the first to the end of the last, and the lexemes inside
that extent are the run again (`lexemesIn_extent`). The place of a phrase is the extent
of its lexemes (`Expression.span_eq`, `Clause.span_eq`). Together with what is known about
the parts of a program this says that the place of a part cuts the part out of the source:
the lexemes inside it are read as that part and nothing else (`parse_spans`).
-/
import Mathlib.Data.List.Basic
import TraceLang.Proofs.Syntax.Lexing
import TraceLang.Proofs.Syntax.Parts
import TraceLang.Proofs.Syntax.Reading

namespace TraceLang

set_option autoImplicit false

/-- The range lies inside the other one. -/
def Span.Within (s outer : Span) : Prop :=
  outer.start ≤ s.start ∧ s.stop ≤ outer.stop

instance (s outer : Span) : Decidable (s.Within outer) :=
  inferInstanceAs (Decidable (_ ∧ _))

/-- The lexemes that lie inside a range. -/
def lexemesIn (ts : List Lexeme) (s : Span) : List Lexeme :=
  ts.filter fun l => l.span.Within s

@[simp] theorem Span.merge_self (s : Span) : s.merge s = s := by
  simp [Span.merge]

@[simp] theorem Expr.span_withSpan (e : Expr) (s : Span) : (e.withSpan s).span = s := by
  cases e <;> rfl

open Grammar

/-! ## Extents -/

theorem Grammar.extent_singleton (l : Lexeme) : extent [l] = l.span := by
  rw [extent_cons, lastSpan_nil, Span.merge_self]

namespace InOrder

variable {ls ls' ts : List Lexeme} {l l' : Lexeme}

theorem of_sublist (ordered : InOrder ts) (sub : ls.Sublist ts) : InOrder ls :=
  ⟨fun l mem => ordered.1 l (sub.subset mem), ordered.2.sublist sub⟩

/-- A lexeme ends before a later one begins. -/
theorem stop_le (ordered : InOrder (ls ++ ls')) (mem : l ∈ ls) (mem' : l' ∈ ls') :
    l.span.stop ≤ l'.span.start :=
  (List.pairwise_append.mp ordered.2).2.2 l mem l' mem'

theorem extent_start (ordered : InOrder (l :: ls)) : (extent (l :: ls)).start = l.span.start := by
  rcases List.eq_nil_or_concat' ls with rfl | ⟨before, last, rfl⟩
  · simp
  · have apart : InOrder ([l] ++ (before ++ [last])) := ordered
    have following := apart.stop_le (List.mem_singleton_self l)
      (List.mem_append_right before (List.mem_singleton_self last))
    have wide := ordered.1 l List.mem_cons_self
    simp only [Grammar.extent_cons, lastSpan_append, lastSpan_cons, lastSpan_nil, Span.merge]
    omega

theorem extent_stop (ordered : InOrder (ls ++ [l])) : (extent (ls ++ [l])).stop = l.span.stop := by
  cases ls with
  | nil => simp
  | cons first rest =>
    have following := ordered.stop_le List.mem_cons_self (List.mem_singleton_self l)
    have wide := ordered.1 l (List.mem_append_right _ (List.mem_singleton_self l))
    simp only [List.cons_append, Grammar.extent_cons, lastSpan_append, lastSpan_cons, lastSpan_nil,
      Span.merge]
    omega

/-- The extent covers the lexemes. -/
theorem within_extent (ordered : InOrder ls) (mem : l ∈ ls) : l.span.Within (extent ls) := by
  constructor
  · obtain ⟨first, rest, rfl⟩ := List.exists_cons_of_ne_nil (List.ne_nil_of_mem mem)
    rw [ordered.extent_start]
    rcases List.mem_cons.mp mem with rfl | later
    · exact Nat.le_refl _
    · have apart : InOrder ([first] ++ rest) := ordered
      have following := apart.stop_le (List.mem_singleton_self first) later
      have wide := ordered.1 first List.mem_cons_self
      omega
  · rcases List.eq_nil_or_concat' ls with rfl | ⟨before, last, rfl⟩
    · cases mem
    rw [ordered.extent_stop]
    rcases List.mem_append.mp mem with earlier | self
    · have following := ordered.stop_le earlier (List.mem_singleton_self last)
      have wide := ordered.1 last (List.mem_append_right _ (List.mem_singleton_self last))
      omega
    · rw [List.mem_singleton.mp self]

theorem extent_wide (ordered : InOrder ls) (nonempty : ls ≠ []) :
    (extent ls).start < (extent ls).stop := by
  obtain ⟨first, rest, rfl⟩ := List.exists_cons_of_ne_nil nonempty
  have within := ordered.within_extent List.mem_cons_self
  have wide := ordered.1 first List.mem_cons_self
  unfold Span.Within at within
  omega

/-- What ends before the first lexeme of a run ends before its extent. -/
theorem extent_apart (ordered : InOrder (ls ++ ls')) (nonempty : ls ≠ []) (nonempty' : ls' ≠ []) :
    (extent ls).stop ≤ (extent ls').start := by
  obtain ⟨first, rest, rfl⟩ := List.exists_cons_of_ne_nil nonempty'
  rcases List.eq_nil_or_concat' ls with rfl | ⟨before, last, rfl⟩
  · exact absurd rfl nonempty
  rw [(ordered.of_sublist (List.sublist_append_left _ _)).extent_stop,
    (ordered.of_sublist (List.sublist_append_right _ _)).extent_start]
  exact ordered.stop_le (List.mem_append_right _ (List.mem_singleton_self last)) List.mem_cons_self

/-- The extent of two runs with anything between them covers both. -/
theorem extent_append {between : List Lexeme} (ordered : InOrder (ls ++ between ++ ls'))
    (nonempty : ls ≠ []) (nonempty' : ls' ≠ []) :
    extent (ls ++ between ++ ls') = (extent ls).merge (extent ls') := by
  have outer : (ls ++ ls').Sublist (ls ++ between ++ ls') :=
    (List.sublist_append_left ls between).append (List.Sublist.refl ls')
  have ofLeft := (ordered.of_sublist outer).of_sublist (List.sublist_append_left ls ls')
  have ofRight := (ordered.of_sublist outer).of_sublist (List.sublist_append_right ls ls')
  have start : (extent (ls ++ between ++ ls')).start = (extent ls).start := by
    obtain ⟨first, rest, rfl⟩ := List.exists_cons_of_ne_nil nonempty
    rw [ofLeft.extent_start]
    exact extent_start ordered
  have stop : (extent (ls ++ between ++ ls')).stop = (extent ls').stop := by
    rcases List.eq_nil_or_concat' ls' with rfl | ⟨before, last, rfl⟩
    · exact absurd rfl nonempty'
    rw [ofRight.extent_stop]
    rw [← List.append_assoc] at ordered ⊢
    exact extent_stop ordered
  have apart := (ordered.of_sublist outer).extent_apart nonempty nonempty'
  have wide := ofLeft.extent_wide nonempty
  have wide' := ofRight.extent_wide nonempty'
  calc extent (ls ++ between ++ ls')
      = { start := (extent ls).start, stop := (extent ls').stop } := by rw [← start, ← stop]
    _ = (extent ls).merge (extent ls') := by
      rw [Span.merge, Nat.min_eq_left (by omega), Nat.max_eq_right (by omega)]

theorem extent_cons (ordered : InOrder (l :: ls)) (nonempty : ls ≠ []) :
    extent (l :: ls) = l.span.merge (extent ls) := by
  have whole : InOrder ([l] ++ [] ++ ls) := ordered
  rw [← extent_singleton]
  exact whole.extent_append (List.cons_ne_nil l []) nonempty

/-- The extent of a run of lexemes lies inside that of all. -/
theorem extent_within (ordered : InOrder ts) (infixed : ls <:+: ts) (nonempty : ls ≠ []) :
    (extent ls).Within (extent ts) := by
  have inner := ordered.of_sublist infixed.sublist
  constructor
  · obtain ⟨first, rest, rfl⟩ := List.exists_cons_of_ne_nil nonempty
    rw [inner.extent_start]
    exact (ordered.within_extent (infixed.subset List.mem_cons_self)).1
  · rcases List.eq_nil_or_concat' ls with rfl | ⟨before, last, rfl⟩
    · exact absurd rfl nonempty
    rw [inner.extent_stop]
    exact (ordered.within_extent
      (infixed.subset (List.mem_append_right _ (List.mem_singleton_self last)))).2

/-- The lexemes inside the extent of a run are the run. -/
theorem lexemesIn_extent (ordered : InOrder ts) (infixed : ls <:+: ts) (nonempty : ls ≠ []) :
    lexemesIn ts (extent ls) = ls := by
  have inner := ordered.of_sublist infixed.sublist
  obtain ⟨before, after, rfl⟩ := infixed
  -- a lexeme of the extent, as no lexeme is empty, can neither end before it nor begin behind it
  have earlier : before.filter (fun l => l.span.Within (extent ls)) = [] := by
    rw [List.filter_eq_nil_iff]
    intro l mem within
    obtain ⟨first, rest, rfl⟩ := List.exists_cons_of_ne_nil nonempty
    have wide := ordered.1 l (List.mem_append_left _ (List.mem_append_left _ mem))
    have following := (ordered.of_sublist (List.sublist_append_left _ _)).stop_le mem
      List.mem_cons_self
    have inside := (of_decide_eq_true within).1
    rw [inner.extent_start] at inside
    omega
  have later : after.filter (fun l => l.span.Within (extent ls)) = [] := by
    rw [List.filter_eq_nil_iff]
    intro l mem within
    rcases List.eq_nil_or_concat' ls with rfl | ⟨others, last, rfl⟩
    · exact absurd rfl nonempty
    have wide := ordered.1 l (List.mem_append_right _ mem)
    have following := ordered.stop_le (List.mem_append_right _
      (List.mem_append_right _ (List.mem_singleton_self last))) mem
    have inside := (of_decide_eq_true within).2
    rw [inner.extent_stop] at inside
    omega
  have self : ls.filter (fun l => l.span.Within (extent ls)) = ls :=
    List.filter_eq_self.mpr fun l mem => decide_eq_true (inner.within_extent mem)
  rw [lexemesIn, List.filter_append, List.filter_append, earlier, later, self, List.nil_append,
    List.append_nil]

end InOrder

/-! ## The places of phrases -/

namespace Grammar

variable {d : Nat} {ls ls' ts : List Lexeme} {l : Lexeme} {e x : Expr} {i : Instr}
  {body : List Instr}

theorem Closed.ends {close : Symbol} {es : List Expr} {closed : Span}
    (derived : Closed close ls es closed) : ∃ before, ls = before ++ [⟨.symbol close, closed⟩] := by
  cases derived with
  | empty => exact ⟨[], rfl⟩
  | items => exact ⟨_, rfl⟩

theorem Expression.ne_nil {layer : Layer} (derived : Expression layer ls e) : ls ≠ [] :=
  List.ne_nil_of_length_pos derived.length_pos

/-- The place of an expression is the extent of its lexemes. -/
theorem Expression.span_eq {layer : Layer} {ls : List Lexeme} {e : Expr} :
    Expression layer ls e → InOrder ls → e.span = extent ls
  | .operand inner | .positive inner | .uncompared inner | .unsigned inner | .unindexed inner =>
    inner.span_eq
  | .joined ofLeft _ ofRight | .compared ofLeft _ ofRight => by
    intro ordered
    have left := ofLeft.span_eq (ordered.of_sublist (List.sublist_append_left _ _))
    have right := ofRight.span_eq (ordered.of_sublist
      ((List.sublist_cons_self _ _).trans (List.sublist_append_right _ _)))
    rw [List.append_cons] at ordered ⊢
    rw [ordered.extent_append ofLeft.ne_nil ofRight.ne_nil, ← left, ← right]
    rfl
  | .not inner | .minus inner => by
    intro ordered
    have operand := inner.span_eq (ordered.of_sublist (List.sublist_cons_self _ _))
    rw [ordered.extent_cons inner.ne_nil, ← operand]
    rfl
  | .indexed ofBase _ => by
    intro ordered
    have base := ofBase.span_eq (ordered.of_sublist
      ((List.sublist_append_left _ _).trans (List.sublist_append_left _ _)))
    rw [ordered.extent_append ofBase.ne_nil (List.cons_ne_nil _ _), ← base, extent_singleton]
    rfl
  | .literal is => by
    intro _
    rw [extent_singleton]
    cases is <;> rfl
  | .var => by
    intro _
    rw [extent_singleton]
    rfl
  | .call ofArgs => by
    intro _
    obtain ⟨before, rfl⟩ := ofArgs.ends
    rw [extent_cons, lastSpan_cons, lastSpan_append]
    rfl
  | .list ofItems => by
    intro _
    obtain ⟨before, rfl⟩ := ofItems.ends
    rw [extent_cons, lastSpan_append]
    rfl
  | .paren _ => by
    intro _
    rw [Expr.span_withSpan, List.cons_append, extent_cons, lastSpan_append]
    rfl

theorem Simple.span_eq {f : Span → Instr} (derived : Simple ls f) (s : Span) : (f s).span = s := by
  cases derived <;> rfl

theorem Statement.span_eq {f : Span → Instr} (derived : Statement ls f) (s : Span) :
    (f s).span = s := by
  cases derived with
  | simple inner => exact inner.span_eq s
  | conditional inner => cases inner; rfl
  | _ => rfl

theorem Clause.span_eq (clause : Clause d ls i) : i.span = extent ls := by
  obtain ⟨f, derived, -, rfl⟩ := clause
  exact derived.span_eq _

theorem Clause.ne_nil (clause : Clause d ls i) : ls ≠ [] := by
  obtain ⟨f, derived, -⟩ := clause
  obtain ⟨t, rest, rfl, -⟩ := derived.starts
  exact List.cons_ne_nil t rest

/-- The place of a part of a phrase lies inside the extent of the phrase. -/
theorem HasPhrase.within (has : HasPhrase d ls e) (ordered : InOrder ls) :
    e.span.Within (extent ls) := by
  obtain ⟨d', -, run, infixed, layer, derived, -⟩ := has
  rw [derived.span_eq (ordered.of_sublist infixed.sublist)]
  exact ordered.extent_within infixed derived.ne_nil

theorem HasExpr.within (has : HasExpr d ls e) (ordered : InOrder ls) :
    e.span.Within (extent ls) := by
  rcases has with ⟨-, l, mem, place⟩ | ⟨d', -, phrase⟩
  · rw [place]
    exact ordered.within_extent mem
  · exact phrase.within ordered

theorem HasRow.within (has : HasRow d ls body) (ordered : InOrder ls) (mem : i ∈ body) :
    i.span.Within (extent ls) := by
  obtain ⟨run, infixed, row⟩ := has
  obtain ⟨d', -, run', infixed', clause⟩ := row.clause mem
  rw [clause.span_eq]
  exact ordered.extent_within (infixed'.trans infixed) clause.ne_nil

theorem Simple.ne_nil {f : Span → Instr} (derived : Simple ls f) : ls ≠ [] := by
  obtain ⟨t, rest, rfl, -⟩ := derived.starts
  exact List.cons_ne_nil t rest

theorem HasHeader.within {h : Instr} (has : HasHeader d ls h) (ordered : InOrder ls) :
    h.span.Within (extent ls) ∧ ∀ e ∈ h.exprs, e.span.Within h.span := by
  obtain ⟨run, infixed, f, derived, rfl, exprs⟩ := has
  rw [derived.span_eq]
  refine ⟨ordered.extent_within infixed derived.ne_nil, fun e mem => ?_⟩
  exact (exprs e mem).within (ordered.of_sublist infixed.sublist)

/-- Statements that stand in a row end where the next one begins, or before. -/
theorem Row.pairwise (row : Row d ls body) (ordered : InOrder ls) :
    body.Pairwise fun i j => i.span.stop ≤ j.span.start := by
  induction row with
  | nil => exact List.Pairwise.nil
  | cons first _ others ih =>
    refine List.pairwise_cons.mpr ⟨fun j mem => ?_, ?_⟩
    · obtain ⟨d', -, run, infixed, clause⟩ := others.clause mem
      rw [first.span_eq, clause.span_eq]
      refine (ordered.of_sublist ?_).extent_apart first.ne_nil clause.ne_nil
      exact (List.Sublist.refl _).append infixed.sublist
    · exact ih (ordered.of_sublist (List.sublist_append_right _ _))

/-! ## Phrases alone -/

/-- A statement alone is a program, one level above the statement. -/
theorem Clause.programRead (clause : Clause d ls i) : ProgramRead (d + 1) ls [i] := by
  obtain ⟨f, derived, read, rfl⟩ := clause
  have program : ProgramRead (max (d + 1) 0) (ls ++ []) [f (extent ls)] :=
    programRead_more derived .done read programRead_done
  rwa [List.append_nil, Nat.max_zero] at program

theorem Clause.parse_eq (clause : Clause d ls i) (fewer : d < maxNesting) (size : Nat) :
    parse size ls = .ok { body := [i] } :=
  (parse_of_programRead clause.programRead size).2 (by omega)

/-- An expression alone can be assigned to a variable. -/
theorem Phrase.assignment (phrase : Phrase d ls e) (name : String) (named equals semi : Span) :
    Clause (d + 1) (⟨.ident name, named⟩ :: ⟨.symbol .eq, equals⟩ :: (ls ++ [⟨.symbol .semi, semi⟩]))
      (.assign (named.merge semi) (.var named name) e) := by
  obtain ⟨layer, forms⟩ := phrase
  have value := forms.whole
  have bound : Layer.primary.Forms 0 [⟨.ident name, named⟩] (.var named name) :=
    ⟨.var, recognizes_var⟩
  have target := bound.whole
  have derived : Simple ([⟨.ident name, named⟩] ++ ⟨.symbol .eq, equals⟩ :: ls)
      fun span => .assign span (.var named name) e := .assign target.derived .var value.derived
  have read : SimpleRead (max (0 + 1) (d + 1)) ([⟨.ident name, named⟩] ++ ⟨.symbol .eq, equals⟩ :: ls)
      fun span => .assign span (.var named name) e :=
    simpleRead_assign target.derived .var target.recognized value.recognized
  rw [Nat.max_eq_right (Nat.le_add_left _ _)] at read
  exact ⟨_, .simple derived, statementRead_simple derived read, by simp⟩

theorem Phrase.parse_eq (phrase : Phrase d ls e) (fewer : d < maxNesting - 1) (size : Nat)
    (name : String) (named equals semi : Span) :
    parse size
        (⟨.ident name, named⟩ :: ⟨.symbol .eq, equals⟩ :: (ls ++ [⟨.symbol .semi, semi⟩])) =
      .ok { body := [.assign (named.merge semi) (.var named name) e] } :=
  (phrase.assignment name named equals semi).parse_eq (by omega) size

end Grammar

/-! ## The places in a program -/

section

variable {source : String} {size : Nat} {ts : List Lexeme} {prog : Program}

/-- The place of every part of a program cuts the part out of the source. The lexemes inside
the place of a statement stand together and are, read alone, the program of this statement;
those inside the place of an expression stand together and are, read as the value of an
assignment, this expression. The place of a part lies inside the place of the whole, and
statements that follow one another have places that do. -/
theorem parse_spans (lexed : tokenize source = .ok ts) (parsed : parse size ts = .ok prog) :
    (∀ i, prog.Holds i → lexemesIn ts i.span <:+: ts ∧
      ∀ size', parse size' (lexemesIn ts i.span) = .ok { body := [i] }) ∧
    (∀ e, prog.HoldsExpr e → e.isDefault = false → lexemesIn ts e.span <:+: ts ∧
      ∀ (size' : Nat) (name : String) (named equals semi : Span),
        parse size' (⟨.ident name, named⟩ :: ⟨.symbol .eq, equals⟩ ::
            (lexemesIn ts e.span ++ [⟨.symbol .semi, semi⟩])) =
          .ok { body := [.assign (named.merge semi) (.var named name) e] }) ∧
    (∀ i, prog.Holds i → (∀ e ∈ i.exprs, e.span.Within i.span) ∧
      (∀ h ∈ i.headers, h.span.Within i.span ∧ ∀ e ∈ h.exprs, e.span.Within h.span) ∧
      ∀ block ∈ i.blocks, ∀ j ∈ block, j.span.Within i.span) ∧
    (∀ e, prog.HoldsExpr e → ∀ x ∈ e.children, x.span.Within e.span) ∧
    (prog.body.Pairwise fun i j => i.span.stop ≤ j.span.start) ∧
    ∀ i, prog.Holds i → ∀ block ∈ i.blocks,
      block.Pairwise fun j k => j.span.stop ≤ k.span.start := by
  have ordered := tokenize_inOrder lexed
  refine ⟨fun i holds => ?_, fun e holds given => ?_, fun i holds => ?_, fun e holds x mem => ?_,
    (row_of_parse parsed).pairwise ordered, fun i holds block of => ?_⟩
  · obtain ⟨d, fewer, ls, infixed, clause⟩ := clause_of_holds parsed holds
    rw [clause.span_eq, ordered.lexemesIn_extent infixed clause.ne_nil]
    exact ⟨infixed, clause.parse_eq fewer⟩
  · rcases phrase_of_holdsExpr parsed holds with ⟨default, -⟩ |
      ⟨d, fewer, d', enough, ls, infixed, layer, forms⟩
    · rw [given] at default
      cases default
    · rw [forms.derived.span_eq (ordered.of_sublist infixed.sublist),
        ordered.lexemesIn_extent infixed forms.derived.ne_nil]
      exact ⟨infixed, Phrase.parse_eq ⟨layer, forms⟩ (Nat.lt_of_le_of_lt enough fewer)⟩
  · obtain ⟨d, fewer, ls, infixed, clause⟩ := clause_of_holds parsed holds
    have inner := ordered.of_sublist infixed.sublist
    rw [clause.span_eq]
    exact ⟨fun e mem => (clause.parted.exprs e mem).within inner,
      fun h mem => (clause.parted.headers h mem).within inner,
      fun block of j mem => (clause.parted.blocks block of).within inner mem⟩
  · rcases phrase_of_holdsExpr parsed holds with ⟨default, -⟩ |
      ⟨d, fewer, d', enough, ls, infixed, layer, forms⟩
    · rw [Expr.children_of_isDefault default] at mem
      cases mem
    · have inner := ordered.of_sublist infixed.sublist
      rw [forms.derived.span_eq inner]
      exact (Phrase.child ⟨layer, forms⟩ mem).within inner
  · obtain ⟨d, fewer, ls, infixed, clause⟩ := clause_of_holds parsed holds
    obtain ⟨run, inside, row⟩ := clause.parted.blocks block of
    exact row.pairwise (ordered.of_sublist (inside.trans infixed).sublist)

/-- An operand in parentheses inside a block: its place covers the parentheses. -/
theorem parse_spans_parenthesized :
    ∃ ts prog i e, tokenize "while 1 \x7b y = -(c); \x7d" = .ok ts ∧ parse 0 ts = .ok prog ∧
      prog.Holds i ∧ prog.HoldsExpr e ∧ e.isDefault = false ∧
      (lexemesIn ts i.span).map (·.token) =
        [.ident "y", .symbol .eq, .symbol .minus, .symbol .lParen, .ident "c", .symbol .rParen,
          .symbol .semi] ∧
      parse 0 (lexemesIn ts i.span) = .ok { body := [i] } ∧
      (lexemesIn ts e.span).map (·.token) = [.symbol .lParen, .ident "c", .symbol .rParen] ∧
      parse 0 (⟨.ident "x", {}⟩ :: ⟨.symbol .eq, {}⟩ ::
          (lexemesIn ts e.span ++ [⟨.symbol .semi, {}⟩])) =
        .ok { body := [.assign {} (.var {} "x") e] } := by
  have checked : (tokenize "while 1 \x7b y = -(c); \x7d").toOption.any fun ts =>
      (parse 0 ts).toOption.any fun prog => prog.body.head?.any fun loop =>
        loop.blocks.head?.any fun block => block.head?.any fun i => i.exprs.getLast?.any fun value =>
          value.children.head?.any fun e => e.isDefault = false &&
            (lexemesIn ts i.span).map (·.token) =
              [.ident "y", .symbol .eq, .symbol .minus, .symbol .lParen, .ident "c",
                .symbol .rParen, .symbol .semi] &&
            (lexemesIn ts e.span).map (·.token) =
              [.symbol .lParen, .ident "c", .symbol .rParen] := by
    decide +kernel
  obtain ⟨ts, lexed, checked⟩ := (Option.any_eq_true _ _).mp checked
  obtain ⟨prog, parsed, checked⟩ := (Option.any_eq_true _ _).mp checked
  obtain ⟨loop, isLoop, checked⟩ := (Option.any_eq_true _ _).mp checked
  obtain ⟨block, isBlock, checked⟩ := (Option.any_eq_true _ _).mp checked
  obtain ⟨i, isInstr, checked⟩ := (Option.any_eq_true _ _).mp checked
  obtain ⟨value, isValue, checked⟩ := (Option.any_eq_true _ _).mp checked
  obtain ⟨e, isOperand, checked⟩ := (Option.any_eq_true _ _).mp checked
  simp only [Bool.and_eq_true, decide_eq_true_eq] at checked
  obtain ⟨⟨given, ofInstr⟩, ofOperand⟩ := checked
  have lexed := Except.eq_of_toOption lexed
  have parsed := Except.eq_of_toOption parsed
  have holds : prog.Holds i := .inside (.top (List.mem_of_mem_head? isLoop))
    (List.mem_of_mem_head? isBlock) (List.mem_of_mem_head? isInstr)
  have holdsExpr : prog.HoldsExpr e := .child (.direct holds (List.mem_of_mem_getLast? isValue))
    (List.mem_of_mem_head? isOperand)
  obtain ⟨statements, expressions, -⟩ := parse_spans lexed parsed
  exact ⟨ts, prog, i, e, lexed, parsed, holds, holdsExpr, given, ofInstr,
    (statements i holds).2 0, ofOperand, (expressions e holdsExpr given).2 0 "x" {} {} {}⟩

end

end TraceLang
