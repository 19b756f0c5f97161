/-
# TraceLang.Proofs.Syntax.Rendering — the tokens in the text of an expression

`e.tokens` are the tokens that the text of an expression is made of. The lexer reads
exactly these from the text, whatever precedes it and whatever follows that does not
continue its last token (`Expr.spells`), if each of them is spelled by its own text. In
an expression of a program that was read from a source they are, except for the literals
that a source can spell in other ways (`spellable_of_holdsExpr`).
-/
import TraceLang.Proofs.Syntax.Parts
import TraceLang.Proofs.Syntax.Spelling

namespace TraceLang

set_option autoImplicit false

/-! ## Tokens -/

def BinOp.token : BinOp → Token
  | .add => .symbol .plus
  | .sub => .symbol .minus
  | .mul => .symbol .star
  | .div => .symbol .slash
  | .mod => .symbol .percent
  | .eq => .symbol .eqEq
  | .ne => .symbol .notEq
  | .lt => .symbol .lt
  | .le => .symbol .ltEq
  | .gt => .symbol .gt
  | .ge => .symbol .gtEq
  | .and => .keyword .andWord
  | .or => .keyword .orWord

def UnOp.token : UnOp → Token
  | .neg => .symbol .minus
  | .not => .keyword .notWord

namespace Expr

/-- The tokens of an operand, in parentheses where its text is. -/
def encloseTokens (e : Expr) (ts : List Token) : List Token :=
  if e.isBinary then .symbol .lParen :: ts ++ [.symbol .rParen] else ts

mutual

/-- The tokens in the text of an expression. -/
def tokens : Expr → List Token
  | .int _ n => [.int n]
  | .float _ x => [.float x]
  | .bool _ b => [.keyword (if b then .trueWord else .falseWord)]
  | .str _ s => [.str s]
  | .none _ => [.keyword .noneWord]
  | .list _ items => .symbol .lBracket :: itemsTokens items ++ [.symbol .rBracket]
  | .var _ name => [.ident name]
  | .index _ base position =>
    base.tokens ++ .symbol .lBracket :: position.tokens ++ [.symbol .rBracket]
  | .binary _ op left right =>
    left.encloseTokens left.tokens ++ op.token :: right.encloseTokens right.tokens
  | .unary _ op operand => op.token :: operand.encloseTokens operand.tokens
  | .call _ name args =>
    .ident name :: .symbol .lParen :: itemsTokens args ++ [.symbol .rParen]
  | .default _ ty => [.symbol .lt, .ident "default", .ofWord ty.keyword, .symbol .gt]

/-- The tokens of expressions separated by commas. -/
def itemsTokens : List Expr → List Token
  | [] => []
  | [e] => e.tokens
  | e :: rest => e.tokens ++ .symbol .comma :: itemsTokens rest

end

theorem itemsText_more (e e' : Expr) (rest : List Expr) :
    itemsText (e :: e' :: rest) = e.text ++ ", " ++ itemsText (e' :: rest) := by
  rw [itemsText]
  exact List.cons_ne_nil e' rest

theorem itemsTokens_more (e e' : Expr) (rest : List Expr) :
    itemsTokens (e :: e' :: rest) = e.tokens ++ .symbol .comma :: itemsTokens (e' :: rest) := by
  rw [itemsTokens]
  exact List.cons_ne_nil e' rest

theorem mem_encloseTokens {e : Expr} {ts : List Token} {t : Token} (mem : t ∈ ts) :
    t ∈ e.encloseTokens ts := by
  unfold encloseTokens
  split
  · simp [mem]
  · exact mem

end Expr

/-! ## Texts -/

namespace Lexer

theorem spells_binOp (op : BinOp) : Spells Fresh op.text.toList [op.token] := by
  have same : op.token.text = op.text := by cases op <;> rfl
  have spellable : op.token.Spellable := by cases op <;> trivial
  rw [← same]
  exact Token.spells spellable

/-- A prefix operator ends in any case, as its text ends with a blank if it is a word. -/
theorem spells_unOp (op : UnOp) : Spells Anything op.text.toList [op.token] := by
  cases op with
  | neg => exact spells_opening .minus (.inr (.inr rfl))
  | not => exact (spells_keyword .notWord).append spells_space fun _ _ => fresh_cons (by decide)

variable {next : List Char → Prop} {cs : List Char} {ts : List Token}

/-- A text between parentheses or brackets. -/
theorem Spells.between (inner : Spells Fresh cs ts) (opening closing : Symbol)
    (pair : opening = .lParen ∧ closing = .rParen ∨ opening = .lBracket ∧ closing = .rBracket) :
    Spells Fresh (opening.text.toList ++ (cs ++ closing.text.toList))
      (.symbol opening :: ts ++ [.symbol closing]) := by
  have opens : Spells Anything opening.text.toList [.symbol opening] :=
    spells_opening opening (by rcases pair with ⟨rfl, -⟩ | ⟨rfl, -⟩ <;> simp)
  have ends (rest : List Char) : Fresh (closing.text.toList ++ rest) := by
    rcases pair with ⟨-, rfl⟩ | ⟨-, rfl⟩ <;> exact fresh_cons (by decide)
  exact opens.append (inner.append (spells_symbol closing) fun rest _ => ends rest)
    fun _ _ => trivial

theorem Spells.enclose {e : Expr} {text : String} (inner : Spells Fresh text.toList ts) :
    Spells Fresh (e.enclose text).toList (e.encloseTokens ts) := by
  unfold Expr.enclose Expr.encloseTokens
  split
  · have enclosed := inner.between .lParen .rParen (.inl ⟨rfl, rfl⟩)
    rw [String.toList_append, String.toList_append, List.append_assoc]
    exact enclosed
  · exact inner

end Lexer

namespace Expr

open Lexer

variable {e left right base position operand : Expr} {items : List Expr}

theorem spells_index (ofBase : Spells Fresh base.text.toList base.tokens)
    (ofPosition : Spells Fresh position.text.toList position.tokens) (span : Span) :
    Spells Fresh (index span base position).text.toList (index span base position).tokens := by
  have bracketed := ofPosition.between .lBracket .rBracket (.inr ⟨rfl, rfl⟩)
  have whole := ofBase.append bracketed fun _ _ => fresh_cons (by decide)
  simp only [text, tokens, String.toList_append, List.append_assoc] at whole ⊢
  exact whole

theorem spells_binary (ofLeft : Spells Fresh left.text.toList left.tokens)
    (ofRight : Spells Fresh right.text.toList right.tokens) (span : Span) (op : BinOp) :
    Spells Fresh (binary span op left right).text.toList (binary span op left right).tokens := by
  have blank (rest : List Char) : Fresh ([' '] ++ rest) := fresh_cons (by decide)
  have behind := spells_space.append (ofRight.enclose (e := right)) fun _ _ => trivial
  have operated := (spells_binOp op).append behind fun rest _ => blank _
  have spaced := spells_space.append operated fun _ _ => trivial
  have whole := (ofLeft.enclose (e := left)).append spaced fun rest _ => blank _
  simp only [text, tokens, String.toList_append, List.append_assoc] at whole ⊢
  exact whole

theorem spells_unary (ofOperand : Spells Fresh operand.text.toList operand.tokens) (span : Span)
    (op : UnOp) :
    Spells Fresh (unary span op operand).text.toList (unary span op operand).tokens := by
  have whole := (spells_unOp op).append (ofOperand.enclose (e := operand)) fun _ _ => trivial
  simp only [text, tokens, String.toList_append] at whole ⊢
  exact whole

theorem spells_list (ofItems : Spells Fresh (itemsText items).toList (itemsTokens items))
    (span : Span) : Spells Fresh (list span items).text.toList (list span items).tokens := by
  have whole := ofItems.between .lBracket .rBracket (.inr ⟨rfl, rfl⟩)
  simp only [text, tokens, String.toList_append, List.append_assoc]
  exact whole

theorem spells_call {name : String} (valid : isValidName name)
    (ofArgs : Spells Fresh (itemsText items).toList (itemsTokens items)) (span : Span) :
    Spells Fresh (call span name items).text.toList (call span name items).tokens := by
  have arguments := ofArgs.between .lParen .rParen (.inl ⟨rfl, rfl⟩)
  have whole := (spells_ident valid).append arguments fun _ _ => fresh_cons (by decide)
  simp only [text, tokens, String.toList_append, List.append_assoc]
  exact whole

theorem spells_default (span : Span) (ty : Ty) :
    Spells Fresh (default span ty).text.toList (default span ty).tokens := by
  have blank (rest : List Char) : Fresh ([' '] ++ rest) := fresh_cons (by decide)
  have typed : Spells Fresh ty.keyword.toList [.ofWord ty.keyword] := by
    cases ty <;> exact spells_word (by decide) (by decide)
  have closed := typed.append (spells_symbol .gt) fun _ _ => fresh_cons (by decide)
  have behind := spells_space.append closed fun _ _ => trivial
  have valid : isValidName "default" := by decide
  have named := (spells_ident valid).append behind fun rest _ => blank _
  have opens : Spells (fun rest => rest.head? ≠ some '=') Symbol.lt.text.toList [.symbol .lt] :=
    spells_token fun rest alone => (munchSymbol_of_ne alone).2.1
  have whole := opens.append named fun _ _ next =>
    absurd (Option.some.inj next) (by decide : 'd' ≠ '=')
  simp only [text, tokens, String.toList_append, List.append_assoc]
  exact whole

mutual

/-- The text of an expression is read as its tokens. -/
theorem spells : (e : Expr) → (∀ t ∈ e.tokens, t.Spellable) → Spells Fresh e.text.toList e.tokens
  | .int _ n, spellable => by
    rw [text, tokens]
    have word : (Token.int n).Spellable := spellable _ (by simp [tokens])
    have spelled := Token.spells word
    rw [Token.text] at spelled
    exact spelled
  | .float _ x, spellable => absurd (spellable (.float x) (by simp [tokens])) not_false
  | .bool _ b, _ => by
    have word : (if b then "true" else "false") =
        (if b then Keyword.trueWord else .falseWord).text := by cases b <;> rfl
    rw [text, tokens, word]
    exact spells_keyword _
  | .str _ s, spellable => by
    rw [text, tokens]
    have word : (Token.str s).Spellable := spellable _ (by simp [tokens])
    have spelled := Token.spells word
    rw [Token.text] at spelled
    exact spelled
  | .none _, _ => by
    have spelled := spells_keyword .noneWord
    rw [Keyword.text] at spelled
    rw [text, tokens]
    exact spelled
  | .list span items, spellable =>
    spells_list (items_spell items fun t mem => spellable t (by simp [tokens, mem])) span
  | .var _ name, spellable => by
    rw [text, tokens]
    have word : (Token.ident name).Spellable := spellable _ (by simp [tokens])
    have spelled := Token.spells word
    rw [Token.text] at spelled
    exact spelled
  | .index span base position, spellable =>
    spells_index (base.spells fun t mem => spellable t (by simp [tokens, mem]))
      (position.spells fun t mem => spellable t (by simp [tokens, mem])) span
  | .binary span op left right, spellable =>
    spells_binary (left.spells fun t mem => spellable t (by simp [tokens, mem_encloseTokens mem]))
      (right.spells fun t mem => spellable t (by simp [tokens, mem_encloseTokens mem])) span op
  | .unary span op operand, spellable =>
    spells_unary (operand.spells fun t mem => spellable t (by simp [tokens, mem_encloseTokens mem]))
      span op
  | .call span name args, spellable => by
    have named : (Token.ident name).Spellable := spellable _ (by simp [tokens])
    exact spells_call named (items_spell args fun t mem => spellable t (by simp [tokens, mem])) span
  | .default span ty, _ => spells_default span ty

theorem items_spell : (es : List Expr) → (∀ t ∈ itemsTokens es, t.Spellable) →
    Spells Fresh (itemsText es).toList (itemsTokens es)
  | [], _ => spells_nil
  | [e], spellable => by
    rw [itemsText, itemsTokens]
    exact e.spells fun t mem => spellable t (by simpa [itemsTokens] using mem)
  | e :: e' :: rest, spellable => by
    have first := e.spells fun t mem => spellable t (by simp [itemsTokens, mem])
    have others := items_spell (e' :: rest) fun t mem =>
      spellable t (by simp [itemsTokens_more, mem])
    have behind := spells_space.append others fun _ _ => trivial
    have separated := (spells_symbol .comma).append behind fun _ _ => fresh_cons (by decide)
    have whole := first.append separated fun _ _ => fresh_cons (by decide)
    simp only [itemsText_more, itemsTokens_more, String.toList_append, List.append_assoc]
    exact whole

end

end Expr

/-! ## Expressions of a source -/

/-- No floating-point literal, and no string with other than plain characters. -/
def Token.isPlain : Token → Bool
  | .float _ => false
  | .str s => s.toList.all Lexer.isPlain
  | _ => true

theorem Token.spellable_of_genuine {t : Token} (genuine : t.Genuine) (plain : t.isPlain) :
    t.Spellable := by
  cases t with
  | float x => cases plain
  | str s => exact List.all_eq_true.mp plain
  | _ => exact genuine

namespace Expr

theorem tokens_withSpan (e : Expr) (s : Span) : (e.withSpan s).tokens = e.tokens := by
  cases e <;> simp [withSpan, tokens]

/-- The literals of the expression are integers, truth values, `none` and strings of plain
characters. -/
def isPlain (e : Expr) : Bool :=
  e.tokens.all Token.isPlain

end Expr

namespace Grammar

theorem Literal.tokens_eq {place : Span} {t : Token} {e : Expr} (is : Literal place t e) :
    e.tokens = [t] := by
  cases is <;> simp [Expr.tokens]

theorem genuine_encloseTokens {e : Expr} {ts : List Token} (genuine : ∀ t ∈ ts, t.Genuine) :
    ∀ t ∈ e.encloseTokens ts, t.Genuine := by
  unfold Expr.encloseTokens
  split
  · simp only [List.cons_append, List.forall_mem_cons, List.forall_mem_append]
    exact ⟨trivial, genuine, trivial, by simp⟩
  · exact genuine

theorem genuine_joined {op : BinOp} {left right : Expr} (ofLeft : ∀ t ∈ left.tokens, t.Genuine)
    (ofRight : ∀ t ∈ right.tokens, t.Genuine) : ∀ t ∈ (joined op left right).tokens, t.Genuine := by
  have operator : op.token.Genuine := by cases op <;> trivial
  rw [joined, Expr.tokens, List.forall_mem_append, List.forall_mem_cons]
  exact ⟨genuine_encloseTokens ofLeft, operator, genuine_encloseTokens ofRight⟩

mutual

/-- The tokens in the text of an expression come from its lexemes, operators and parentheses
apart. -/
theorem Expression.genuine {layer : Layer} {ls : List Lexeme} {e : Expr} :
    Expression layer ls e → (∀ l ∈ ls, l.token.Genuine) → ∀ t ∈ e.tokens, t.Genuine
  | .operand inner, genuine | .positive inner, genuine | .uncompared inner, genuine
  | .unsigned inner, genuine | .unindexed inner, genuine => inner.genuine genuine
  | .joined ofLeft _ ofRight, genuine | .compared ofLeft _ ofRight, genuine => by
    rw [List.forall_mem_append, List.forall_mem_cons] at genuine
    exact genuine_joined (ofLeft.genuine genuine.1) (ofRight.genuine genuine.2.2)
  | .not inner, genuine | .minus inner, genuine => by
    rw [List.forall_mem_cons] at genuine
    rw [Expr.tokens, List.forall_mem_cons]
    exact ⟨trivial, genuine_encloseTokens (inner.genuine genuine.2)⟩
  | .indexed ofBase ofPosition, genuine => by
    simp only [List.forall_mem_append, List.forall_mem_cons] at genuine
    simp only [Expr.tokens, List.forall_mem_append, List.forall_mem_cons]
    exact ⟨⟨ofBase.genuine genuine.1.1, trivial, ofPosition.genuine genuine.1.2.2⟩, trivial, by simp⟩
  | .literal is, genuine => by
    rw [is.tokens_eq]
    simpa using genuine
  | .var, genuine => by
    rw [Expr.tokens]
    simpa using genuine
  | .call ofArgs, genuine => by
    simp only [List.forall_mem_cons] at genuine
    simp only [Expr.tokens, List.cons_append, List.forall_mem_append, List.forall_mem_cons]
    exact ⟨genuine.1, trivial, ofArgs.genuine genuine.2.2, trivial, by simp⟩
  | .list ofItems, genuine => by
    simp only [List.forall_mem_cons] at genuine
    simp only [Expr.tokens, List.cons_append, List.forall_mem_append, List.forall_mem_cons]
    exact ⟨trivial, ofItems.genuine genuine.2, trivial, by simp⟩
  | .paren inner, genuine => by
    simp only [List.cons_append, List.forall_mem_cons, List.forall_mem_append] at genuine
    rw [Expr.tokens_withSpan]
    exact inner.genuine genuine.2.1

theorem Items.genuine {ls : List Lexeme} {es : List Expr} :
    Items ls es → (∀ l ∈ ls, l.token.Genuine) → ∀ t ∈ Expr.itemsTokens es, t.Genuine
  | .one inner, genuine => inner.genuine genuine
  | .more first others, genuine => by
    rw [List.forall_mem_append, List.forall_mem_cons] at genuine
    have ofFirst := first.genuine genuine.1
    have ofOthers := others.genuine genuine.2.2
    cases others with
    | one | more =>
      rw [Expr.itemsTokens_more, List.forall_mem_append, List.forall_mem_cons]
      exact ⟨ofFirst, trivial, ofOthers⟩

theorem Closed.genuine {close : Symbol} {ls : List Lexeme} {es : List Expr} {closed : Span} :
    Closed close ls es closed → (∀ l ∈ ls, l.token.Genuine) →
      ∀ t ∈ Expr.itemsTokens es, t.Genuine
  | .empty, _ => by rintro t ⟨⟩
  | .items inner, genuine => by
    rw [List.forall_mem_append] at genuine
    exact inner.genuine genuine.1

end

end Grammar

section

variable {source : String} {size : Nat} {ts : List Lexeme} {prog : Program} {e : Expr}

/-- What the text of an expression of a program is made of, the text of a plain expression
spells. -/
theorem spells_of_holdsExpr (lexed : tokenize source = .ok ts) (parsed : parse size ts = .ok prog)
    (holds : prog.HoldsExpr e) (plain : e.isPlain) : Lexer.Spells Lexer.Fresh e.text.toList e.tokens := by
  rcases phrase_of_holdsExpr parsed holds with ⟨default, -⟩ |
    ⟨d, fewer, d', enough, ls, infixed, layer, forms⟩
  · cases e with
    | default span ty => exact Expr.spells_default span ty
    | _ => cases default
  · apply e.spells
    intro t mem
    have genuine := forms.derived.genuine fun l inside =>
      tokenize_genuine lexed l (infixed.subset inside)
    exact Token.spellable_of_genuine (genuine t mem) (List.all_eq_true.mp plain t mem)

end

end TraceLang
