/-
# TraceLang.Proofs.Syntax.Derivation — the parser accepts exactly its grammar

The grammar relates lexemes to syntax trees with all places. Where the lexemes stand
has no influence on the shape of the tree: the same tokens at other places form a
tree with the same bare form (`Statements.relocate`). So it makes sense to say that
tokens derive a program, apart from places. Together with what is known about the
parser, this settles which programs it reads: those that the tokens derive, and
there is one at most.
-/
import TraceLang.Proofs.Syntax.Bare
import TraceLang.Proofs.Syntax.Reading
import TraceLang.Proofs.Syntax.Parts

namespace TraceLang

set_option autoImplicit false

namespace Grammar

variable {ls ls' xs : List Lexeme}

/-! ## The same tokens at other places -/

/-- The lexemes have the same tokens. -/
def Alike (xs ls : List Lexeme) : Prop :=
  xs.map (·.token) = ls.map (·.token)

theorem Alike.nil (alike : Alike xs []) : xs = [] :=
  List.map_eq_nil_iff.mp alike

theorem Alike.cons {l : Lexeme} (alike : Alike xs (l :: ls)) :
    ∃ place ys, xs = ⟨l.token, place⟩ :: ys ∧ Alike ys ls := by
  obtain ⟨⟨_, place⟩, ys, rfl, rfl, rest⟩ := List.map_eq_cons_iff.mp alike
  exact ⟨place, ys, rfl, rest⟩

theorem Alike.singleton {l : Lexeme} (alike : Alike xs [l]) :
    ∃ place, xs = [⟨l.token, place⟩] := by
  obtain ⟨place, ys, rfl, rest⟩ := alike.cons
  obtain rfl := rest.nil
  exact ⟨place, rfl⟩

theorem Alike.append (alike : Alike xs (ls ++ ls')) :
    ∃ ys zs, xs = ys ++ zs ∧ Alike ys ls ∧ Alike zs ls' := by
  rw [Alike, List.map_append] at alike
  exact List.map_eq_append_iff.mp alike

theorem Literal.relocate {t : Token} {place : Span} {e : Expr} (is : Literal place t e)
    (place' : Span) : ∃ e', Literal place' t e' ∧ e'.bare = e.bare := by
  cases is with
  | int => exact ⟨_, .int, by simp [Expr.bare]⟩
  | float => exact ⟨_, .float, by simp [Expr.bare]⟩
  | str => exact ⟨_, .str, by simp [Expr.bare]⟩
  | yes => exact ⟨_, .yes, by simp [Expr.bare]⟩
  | no => exact ⟨_, .no, by simp [Expr.bare]⟩
  | none => exact ⟨_, .none, by simp [Expr.bare]⟩

mutual

/-- An expression can be derived from the same tokens at other places, and to read it takes as
many levels there. -/
theorem Expression.relocate {layer : Layer} {ls xs : List Lexeme} {e : Expr} :
    Expression layer ls e → Alike xs ls →
      ∃ d e', layer.Forms d ls e ∧ layer.Forms d xs e' ∧ e'.bare = e.bare
  | .operand inner, alike => by
    obtain ⟨d, e', forms, forms', same⟩ := inner.relocate alike
    exact ⟨d, e', forms.chain, forms'.chain, same⟩
  | .joined ofLeft operator ofRight, alike => by
    obtain ⟨ys, _, rfl, alikeLeft, rest₁⟩ := alike.append
    obtain ⟨place, zs, rfl, alikeRight⟩ := rest₁.cons
    obtain ⟨d, left', left, movedLeft, sameLeft⟩ := ofLeft.relocate alikeLeft
    obtain ⟨d', right', right, movedRight, sameRight⟩ := ofRight.relocate alikeRight
    refine ⟨_, _, left.joined operator right, movedLeft.joined operator movedRight, ?_⟩
    simp [joined, Expr.bare, sameLeft, sameRight]
  | .not inner, alike => by
    obtain ⟨place, ys, rfl, rest₁⟩ := alike.cons
    obtain ⟨d, e', forms, forms', same⟩ := inner.relocate rest₁
    exact ⟨_, _, forms.not, forms'.not, by simp [Expr.bare, same]⟩
  | .positive inner, alike => by
    obtain ⟨d, e', forms, forms', same⟩ := inner.relocate alike
    exact ⟨d, e', forms.negation, forms'.negation, same⟩
  | .compared ofLeft operator ofRight, alike => by
    obtain ⟨ys, _, rfl, alikeLeft, rest₁⟩ := alike.append
    obtain ⟨place, zs, rfl, alikeRight⟩ := rest₁.cons
    obtain ⟨d, left', left, movedLeft, sameLeft⟩ := ofLeft.relocate alikeLeft
    obtain ⟨d', right', right, movedRight, sameRight⟩ := ofRight.relocate alikeRight
    refine ⟨_, _, left.compared operator right, movedLeft.compared operator movedRight, ?_⟩
    simp [joined, Expr.bare, sameLeft, sameRight]
  | .uncompared inner, alike => by
    obtain ⟨d, e', forms, forms', same⟩ := inner.relocate alike
    exact ⟨d, e', forms.comparison, forms'.comparison, same⟩
  | .minus inner, alike => by
    obtain ⟨place, ys, rfl, rest₁⟩ := alike.cons
    obtain ⟨d, e', forms, forms', same⟩ := inner.relocate rest₁
    exact ⟨_, _, forms.minus, forms'.minus, by simp [Expr.bare, same]⟩
  | .unsigned inner, alike => by
    obtain ⟨d, e', forms, forms', same⟩ := inner.relocate alike
    exact ⟨d, e', forms.signed, forms'.signed, same⟩
  | .indexed ofBase ofPosition, alike => by
    obtain ⟨_, _, rfl, rest₁, alikeClosed⟩ := alike.append
    obtain ⟨ys, _, rfl, alikeBase, rest₂⟩ := rest₁.append
    obtain ⟨opened, zs, rfl, alikePosition⟩ := rest₂.cons
    obtain ⟨closed, rfl⟩ := alikeClosed.singleton
    obtain ⟨d, base', base, movedBase, sameBase⟩ := ofBase.relocate alikeBase
    obtain ⟨d', position', position, movedPosition, samePosition⟩ :=
      ofPosition.relocate alikePosition
    exact ⟨_, _, base.indexed position, movedBase.indexed movedPosition,
      by simp [Expr.bare, sameBase, samePosition]⟩
  | .unindexed inner, alike => by
    obtain ⟨d, e', forms, forms', same⟩ := inner.relocate alike
    exact ⟨d, e', forms.postfixed, forms'.postfixed, same⟩
  | .literal is, alike => by
    obtain ⟨place, rfl⟩ := alike.singleton
    obtain ⟨e', is', same⟩ := is.relocate place
    exact ⟨0, e', ⟨.literal is, recognizes_literal is⟩, ⟨.literal is', recognizes_literal is'⟩, same⟩
  | .var, alike => by
    obtain ⟨place, rfl⟩ := alike.singleton
    exact ⟨0, _, ⟨.var, recognizes_var⟩, ⟨.var, recognizes_var⟩, by simp [Expr.bare]⟩
  | .call ofArgs, alike => by
    obtain ⟨place, _, rfl, rest₁⟩ := alike.cons
    obtain ⟨opened, ys, rfl, rest₂⟩ := rest₁.cons
    obtain ⟨d, args', closed, read, moved, readMoved, same⟩ := ofArgs.relocate (.inl rfl) rest₂
    exact ⟨d, _, ⟨.call ofArgs, recognizes_call read⟩, ⟨.call moved, recognizes_call readMoved⟩,
      by simp [Expr.bare, same]⟩
  | .list ofItems, alike => by
    obtain ⟨opened, ys, rfl, rest₁⟩ := alike.cons
    obtain ⟨d, items', closed, read, moved, readMoved, same⟩ := ofItems.relocate (.inr rfl) rest₁
    exact ⟨d, _, ⟨.list ofItems, recognizes_list read⟩, ⟨.list moved, recognizes_list readMoved⟩,
      by simp [Expr.bare, same]⟩
  | .paren inner, alike => by
    obtain ⟨_, _, rfl, rest₁, alikeClosed⟩ := alike.append
    obtain ⟨opened, ys, rfl, rest₂⟩ := rest₁.cons
    obtain ⟨closed, rfl⟩ := alikeClosed.singleton
    obtain ⟨d, e', forms, forms', same⟩ := inner.relocate rest₂
    exact ⟨_, _, forms.paren, forms'.paren, by simp [same]⟩

theorem Items.relocate {ls xs : List Lexeme} {es : List Expr} :
    Items ls es → Alike xs ls → ∃ d es', ItemsRead d ls es ∧ Items xs es' ∧ ItemsRead d xs es' ∧
      Expr.bareAll es' = Expr.bareAll es
  | .one inner, alike => by
    obtain ⟨d, e', forms, forms', same⟩ := inner.relocate alike
    exact ⟨_, [e'], itemsRead_one inner.length_pos forms.recognized, .one forms'.derived,
      itemsRead_one forms'.derived.length_pos forms'.recognized, by simp [Expr.bareAll, same]⟩
  | .more first others, alike => by
    obtain ⟨ys, _, rfl, alikeFirst, rest₁⟩ := alike.append
    obtain ⟨place, zs, rfl, alikeOthers⟩ := rest₁.cons
    obtain ⟨d, e', forms, forms', sameFirst⟩ := first.relocate alikeFirst
    obtain ⟨d', es', read, moved, readMoved, sameOthers⟩ := others.relocate alikeOthers
    exact ⟨_, e' :: es', itemsRead_more first.length_pos forms.recognized read,
      .more forms'.derived moved,
      itemsRead_more forms'.derived.length_pos forms'.recognized readMoved,
      by simp [Expr.bareAll, sameFirst, sameOthers]⟩

theorem Closed.relocate {close : Symbol} {ls xs : List Lexeme} {es : List Expr} {closed : Span}
    (closing : close = .rParen ∨ close = .rBracket) :
    Closed close ls es closed → Alike xs ls →
      ∃ d es' closed', ClosedRead close d ls es closed ∧ Closed close xs es' closed' ∧
        ClosedRead close d xs es' closed' ∧ Expr.bareAll es' = Expr.bareAll es
  | .empty, alike => by
    obtain ⟨closed, rfl⟩ := alike.singleton
    exact ⟨0, [], closed, closedRead_empty, .empty, closedRead_empty, rfl⟩
  | .items inner, alike => by
    obtain ⟨ys, _, rfl, rest₁, alikeClosed⟩ := alike.append
    obtain ⟨closed, rfl⟩ := alikeClosed.singleton
    obtain ⟨d, es', read, moved, readMoved, same⟩ := inner.relocate rest₁
    exact ⟨d, es', closed, closedRead_items closing inner read, .items moved,
      closedRead_items closing moved readMoved, same⟩

end

/-- Where the levels do not matter. -/
theorem Expression.moved {layer : Layer} {e : Expr} (derived : Expression layer ls e)
    (alike : Alike xs ls) : ∃ e', Expression layer xs e' ∧ e'.bare = e.bare := by
  obtain ⟨d, e', -, forms, same⟩ := derived.relocate alike
  exact ⟨e', forms.derived, same⟩

theorem Items.moved {es : List Expr} (derived : Items ls es) (alike : Alike xs ls) :
    ∃ es', Items xs es' ∧ Expr.bareAll es' = Expr.bareAll es := by
  obtain ⟨d, es', -, moved, -, same⟩ := derived.relocate alike
  exact ⟨es', moved, same⟩

/-- The instructions have the same bare form wherever they stand. -/
def SameBare (i i' : Span → Instr) : Prop :=
  ∀ place place', (i place).bare = (i' place').bare

theorem Simple.relocate {i : Span → Instr} (derived : Simple ls i) (alike : Alike xs ls) :
    ∃ i', Simple xs i' ∧ SameBare i' i := by
  cases derived with
  | declare ofInit =>
    obtain ⟨place, _, rfl, rest₁⟩ := alike.cons
    obtain ⟨named, _, rfl, rest₂⟩ := rest₁.cons
    obtain ⟨equals, ys, rfl, rest₃⟩ := rest₂.cons
    obtain ⟨init', derived, same⟩ := ofInit.moved rest₃
    exact ⟨_, .declare derived, fun _ _ => by simp [Instr.bare, Declaration.bare, same]⟩
  | reserve typed =>
    obtain ⟨place, _, rfl, rest₁⟩ := alike.cons
    obtain ⟨named, rfl⟩ := rest₁.singleton
    refine ⟨_, .reserve typed, fun _ _ => ?_⟩
    simp [Instr.bare, Declaration.bare, Declaration.unassigned, Expr.bare]
  | assign ofTarget location ofValue =>
    obtain ⟨ys, _, rfl, alikeTarget, rest₁⟩ := alike.append
    obtain ⟨equals, zs, rfl, alikeValue⟩ := rest₁.cons
    obtain ⟨target', derivedTarget, sameTarget⟩ := ofTarget.moved alikeTarget
    obtain ⟨value', derivedValue, sameValue⟩ := ofValue.moved alikeValue
    have location' : Location target' := by
      rw [location_iff, ← Expr.isLocation_bare, sameTarget, Expr.isLocation_bare]
      exact location_iff.mp location
    refine ⟨_, .assign derivedTarget location' derivedValue, fun _ _ => ?_⟩
    simp [Instr.bare, sameTarget, sameValue]
  | call inner =>
    obtain ⟨e', derived, same⟩ := inner.moved alike
    rw [Expr.bare] at same
    obtain ⟨place, args', rfl, sameArgs⟩ := Expr.eq_call_of_bare same
    exact ⟨_, .call derived, fun _ _ => by simp [Instr.bare, sameArgs]⟩

theorem Parameters.relocate {params : List Param} (derived : Parameters ls params) :
    ∀ {xs : List Lexeme}, Alike xs ls → Parameters xs params := by
  induction derived with
  | one =>
    intro xs alike
    obtain ⟨place, _, rfl, rest₁⟩ := alike.cons
    obtain ⟨named, rfl⟩ := rest₁.singleton
    exact .one
  | more _ ih =>
    intro xs alike
    obtain ⟨place, _, rfl, rest₁⟩ := alike.cons
    obtain ⟨named, _, rfl, rest₂⟩ := rest₁.cons
    obtain ⟨comma, ys, rfl, rest₃⟩ := rest₂.cons
    exact .more (ih rest₃)

theorem ParameterList.relocate {params : List Param} (derived : ParameterList ls params)
    (alike : Alike xs ls) : ParameterList xs params := by
  cases derived with
  | empty =>
    obtain rfl := alike.nil
    exact .empty
  | some inner => exact .some (inner.relocate alike)

mutual

/-- A statement can be derived from the same tokens at other places. -/
theorem Statement.relocate {ls xs : List Lexeme} {i : Span → Instr} :
    Statement ls i → Alike xs ls → ∃ i', Statement xs i' ∧ SameBare i' i
  | .simple inner, alike => by
    obtain ⟨ys, _, rfl, rest₁, alikeSemi⟩ := alike.append
    obtain ⟨semi, rfl⟩ := alikeSemi.singleton
    obtain ⟨i', derived, same⟩ := inner.relocate rest₁
    exact ⟨i', .simple derived, same⟩
  | .define ofParams ofBody, alike => by
    obtain ⟨_, _, rfl, rest₁, alikeRest⟩ := alike.append
    obtain ⟨place, _, rfl, rest₂⟩ := rest₁.cons
    obtain ⟨named, _, rfl, rest₃⟩ := rest₂.cons
    obtain ⟨opened, ys, rfl, alikeParams⟩ := rest₃.cons
    obtain ⟨closed, zs, rfl, alikeBody⟩ := alikeRest.cons
    obtain ⟨body', derivedBody, sameBody⟩ := ofBody.relocate alikeBody
    exact ⟨_, .define (ofParams.relocate alikeParams) derivedBody,
      fun _ _ => by simp [Instr.bare, sameBody]⟩
  | .conditional inner, alike => by
    obtain ⟨i', derived, same⟩ := inner.relocate alike
    exact ⟨i', .conditional derived, same⟩
  | .whileLoop ofCond ofBody, alike => by
    obtain ⟨_, zs, rfl, rest₁, alikeBody⟩ := alike.append
    obtain ⟨place, ys, rfl, alikeCond⟩ := rest₁.cons
    obtain ⟨cond', derivedCond, sameCond⟩ := ofCond.moved alikeCond
    obtain ⟨body', derivedBody, sameBody⟩ := ofBody.relocate alikeBody
    exact ⟨_, .whileLoop derivedCond derivedBody,
      fun _ _ => by simp [Instr.bare, sameCond, sameBody]⟩
  | .forLoop ofInit ofCond ofStep ofBody, alike => by
    obtain ⟨_, _, rfl, rest₁, atBody⟩ := alike.append
    obtain ⟨_, _, rfl, rest₂, atStep⟩ := rest₁.append
    obtain ⟨_, _, rfl, rest₃, atCond⟩ := rest₂.append
    obtain ⟨place, _, rfl, atInit⟩ := rest₃.cons
    obtain ⟨opened, xsInit, rfl, alikeInit⟩ := atInit.cons
    obtain ⟨semi, xsCond, rfl, alikeCond⟩ := atCond.cons
    obtain ⟨semi', xsStep, rfl, alikeStep⟩ := atStep.cons
    obtain ⟨closed, xsBody, rfl, alikeBody⟩ := atBody.cons
    obtain ⟨init', derivedInit, sameInit⟩ := ofInit.relocate alikeInit
    obtain ⟨cond', derivedCond, sameCond⟩ := ofCond.moved alikeCond
    obtain ⟨step', derivedStep, sameStep⟩ := ofStep.relocate alikeStep
    obtain ⟨body', derivedBody, sameBody⟩ := ofBody.relocate alikeBody
    refine ⟨_, .forLoop derivedInit derivedCond derivedStep derivedBody, fun _ _ => ?_⟩
    simp only [Instr.bare, sameCond, sameBody]
    rw [sameInit, sameStep]
  | .trace ofTargets, alike => by
    obtain ⟨_, _, rfl, rest₁, alikeRest⟩ := alike.append
    obtain ⟨place, _, rfl, rest₂⟩ := rest₁.cons
    obtain ⟨opened, ys, rfl, alikeTargets⟩ := rest₂.cons
    obtain ⟨closed, _, rfl, rest₃⟩ := alikeRest.cons
    obtain ⟨semi, rfl⟩ := rest₃.singleton
    obtain ⟨targets', derived, same⟩ := ofTargets.moved alikeTargets
    exact ⟨_, .trace derived, fun _ _ => by simp [Instr.bare, same]⟩
  | .leave, alike => by
    obtain ⟨place, _, rfl, rest₁⟩ := alike.cons
    obtain ⟨semi, rfl⟩ := rest₁.singleton
    exact ⟨_, .leave, fun _ _ => by simp [Instr.bare]⟩
  | .again, alike => by
    obtain ⟨place, _, rfl, rest₁⟩ := alike.cons
    obtain ⟨semi, rfl⟩ := rest₁.singleton
    exact ⟨_, .again, fun _ _ => by simp [Instr.bare]⟩
  | .stop, alike => by
    obtain ⟨place, _, rfl, rest₁⟩ := alike.cons
    obtain ⟨semi, rfl⟩ := rest₁.singleton
    exact ⟨_, .stop, fun _ _ => by simp [Instr.bare]⟩
  | .result ofValue, alike => by
    obtain ⟨_, _, rfl, rest₁, alikeSemi⟩ := alike.append
    obtain ⟨place, ys, rfl, alikeValue⟩ := rest₁.cons
    obtain ⟨semi, rfl⟩ := alikeSemi.singleton
    obtain ⟨value', derived, same⟩ := ofValue.moved alikeValue
    exact ⟨_, .result derived, fun _ _ => by simp [Instr.bare, same]⟩

theorem Conditional.relocate {ls xs : List Lexeme} {i : Span → Instr} :
    Conditional ls i → Alike xs ls → ∃ i', Conditional xs i' ∧ SameBare i' i
  | .mk ofCond ofTrue ofFalse, alike => by
    obtain ⟨_, zs, rfl, rest₁, alikeFalse⟩ := alike.append
    obtain ⟨_, ys, rfl, rest₂, alikeTrue⟩ := rest₁.append
    obtain ⟨place, xs, rfl, alikeCond⟩ := rest₂.cons
    obtain ⟨cond', derivedCond, sameCond⟩ := ofCond.moved alikeCond
    obtain ⟨onTrue', derivedTrue, sameTrue⟩ := ofTrue.relocate alikeTrue
    obtain ⟨onFalse', derivedFalse, sameFalse⟩ := ofFalse.relocate alikeFalse
    refine ⟨_, .mk derivedCond derivedTrue derivedFalse, fun _ _ => ?_⟩
    simp [Instr.bare, sameCond, sameTrue, sameFalse]

theorem Otherwise.relocate {ls xs : List Lexeme} {body : List Instr} :
    Otherwise ls body → Alike xs ls →
      ∃ body', Otherwise xs body' ∧ Instr.bareAll body' = Instr.bareAll body
  | .nothing, alike => by
    obtain rfl := alike.nil
    exact ⟨[], .nothing, rfl⟩
  | .block inner, alike => by
    obtain ⟨place, ys, rfl, rest₁⟩ := alike.cons
    obtain ⟨body', derived, same⟩ := inner.relocate rest₁
    exact ⟨body', .block derived, same⟩
  | .conditional inner, alike => by
    obtain ⟨place, ys, rfl, rest₁⟩ := alike.cons
    obtain ⟨i', derived, same⟩ := inner.relocate rest₁
    exact ⟨_, .conditional derived, by simp only [Instr.bareAll]; rw [same]⟩

theorem Block.relocate {ls xs : List Lexeme} {body : List Instr} :
    Block ls body → Alike xs ls → ∃ body', Block xs body' ∧ Instr.bareAll body' = Instr.bareAll body
  | .mk inner, alike => by
    obtain ⟨opened, ys, rfl, rest₁⟩ := alike.cons
    obtain ⟨body', derived, same⟩ := inner.relocate rest₁
    exact ⟨body', .mk derived, same⟩

theorem Body.relocate {ls xs : List Lexeme} {body : List Instr} :
    Body ls body → Alike xs ls → ∃ body', Body xs body' ∧ Instr.bareAll body' = Instr.bareAll body
  | .close, alike => by
    obtain ⟨closed, rfl⟩ := alike.singleton
    exact ⟨[], .close, rfl⟩
  | .more first others, alike => by
    obtain ⟨ys, zs, rfl, alikeFirst, alikeOthers⟩ := alike.append
    obtain ⟨i', derivedFirst, sameFirst⟩ := first.relocate alikeFirst
    obtain ⟨body', derivedOthers, sameOthers⟩ := others.relocate alikeOthers
    refine ⟨_, .more derivedFirst derivedOthers, ?_⟩
    rw [Instr.bareAll, Instr.bareAll, sameFirst, sameOthers]

end

theorem Statements.relocate {body : List Instr} (derived : Statements ls body) :
    ∀ {xs : List Lexeme}, Alike xs ls →
      ∃ body', Statements xs body' ∧ Instr.bareAll body' = Instr.bareAll body := by
  induction derived with
  | done =>
    intro xs alike
    obtain rfl := alike.nil
    exact ⟨[], .done, rfl⟩
  | more first others ih =>
    intro xs alike
    obtain ⟨ys, zs, rfl, alikeFirst, alikeOthers⟩ := alike.append
    obtain ⟨i', derivedFirst, sameFirst⟩ := first.relocate alikeFirst
    obtain ⟨body', derivedOthers, sameOthers⟩ := ih alikeOthers
    refine ⟨_, .more derivedFirst derivedOthers, ?_⟩
    rw [Instr.bareAll, Instr.bareAll, sameFirst, sameOthers]

/-! ## Tokens and programs -/

/-- The tokens derive the program, apart from places. -/
def Derives (ts : List Token) (prog : Program) : Prop :=
  ∃ (ls : List Lexeme) (found : Program),
    ls.map (·.token) = ts ∧ Statements ls found.body ∧ found.bare = prog.bare

/-- What tokens derive, lexemes with these tokens form. -/
theorem Derives.exists_statements {prog : Program} (derives : Derives (ls.map (·.token)) prog) :
    ∃ found : Program, Statements ls found.body ∧ found.bare = prog.bare := by
  obtain ⟨ls', found', alike, derived, same⟩ := derives
  obtain ⟨body, derived', same'⟩ := derived.relocate alike.symm
  refine ⟨{ body }, derived', ?_⟩
  rw [← same, Program.bare, same']
  rfl

theorem Derives.bare_eq {ts : List Token} {prog prog' : Program} (derives : Derives ts prog)
    (derives' : Derives ts prog') : prog.bare = prog'.bare := by
  obtain ⟨ls, found, rfl, derived, same⟩ := derives
  obtain ⟨found', derived', same'⟩ := derives'.exists_statements
  have unique : found.body = found'.body := statements_unique derived derived'
  rw [← same, ← same', Program.bare, Program.bare, unique]

theorem Derives.parse {prog : Program} (derives : Derives (ls.map (·.token)) prog) (size : Nat) :
    (∃ found, TraceLang.parse size ls = .ok found ∧ found.bare = prog.bare) ∨
      maxNesting ≤ ls.length ∧ ∃ span, TraceLang.parse size ls = .error ⟨.tooDeep, span⟩ := by
  obtain ⟨found, derived, same⟩ := derives.exists_statements
  exact (parse_of_statements derived size).imp_left fun ok => ⟨found, ok, same⟩

end Grammar

open Grammar

/-- The parts of a program that is one assignment. -/
def Program.assignment? : Program → Option (Span × Expr × Expr)
  | ⟨[.assign place target value]⟩ => some (place, target, value)
  | _ => none

theorem Program.eq_of_assignment? {prog : Program} {place : Span} {target value : Expr}
    (is : prog.assignment? = some (place, target, value)) :
    prog = ⟨[.assign place target value]⟩ := by
  unfold Program.assignment? at is
  split at is <;> cases is
  rfl

/-- The parser accepts exactly the grammar, where it does not run into the limit on the
nesting: what it reads is what the tokens derive. Tokens derive one program at most.
A source with fewer lexemes than the limit does not run into it if it follows the
grammar. -/
theorem parse_iff_derives :
    (∀ (size : Nat) (ls : List Lexeme) (prog : Program),
      (∀ span, parse size ls ≠ .error ⟨.tooDeep, span⟩) →
        ((∃ found, parse size ls = .ok found ∧ found.bare = prog.bare) ↔
          Derives (ls.map (·.token)) prog)) ∧
    (∀ (ts : List Token) (prog prog' : Program),
      Derives ts prog → Derives ts prog' → prog.bare = prog'.bare) ∧
    (∀ (size : Nat) (ls : List Lexeme) (prog : Program), ls.length < maxNesting →
      Derives (ls.map (·.token)) prog →
        ∃ found, parse size ls = .ok found ∧ found.bare = prog.bare) := by
  refine ⟨fun size ls prog shallow => ⟨?_, fun derives => ?_⟩, fun ts prog prog' => ?_,
    fun size ls prog short derives => ?_⟩
  · rintro ⟨found, read, same⟩
    exact ⟨ls, found, rfl, statements_of_parse read, same⟩
  · rcases derives.parse size with read | ⟨-, span, complains⟩
    · exact read
    · exact absurd complains (shallow span)
  · exact Derives.bare_eq
  · rcases derives.parse size with read | ⟨long, -⟩
    · exact read
    · exact absurd short (Nat.not_lt.mpr long)

/-- Operators of all strengths in one expression, and a chain of comparisons, which is
no expression. -/
theorem parse_iff_derives_strengths :
    (∃ ls place target value, tokenize "x = 1 - 2 - 3 * y[0] < -4 or not b;" = .ok ls ∧
      (∀ span, parse 0 ls ≠ .error ⟨.tooDeep, span⟩) ∧
      Derives (ls.map (·.token)) ⟨[.assign place target value]⟩ ∧
      value.text = "(((1 - 2) - (3 * y[0])) < -4) or not b" ∧
      ∀ prog, Derives (ls.map (·.token)) prog →
        prog.bare = Program.bare ⟨[.assign place target value]⟩) ∧
    (∃ ls, tokenize "x = 1 < 2 < 3;" = .ok ls ∧ ls.length < maxNesting ∧
      ∀ prog, ¬ Derives (ls.map (·.token)) prog) := by
  constructor
  · have checked : (tokenize "x = 1 - 2 - 3 * y[0] < -4 or not b;").toOption.any (fun ls =>
        (parse 0 ls).toOption.any fun prog => prog.assignment?.any fun assigned =>
          assigned.2.2.text == "(((1 - 2) - (3 * y[0])) < -4) or not b") := by
      decide +kernel
    obtain ⟨ls, tokens, holds⟩ := (Option.any_eq_true _ _).mp checked
    obtain ⟨prog, parsed, holds⟩ := (Option.any_eq_true _ _).mp holds
    obtain ⟨⟨place, target, value⟩, assigned, text⟩ := (Option.any_eq_true _ _).mp holds
    obtain rfl := Program.eq_of_assignment? assigned
    have read := Except.eq_of_toOption parsed
    have shallow : ∀ span, parse 0 ls ≠ .error ⟨.tooDeep, span⟩ := by simp [read]
    have derives := (parse_iff_derives.1 0 ls _ shallow).mp ⟨_, read, rfl⟩
    exact ⟨ls, place, target, value, Except.eq_of_toOption tokens, shallow, derives, by simpa using text,
      fun prog other => parse_iff_derives.2.1 _ _ _ other derives⟩
  · have checked : (tokenize "x = 1 < 2 < 3;").toOption.any (fun ls =>
        decide (ls.length < maxNesting) && (parse 0 ls).toOption.isNone) := by
      decide +kernel
    obtain ⟨ls, tokens, holds⟩ := (Option.any_eq_true _ _).mp checked
    obtain ⟨short, refused⟩ := (Bool.and_eq_true _ _).mp holds
    refine ⟨ls, Except.eq_of_toOption tokens, of_decide_eq_true short, fun prog derives => ?_⟩
    obtain ⟨found, read, -⟩ := parse_iff_derives.2.2 0 ls prog (of_decide_eq_true short) derives
    rw [read] at refused
    cases refused

end TraceLang
